import Mathlib.Data.Nat.Bitwise
import VerifiedLedger.Proofs.Forest.Carry
import VerifiedLedger.Proofs.Words
/-! # Leaf counts as words

A leaf count is kept in a word of 64 bits. Here the operations that change a forest run on words: a
mask that is shifted up bit by bit says how long to merge, and a sum, difference or shift fails if
its value is no word. In a valid forest none of them fails, so that the answers are those of the
operations on numbers.
-/
namespace VerifiedLedger

namespace Word

section Exact
variable {a b level : ℕ}

theorem lt_size (h : a ≤ Forest.maxLeaves) : a < UInt64.size := h.trans_lt (by decide)

theorem toNat_ofNat (h : a ≤ Forest.maxLeaves) : (UInt64.ofNat a).toNat = a :=
  UInt64.toNat_ofNat_of_lt' (lt_size h)

theorem ofNat_eq_zero_iff (h : a ≤ Forest.maxLeaves) : UInt64.ofNat a = 0 ↔ a = 0 := by
  rw [← UInt64.toNat_inj, toNat_ofNat h, UInt64.toNat_zero]

theorem add_ofNat (h : a + b ≤ Forest.maxLeaves) :
    add (UInt64.ofNat a) (UInt64.ofNat b) =
      (.ok (UInt64.ofNat (a + b)) : Except (WordFault ProofError) UInt64) := by
  rw [add, toNat_ofNat (Nat.le_of_add_right_le h), toNat_ofNat (Nat.le_of_add_left_le h)]
  exact exact_of_lt (lt_size h)

theorem sub_ofNat (hle : b ≤ a) (h : a ≤ Forest.maxLeaves) :
    sub (UInt64.ofNat a) (UInt64.ofNat b) =
      (.ok (UInt64.ofNat (a - b)) : Except (WordFault ProofError) UInt64) := by
  have hwords : UInt64.ofNat b ≤ UInt64.ofNat a := by
    rwa [UInt64.le_iff_toNat_le, toNat_ofNat h, toNat_ofNat (hle.trans h)]
  rw [sub, if_pos hwords, toNat_ofNat h, toNat_ofNat (hle.trans h)]
  exact exact_of_lt (lt_size ((Nat.sub_le a b).trans h))

theorem lt_ofNat_iff (ha : a ≤ Forest.maxLeaves) (hb : b ≤ Forest.maxLeaves) :
    UInt64.ofNat a < UInt64.ofNat b ↔ a < b := by
  rw [UInt64.lt_iff_toNat_lt, toNat_ofNat ha, toNat_ofNat hb]

theorem shiftLeft_one (h : 2 ^ level ≤ Forest.maxLeaves) :
    shiftLeft 1 level =
      (.ok (UInt64.ofNat (2 ^ level)) : Except (WordFault ProofError) UInt64) := by
  rw [shiftLeft, UInt64.toNat_one, Nat.one_shiftLeft]
  exact exact_of_lt (lt_size h)

theorem shiftLeft_two_pow (h : 2 ^ (level + 1) ≤ Forest.maxLeaves) :
    shiftLeft (UInt64.ofNat (2 ^ level)) 1 =
      (.ok (UInt64.ofNat (2 ^ (level + 1))) : Except (WordFault ProofError) UInt64) := by
  have hlevel : 2 ^ level ≤ Forest.maxLeaves := (Nat.pow_le_pow_right (by decide) (by omega)).trans h
  rw [shiftLeft, toNat_ofNat hlevel, Nat.shiftLeft_eq, Nat.pow_one, ← Nat.pow_succ]
  exact exact_of_lt (lt_size h)

theorem and_ofNat_eq_zero_iff {count : UInt64} (h : 2 ^ level ≤ Forest.maxLeaves) :
    count &&& UInt64.ofNat (2 ^ level) = 0 ↔ count.toNat / 2 ^ level % 2 = 0 := by
  have hpow := Nat.two_pow_pos level
  rw [← UInt64.toNat_inj, UInt64.toNat_and, toNat_ofNat h, Nat.and_two_pow,
    Nat.testBit_eq_decide_div_mod_eq, UInt64.toNat_zero]
  rcases Nat.mod_two_eq_zero_or_one (count.toNat / 2 ^ level) with h2 | h2
  · simp [h2]
  · simp [h2]

end Exact
end Word

structure WordForest (α : Type) where
  peaks : List α
  leafCount : UInt64

def Forest.words {α : Type} (f : Forest α) : WordForest α := ⟨f.peaks, UInt64.ofNat f.leafCount⟩

namespace WordForest
variable {α : Type} (node : α → α → α)

def append (f : WordForest α) (leaf : α) : Except (WordFault ProofError) (WordForest α) :=
  let count := f.leafCount.toNat
  let merges := Bits.trailingOnes count
  if Forest.maxLeaves ≤ count then .error (.refused (.tooManyLeaves count 1 Forest.maxLeaves))
  else
    match Forest.merge node merges leaf f.peaks with
    | none => .error (.refused (.invalidState (.tooFewPeaks count merges f.peaks.length)))
    | some peaks => do
      let leafCount ← Word.add f.leafCount 1
      return ⟨peaks, leafCount⟩

/-- Joins the current node with the peaks to its left as long as the count has the bit of the
mask. -/
def carry (count : UInt64) :
    (mask : UInt64) → (current : α) → List α → Except (WordFault ProofError) (List α)
  | mask, current, [] =>
    if count &&& mask = 0 then .ok [current]
    else .error (.refused (.invalidState (.peaksRanOut count.toNat)))
  | mask, current, left :: peaks =>
    if count &&& mask = 0 then .ok (current :: left :: peaks)
    else do
      let next ← Word.shiftLeft mask 1
      carry count next (node left current) peaks

structure Filling (α : Type) where
  forest : WordForest α
  remaining : UInt64
  subtrees : List α

def fill (newLeaves : UInt64) (f : WordForest α) (remaining : UInt64) (subtrees : List α) :
    Except (WordFault ProofError) (Filling α) :=
  if f.leafCount = 0 then .ok ⟨f, remaining, subtrees⟩
  else do
    let size ← Word.shiftLeft 1 (Bits.trailingZeros f.leafCount.toNat)
    if remaining < size then return ⟨f, remaining, subtrees⟩
    else
      match subtrees with
      | [] => throw (.refused (.tooFewSubtrees newLeaves.toNat))
      | subtree :: rest =>
        let peaks ← carry node f.leafCount size subtree f.peaks
        let leafCount ← Word.add f.leafCount size
        let remaining ← Word.sub remaining size
        fill newLeaves ⟨peaks, leafCount⟩ remaining rest

def Filling.settle (newLeaves : UInt64) (filled : Filling α) :
    Except (WordFault ProofError) (WordForest α) :=
  let needed := Bits.ones filled.remaining.toNat
  if filled.subtrees.length < needed then .error (.refused (.tooFewSubtrees newLeaves.toNat))
  else if needed < filled.subtrees.length then
    .error (.refused (.tooManySubtrees newLeaves.toNat (filled.subtrees.length - needed)))
  else do
    let leafCount ← Word.add filled.forest.leafCount filled.remaining
    return ⟨filled.subtrees.reverse ++ filled.forest.peaks, leafCount⟩

def appendSubtrees (f : WordForest α) (subtrees : List α) (newLeaves : UInt64) :
    Except (WordFault ProofError) (WordForest α) := do
  let room ← Word.sub (UInt64.ofNat Forest.maxLeaves) f.leafCount
  if room < newLeaves then
    throw (.refused (.tooManyLeaves f.leafCount.toNat newLeaves.toNat Forest.maxLeaves))
  else if newLeaves = 0 then
    if subtrees.isEmpty then return f
    else throw (.refused (.tooManySubtrees 0 subtrees.length))
  else
    let filled ← fill node newLeaves f newLeaves subtrees
    filled.settle newLeaves

/-- A count below half of the words has no bit that cannot be shifted up. -/
theorem two_pow_succ_le {count level : ℕ} (hbit : count / 2 ^ level % 2 = 1)
    (hcount : count < Forest.maxLeaves) : 2 ^ (level + 1) ≤ Forest.maxLeaves := by
  have hpos : 0 < count / 2 ^ level := by
    apply Nat.pos_of_ne_zero
    intro h
    rw [h] at hbit
    cases hbit
  have hle : 2 ^ level ≤ count := (Nat.div_pos_iff.1 hpos).2
  have hmax : Forest.maxLeaves = 2 ^ 63 := Nat.one_shiftLeft 63
  rw [hmax] at hcount ⊢
  have hlevel : level < 63 := (Nat.pow_lt_pow_iff_right (by decide)).1 (hle.trans_lt hcount)
  exact Nat.pow_le_pow_right (by decide) hlevel

/-- The bits of the count from the mask on say how many peaks are joined. Below half of the words
the mask is never shifted out. -/
theorem carry_eq (count : UInt64) {level : ℕ} (hlevel : 2 ^ level ≤ Forest.maxLeaves)
    (hcount : count.toNat < Forest.maxLeaves) {current : α} {peaks merged : List α}
    (h : Forest.merge node (Bits.trailingOnes (count.toNat / 2 ^ level)) current peaks =
      some merged) :
    carry node count (UInt64.ofNat (2 ^ level)) current peaks = .ok merged := by
  induction peaks generalizing level current with
  | nil =>
    rcases Nat.mod_two_eq_zero_or_one (count.toNat / 2 ^ level) with h2 | h2
    · rw [Bits.trailingOnes_of_even h2] at h
      cases h
      rw [carry, if_pos ((Word.and_ofNat_eq_zero_iff hlevel).2 h2)]
    · rw [Bits.trailingOnes_of_odd h2] at h
      cases h
  | cons left peaks ih =>
    rcases Nat.mod_two_eq_zero_or_one (count.toNat / 2 ^ level) with h2 | h2
    · rw [Bits.trailingOnes_of_even h2] at h
      cases h
      rw [carry, if_pos ((Word.and_ofNat_eq_zero_iff hlevel).2 h2)]
    · have hbit : ¬count &&& UInt64.ofNat (2 ^ level) = 0 := by
        rw [Word.and_ofNat_eq_zero_iff hlevel]
        omega
      have hnext : 2 ^ (level + 1) ≤ Forest.maxLeaves := two_pow_succ_le h2 hcount
      rw [Bits.trailingOnes_of_odd h2, Nat.div_div_eq_div_mul, ← Nat.pow_succ] at h
      rw [carry, if_neg hbit, Word.shiftLeft_two_pow hnext]
      exact ih hnext h

end WordForest

namespace Forest
variable {α : Type} {node : α → α → α} {f : Forest α} {remaining : ℕ} {subtrees : List α}

def Filling.words (filled : Filling α) : WordForest.Filling α :=
  ⟨filled.forest.words, UInt64.ofNat filled.remaining, filled.subtrees⟩

namespace Valid

theorem toNat_leafCount_words (hf : f.Valid) : f.words.leafCount.toNat = f.leafCount :=
  Word.toNat_ofNat hf.leafCount_le

theorem size_le (hf : f.Valid) (h : f.leafCount ≠ 0) :
    2 ^ Bits.trailingZeros f.leafCount ≤ maxLeaves :=
  (Nat.le_of_dvd (Nat.pos_of_ne_zero h) (Bits.two_pow_trailingZeros_dvd _)).trans hf.leafCount_le

theorem append_words (hf : f.Valid) (node : α → α → α) (leaf : α) :
    f.words.append node leaf = Word.answer words (f.append node leaf) := by
  rw [WordForest.append, hf.toNat_leafCount_words]
  by_cases hmax : maxLeaves ≤ f.leafCount
  · rw [Forest.append, if_pos hmax, if_pos hmax]
    rfl
  · obtain ⟨next, hnext, -, hcount⟩ := hf.exists_append node leaf (Nat.lt_of_not_le hmax)
    obtain ⟨hmerge, -⟩ := addBlock_eq_some_iff.1 (append_eq_ok_iff.1 hnext).2
    rw [Nat.div_one] at hmerge
    have hsum : Word.add f.words.leafCount 1 = .ok (UInt64.ofNat (f.leafCount + 1)) :=
      Word.add_ofNat (Nat.lt_of_not_le hmax)
    have hpeaks : f.words.peaks = f.peaks := rfl
    simp only [if_neg hmax, hpeaks, hmerge, hsum, hnext]
    rw [Word.answer, words, hcount]
    rfl

section Fill
variable (hf : f.Valid) (hremaining : remaining ≤ maxLeaves) (newLeaves : UInt64)
include hf hremaining

theorem fill_words_of_stop
    (hstop : f.leafCount = 0 ∨ remaining < 2 ^ Bits.trailingZeros f.leafCount) :
    WordForest.fill node newLeaves f.words (UInt64.ofNat remaining) subtrees =
      .ok ⟨f.words, UInt64.ofNat remaining, subtrees⟩ := by
  have hempty : f.words.leafCount = 0 ↔ f.leafCount = 0 := Word.ofNat_eq_zero_iff hf.leafCount_le
  by_cases hzero : f.leafCount = 0
  · rw [WordForest.fill.eq_def, if_pos (hempty.2 hzero)]
  · have hsize := hf.size_le hzero
    have hless := (Word.lt_ofNat_iff hremaining hsize).2 (hstop.resolve_left hzero)
    rw [WordForest.fill.eq_def, if_neg (mt hempty.1 hzero), hf.toNat_leafCount_words,
      Word.shiftLeft_one hsize, ok_bind, if_pos hless]
    rfl

variable (hgo : ¬(f.leafCount = 0 ∨ remaining < 2 ^ Bits.trailingZeros f.leafCount))
include hgo

/-- Where it does not stop, the size of the smallest peak is a word and no more than what remains. -/
theorem fill_words_of_go :
    WordForest.fill node newLeaves f.words (UInt64.ofNat remaining) subtrees =
      (match subtrees with
      | [] => .error (.refused (.tooFewSubtrees newLeaves.toNat))
      | subtree :: rest => do
        let size := UInt64.ofNat (2 ^ Bits.trailingZeros f.leafCount)
        let peaks ← WordForest.carry node f.words.leafCount size subtree f.peaks
        let leafCount ← Word.add f.words.leafCount size
        let remaining ← Word.sub (UInt64.ofNat remaining) size
        WordForest.fill node newLeaves ⟨peaks, leafCount⟩ remaining rest) := by
  have hzero : f.leafCount ≠ 0 := fun h => hgo (.inl h)
  have hsize := hf.size_le hzero
  have hempty : ¬f.words.leafCount = 0 := mt (Word.ofNat_eq_zero_iff hf.leafCount_le).1 hzero
  have hless : ¬UInt64.ofNat remaining < UInt64.ofNat (2 ^ Bits.trailingZeros f.leafCount) := by
    rw [Word.lt_ofNat_iff hremaining hsize]
    exact fun h => hgo (.inr h)
  rw [WordForest.fill.eq_def, if_neg hempty, hf.toNat_leafCount_words, Word.shiftLeft_one hsize,
    ok_bind, if_neg hless]
  cases subtrees with
  | nil => rfl
  | cons subtree rest => rfl

end Fill

theorem fill_words (hf : f.Valid) (hroom : f.leafCount + remaining ≤ maxLeaves)
    (newLeaves : UInt64) :
    WordForest.fill node newLeaves f.words (UInt64.ofNat remaining) subtrees =
      Word.answer Filling.words (fill node newLeaves.toNat f remaining subtrees) := by
  induction subtrees generalizing f remaining with
  | nil =>
    have hremaining : remaining ≤ maxLeaves := Nat.le_of_add_left_le hroom
    by_cases hstop : f.leafCount = 0 ∨ remaining < 2 ^ Bits.trailingZeros f.leafCount
    · rw [hf.fill_words_of_stop hremaining newLeaves hstop, fill_of_stop hstop]
      rfl
    · rw [hf.fill_words_of_go hremaining newLeaves hstop, fill_nil hstop]
      rfl
  | cons subtree subtrees ih =>
    have hremaining : remaining ≤ maxLeaves := Nat.le_of_add_left_le hroom
    by_cases hstop : f.leafCount = 0 ∨ remaining < 2 ^ Bits.trailingZeros f.leafCount
    · rw [hf.fill_words_of_stop hremaining newLeaves hstop, fill_of_stop hstop]
      rfl
    · have hzero : f.leafCount ≠ 0 := fun h => hstop (.inl h)
      have hfits : 2 ^ Bits.trailingZeros f.leafCount ≤ remaining :=
        Nat.le_of_not_lt fun h => hstop (.inr h)
      obtain ⟨next, hnext, hvalid, hnextRoom⟩ := hf.exists_fill_step hroom hstop subtree
      obtain ⟨hmerge, hcount⟩ := addBlock_eq_some_iff.1 hnext
      have hcarry : WordForest.carry node f.words.leafCount
          (UInt64.ofNat (2 ^ Bits.trailingZeros f.leafCount)) subtree f.peaks = .ok next.peaks := by
        apply WordForest.carry_eq node _ (hf.size_le hzero)
        · rw [hf.toNat_leafCount_words]
          have hsize := Nat.two_pow_pos (Bits.trailingZeros f.leafCount)
          omega
        · rwa [hf.toNat_leafCount_words]
      have hsum : Word.add f.words.leafCount (UInt64.ofNat (2 ^ Bits.trailingZeros f.leafCount)) =
          (.ok next.words.leafCount : Except (WordFault ProofError) UInt64) := by
        rw [words, words, hcount]
        exact Word.add_ofNat (by omega)
      have hless := Word.sub_ofNat hfits hremaining
      rw [hf.fill_words_of_go hremaining newLeaves hstop, fill_cons_of_addBlock hstop hnext,
        ← ih hvalid hnextRoom]
      simp only [hcarry, hsum, hless, ok_bind]
      rfl

end Valid

theorem settle_words {newLeaves : UInt64} {filled : Filling α}
    (hroom : filled.forest.leafCount + filled.remaining ≤ maxLeaves) :
    filled.words.settle newLeaves = Word.answer words (filled.settle newLeaves.toNat) := by
  have hremaining : filled.words.remaining.toNat = filled.remaining :=
    Word.toNat_ofNat (Nat.le_of_add_left_le hroom)
  have hsubtrees : filled.words.subtrees = filled.subtrees := rfl
  have hsum : Word.add filled.words.forest.leafCount filled.words.remaining =
      .ok (UInt64.ofNat (filled.forest.leafCount + filled.remaining)) := Word.add_ofNat hroom
  rw [WordForest.Filling.settle, Filling.settle, hremaining, hsubtrees]
  by_cases hfew : filled.subtrees.length < Bits.ones filled.remaining
  · rw [if_pos hfew, if_pos hfew]
    rfl
  · by_cases hmany : Bits.ones filled.remaining < filled.subtrees.length
    · rw [if_neg hfew, if_pos hmany, if_neg hfew, if_pos hmany]
      rfl
    · rw [if_neg hfew, if_neg hmany, if_neg hfew, if_neg hmany, hsum, ok_bind]
      rfl

/-- On words a valid forest takes the same subtrees, with the same answer. -/
theorem Valid.appendSubtrees_words (hf : f.Valid) (node : α → α → α) (subtrees : List α)
    (newLeaves : UInt64) :
    f.words.appendSubtrees node subtrees newLeaves =
      Word.answer words (f.appendSubtrees node subtrees newLeaves.toNat) := by
  have hle := hf.leafCount_le
  have hroom : Word.sub (UInt64.ofNat maxLeaves) f.words.leafCount =
      .ok (UInt64.ofNat (maxLeaves - f.leafCount)) := Word.sub_ofNat hle le_rfl
  have hless : UInt64.ofNat (maxLeaves - f.leafCount) < newLeaves ↔
      maxLeaves - f.leafCount < newLeaves.toNat := by
    rw [UInt64.lt_iff_toNat_lt, Word.toNat_ofNat (Nat.sub_le _ _)]
  rw [WordForest.appendSubtrees, Forest.appendSubtrees, hroom, ok_bind]
  by_cases hmax : maxLeaves - f.leafCount < newLeaves.toNat
  · rw [if_pos (hless.2 hmax), if_pos hmax, hf.toNat_leafCount_words]
    rfl
  · rw [if_neg (mt hless.1 hmax), if_neg hmax]
    by_cases hzero : newLeaves = 0
    · subst hzero
      rw [if_pos rfl, if_pos UInt64.toNat_zero]
      cases subtrees with
      | nil => rfl
      | cons subtree rest => rfl
    · have hpositive : newLeaves.toNat ≠ 0 := fun h => hzero (UInt64.toNat_inj.1 h)
      have htotal : f.leafCount + newLeaves.toNat ≤ maxLeaves := by omega
      have hfill : WordForest.fill node newLeaves f.words (UInt64.ofNat newLeaves.toNat) subtrees =
          Word.answer Filling.words (fill node newLeaves.toNat f newLeaves.toNat subtrees) :=
        hf.fill_words htotal newLeaves
      rw [UInt64.ofNat_toNat] at hfill
      rw [if_neg hzero, if_neg hpositive, hfill]
      cases hanswer : fill node newLeaves.toNat f newLeaves.toNat subtrees with
      | error e => rfl
      | ok filled => exact settle_words ((total_fill hanswer).trans_le htotal)
end Forest
end VerifiedLedger
