import VerifiedLedger.Accumulator.Forest
import VerifiedLedger.Proofs.Bits
import VerifiedLedger.Proofs.Checks
/-! # What each operation on a forest can do

For every operation the exact condition under which it succeeds, with its result. Later proofs take
an operation apart by these statements and do not look at its checks again.
-/
namespace VerifiedLedger.Forest
variable {α : Type} {node : α → α → α} {f g : Forest α}

theorem addBlock_eq_some_iff {size : ℕ} {block : α} :
    f.addBlock node size block = some g ↔
      merge node (Bits.trailingOnes (f.leafCount / size)) block f.peaks = some g.peaks ∧
        g.leafCount = f.leafCount + size := by
  unfold addBlock
  cases hm : merge node (Bits.trailingOnes (f.leafCount / size)) block f.peaks with
  | none => simp
  | some peaks =>
    constructor
    · intro h
      cases h
      exact ⟨rfl, rfl⟩
    · rintro ⟨hp, hc⟩
      cases g
      cases hp
      cases hc
      rfl

theorem append_eq_ok_iff {leaf : α} :
    f.append node leaf = .ok g ↔
      f.leafCount < maxLeaves ∧ f.addBlock node 1 leaf = some g := by
  unfold append
  by_cases hmax : maxLeaves ≤ f.leafCount
  · simp [hmax, Nat.not_lt_of_le hmax]
  · cases h : f.addBlock node 1 leaf with
    | none => simp [hmax]
    | some next => simp [hmax, Nat.lt_of_not_le hmax]

@[simp] theorem appendAll_nil : f.appendAll node [] = .ok f := rfl

theorem appendAll_cons_eq_ok_iff {leaf : α} {leaves : List α} :
    f.appendAll node (leaf :: leaves) = .ok g ↔
      ∃ next, f.append node leaf = .ok next ∧ next.appendAll node leaves = .ok g := by
  rw [appendAll, bind_eq_ok_iff]

theorem length_le_of_appendAll {leaves : List α} (hf : f.leafCount ≤ maxLeaves)
    (h : f.appendAll node leaves = .ok g) : f.leafCount + leaves.length ≤ maxLeaves := by
  induction leaves generalizing f with
  | nil => exact hf
  | cons leaf leaves ih =>
    obtain ⟨next, hnext, hrest⟩ := appendAll_cons_eq_ok_iff.1 h
    obtain ⟨hmax, hadd⟩ := append_eq_ok_iff.1 hnext
    have hcount := (addBlock_eq_some_iff.1 hadd).2
    have hle := ih (hcount ▸ hmax) hrest
    rw [List.length_cons]
    omega

theorem fill_of_stop {newLeaves remaining : ℕ} {subtrees : List α}
    (h : f.leafCount = 0 ∨ remaining < 2 ^ Bits.trailingZeros f.leafCount) :
    fill node newLeaves f remaining subtrees = .ok ⟨f, remaining, subtrees⟩ := by
  rw [fill.eq_def]
  simp only [Nat.one_shiftLeft, if_pos h]

theorem fill_cons_eq_ok_iff {newLeaves remaining : ℕ} {subtree : α} {subtrees : List α}
    {filled : Filling α}
    (h : ¬(f.leafCount = 0 ∨ remaining < 2 ^ Bits.trailingZeros f.leafCount)) :
    fill node newLeaves f remaining (subtree :: subtrees) = .ok filled ↔
      ∃ next, f.addBlock node (2 ^ Bits.trailingZeros f.leafCount) subtree = some next ∧
        fill node newLeaves next (remaining - 2 ^ Bits.trailingZeros f.leafCount) subtrees =
          .ok filled := by
  rw [fill]
  simp only [Nat.one_shiftLeft, if_neg h]
  cases hb : f.addBlock node (2 ^ Bits.trailingZeros f.leafCount) subtree with
  | none => simp
  | some next => simp

theorem fill_nil {newLeaves remaining : ℕ}
    (h : ¬(f.leafCount = 0 ∨ remaining < 2 ^ Bits.trailingZeros f.leafCount)) :
    fill node newLeaves f remaining [] = .error (.tooFewSubtrees newLeaves) := by
  rw [fill]
  simp only [Nat.one_shiftLeft, if_neg h]

theorem fill_nil_ne_ok {newLeaves remaining : ℕ} {filled : Filling α}
    (h : ¬(f.leafCount = 0 ∨ remaining < 2 ^ Bits.trailingZeros f.leafCount)) :
    fill node newLeaves f remaining [] ≠ .ok filled := by
  rw [fill_nil h]
  exact fun he => nomatch he

theorem fill_cons_of_addBlock {newLeaves remaining : ℕ} {subtree : α} {subtrees : List α}
    (h : ¬(f.leafCount = 0 ∨ remaining < 2 ^ Bits.trailingZeros f.leafCount))
    (hb : f.addBlock node (2 ^ Bits.trailingZeros f.leafCount) subtree = some g) :
    fill node newLeaves f remaining (subtree :: subtrees) =
      fill node newLeaves g (remaining - 2 ^ Bits.trailingZeros f.leafCount) subtrees := by
  rw [fill]
  simp only [Nat.one_shiftLeft, if_neg h, hb]

theorem settle_eq_ok_iff {newLeaves : ℕ} {filled : Filling α} :
    filled.settle newLeaves = .ok g ↔
      filled.subtrees.length = Bits.ones filled.remaining ∧
        g = ⟨filled.subtrees.reverse ++ filled.forest.peaks,
          filled.forest.leafCount + filled.remaining⟩ := by
  unfold Filling.settle
  by_cases hfew : filled.subtrees.length < Bits.ones filled.remaining
  · simp only [if_pos hfew]
    constructor
    · intro h
      cases h
    · rintro ⟨h, -⟩
      omega
  · by_cases hmany : Bits.ones filled.remaining < filled.subtrees.length
    · simp only [if_neg hfew, if_pos hmany]
      constructor
      · intro h
        cases h
      · rintro ⟨h, -⟩
        omega
    · simp only [if_neg hfew, if_neg hmany, Except.ok.injEq]
      constructor
      · rintro rfl
        exact ⟨by omega, rfl⟩
      · rintro ⟨-, rfl⟩
        rfl

/-- Appending nothing is no case of its own: `fill` stops at once and nothing is left to settle. -/
theorem appendSubtrees_eq_ok_iff {subtrees : List α} {newLeaves : ℕ} :
    f.appendSubtrees node subtrees newLeaves = .ok g ↔
      newLeaves ≤ maxLeaves - f.leafCount ∧
        ∃ filled, fill node newLeaves f newLeaves subtrees = .ok filled ∧
          filled.settle newLeaves = .ok g := by
  unfold appendSubtrees
  rw [ite_error_eq_ok_iff, Nat.not_lt]
  refine and_congr_right fun _ => ?_
  by_cases hzero : newLeaves = 0
  · subst hzero
    rw [if_pos rfl, fill_of_stop (Or.inr (Nat.two_pow_pos _))]
    simp only [Except.ok.injEq, exists_eq_left', settle_eq_ok_iff, Bits.ones_zero]
    cases subtrees with
    | nil => simpa using eq_comm
    | cons s rest => simp
  · rw [if_neg hzero, bind_eq_ok_iff]

variable {placeholder current : α} {peaks : List α} {bitmap : ℕ}

@[simp] theorem foldPeaks_zero : foldPeaks node placeholder 0 peaks current = current := by
  rw [foldPeaks.eq_def, if_pos rfl]

theorem foldPeaks_nil (ho : bitmap % 2 = 1) :
    foldPeaks node placeholder bitmap [] current = current := by
  rw [foldPeaks.eq_def, if_neg (by omega), if_pos ho]

theorem foldPeaks_cons (ho : bitmap % 2 = 1) (peak : α) :
    foldPeaks node placeholder bitmap (peak :: peaks) current =
      foldPeaks node placeholder (bitmap / 2) peaks (node peak current) := by
  rw [foldPeaks.eq_def, if_neg (by omega), if_pos ho]

theorem foldPeaks_even (h : bitmap ≠ 0) (he : ¬bitmap % 2 = 1) :
    foldPeaks node placeholder bitmap peaks current =
      foldPeaks node placeholder (bitmap / 2) peaks (node current placeholder) := by
  rw [foldPeaks.eq_def, if_neg h, if_neg he]

end VerifiedLedger.Forest
