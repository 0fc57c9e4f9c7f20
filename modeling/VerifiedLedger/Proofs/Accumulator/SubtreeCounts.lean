import VerifiedLedger.Proofs.Accumulator.Built
import VerifiedLedger.Proofs.Tree.MaximalBlocks
/-! # How many subtrees are taken

New leaves form one subtree for every maximal block that they cover. As many subtrees are taken,
some to fill peaks up and the others as peaks; with fewer the first phase or the second one runs out,
and those that are left over are counted. The operation works on a copy and writes it back when
nothing can fail any more.
-/
namespace VerifiedLedger

namespace Forest
variable {α : Type} {node : α → α → α} {f : Forest α} {newLeaves remaining : ℕ} {subtrees : List α}

theorem length_tiles_of_stop
    (h : f.leafCount = 0 ∨ remaining < 2 ^ Bits.trailingZeros f.leafCount) :
    (tiles f.leafCount remaining).length = Bits.ones remaining := by
  rcases h with hzero | hless
  · exact length_tiles_of_lt (hzero ▸ Nat.dvd_zero (2 ^ remaining)) Nat.lt_two_pow_self
  · exact length_tiles_of_lt (Bits.two_pow_trailingZeros_dvd f.leafCount) hless

/-- A subtree that fills the smallest peak up is the first tile. -/
theorem length_tiles_of_go
    (h : ¬(f.leafCount = 0 ∨ remaining < 2 ^ Bits.trailingZeros f.leafCount)) :
    (tiles f.leafCount remaining).length =
      (tiles (f.leafCount + 2 ^ Bits.trailingZeros f.leafCount)
        (remaining - 2 ^ Bits.trailingZeros f.leafCount)).length + 1 := by
  rw [not_or, Nat.not_lt] at h
  have hpos : 0 < remaining := (Nat.two_pow_pos _).trans_le h.2
  rw [tiles_of_pos hpos, List.length_cons, tileLevel_eq_trailingZeros h.1 h.2]

namespace Valid

/-- The first phase takes as many subtrees as it takes tiles off. -/
theorem length_fill {filled : Filling α} (hf : f.Valid)
    (hroom : f.leafCount + remaining ≤ maxLeaves)
    (h : fill node newLeaves f remaining subtrees = .ok filled) :
    filled.subtrees.length + (tiles f.leafCount remaining).length =
      subtrees.length + Bits.ones filled.remaining := by
  induction subtrees generalizing f remaining with
  | nil =>
    by_cases hstop : f.leafCount = 0 ∨ remaining < 2 ^ Bits.trailingZeros f.leafCount
    · rw [fill_of_stop hstop] at h
      cases h
      rw [length_tiles_of_stop hstop]
    · exact absurd h (fill_nil_ne_ok hstop)
  | cons subtree subtrees ih =>
    by_cases hstop : f.leafCount = 0 ∨ remaining < 2 ^ Bits.trailingZeros f.leafCount
    · rw [fill_of_stop hstop] at h
      cases h
      rw [length_tiles_of_stop hstop]
    · obtain ⟨next, hnext, hvalid, hnextRoom⟩ := hf.exists_fill_step hroom hstop subtree
      rw [fill_cons_of_addBlock hstop hnext] at h
      have hrest := ih hvalid hnextRoom h
      rw [(addBlock_eq_some_iff.1 hnext).2] at hrest
      rw [length_tiles_of_go hstop, List.length_cons]
      omega

/-- If the first phase lacks a subtree, there are fewer of them than tiles. -/
theorem length_lt_of_fill {e : ProofError} (hf : f.Valid)
    (hroom : f.leafCount + remaining ≤ maxLeaves)
    (h : fill node newLeaves f remaining subtrees = .error e) :
    subtrees.length < (tiles f.leafCount remaining).length := by
  induction subtrees generalizing f remaining with
  | nil =>
    by_cases hstop : f.leafCount = 0 ∨ remaining < 2 ^ Bits.trailingZeros f.leafCount
    · rw [fill_of_stop hstop] at h
      cases h
    · rw [length_tiles_of_go hstop]
      exact Nat.succ_pos _
  | cons subtree subtrees ih =>
    by_cases hstop : f.leafCount = 0 ∨ remaining < 2 ^ Bits.trailingZeros f.leafCount
    · rw [fill_of_stop hstop] at h
      cases h
    · obtain ⟨next, hnext, hvalid, hnextRoom⟩ := hf.exists_fill_step hroom hstop subtree
      rw [fill_cons_of_addBlock hstop hnext] at h
      have hrest := ih hvalid hnextRoom h
      rw [(addBlock_eq_some_iff.1 hnext).2] at hrest
      rw [length_tiles_of_go hstop, List.length_cons]
      exact Nat.succ_lt_succ hrest

end Valid

theorem appendSubtrees_of_tooManyLeaves (h : maxLeaves - f.leafCount < newLeaves) :
    f.appendSubtrees node subtrees newLeaves =
      .error (.tooManyLeaves f.leafCount newLeaves maxLeaves) := if_pos h

/-- What an operation on counts alone would answer, where there is room for the new leaves. -/
theorem Valid.appendSubtrees_answer (node : α → α → α) (subtrees : List α) (hf : f.Valid)
    (hroom : newLeaves ≤ maxLeaves - f.leafCount) :
    (subtrees.length = (tiles f.leafCount newLeaves).length ∧
        ∃ g, f.appendSubtrees node subtrees newLeaves = .ok g) ∨
      (subtrees.length < (tiles f.leafCount newLeaves).length ∧
        f.appendSubtrees node subtrees newLeaves = .error (.tooFewSubtrees newLeaves)) ∨
      (tiles f.leafCount newLeaves).length < subtrees.length ∧
        f.appendSubtrees node subtrees newLeaves = .error (.tooManySubtrees newLeaves
          (subtrees.length - (tiles f.leafCount newLeaves).length)) := by
  have hle := hf.leafCount_le
  rw [Forest.appendSubtrees, if_neg (Nat.not_lt.2 hroom)]
  by_cases hzero : newLeaves = 0
  · subst hzero
    rw [if_pos rfl, tiles_zero]
    cases subtrees with
    | nil => exact .inl ⟨rfl, f, rfl⟩
    | cons subtree rest => exact .inr (.inr ⟨Nat.succ_pos _, rfl⟩)
  · rw [if_neg hzero]
    cases hfill : fill node newLeaves f newLeaves subtrees with
    | error e =>
      have hless := hf.length_lt_of_fill (by omega) hfill
      rw [hf.eq_tooFewSubtrees_of_fill (by omega) hfill]
      exact .inr (.inl ⟨hless, rfl⟩)
    | ok filled =>
      have hlength := hf.length_fill (by omega) hfill
      rw [ok_bind, Filling.settle]
      rcases Nat.lt_trichotomy filled.subtrees.length (Bits.ones filled.remaining) with
        hfew | hequal | hmany
      · rw [if_pos hfew]
        exact .inr (.inl ⟨by omega, rfl⟩)
      · rw [if_neg hequal.not_lt, if_neg hequal.not_gt]
        exact .inl ⟨by omega, _, rfl⟩
      · rw [if_neg hmany.not_gt, if_pos hmany,
          show filled.subtrees.length - Bits.ones filled.remaining =
            subtrees.length - (tiles f.leafCount newLeaves).length by omega]
        exact .inr (.inr ⟨by omega, rfl⟩)

end Forest

namespace Accumulator
variable {kind : AccumulatorKind} {a b : Accumulator kind}

/-- Writes go to the accumulator itself and stay there when a later check fails. -/
abbrev InPlace (kind : AccumulatorKind) (α : Type) : Type :=
  ExceptT ProofError (StateM (Accumulator kind)) α

namespace InPlace

/-- The operation write by write: peaks and leaf count are written one after the other. -/
def appendSubtrees (subtrees : List Digest) (newLeaves : ℕ) : InPlace kind Unit := do
  let a ← get
  if Forest.maxLeaves - a.leafCount < newLeaves then
    throw (.tooManyLeaves a.leafCount newLeaves Forest.maxLeaves)
  else if newLeaves = 0 then
    if subtrees.isEmpty then return () else throw (.tooManySubtrees 0 subtrees.length)
  else
    let copy ← ExceptT.mk (pure (Forest.fill kind.node newLeaves a.toForest newLeaves subtrees))
    let needed := Bits.ones copy.remaining
    if copy.subtrees.length < needed then throw (.tooFewSubtrees newLeaves)
    else if needed < copy.subtrees.length then
      throw (.tooManySubtrees newLeaves (copy.subtrees.length - needed))
    else
      modify fun a => { a with peaks := copy.subtrees.reverse ++ copy.forest.peaks }
      modify fun a => { a with leafCount := copy.forest.leafCount + copy.remaining }

/-- What it answers on an accumulator, and the accumulator that it leaves. -/
def runOn {α : Type} (x : InPlace kind α) (a : Accumulator kind) :
    Except ProofError α × Accumulator kind :=
  x.run.run a

theorem runOn_get_bind {β : Type} (a : Accumulator kind)
    (f : Accumulator kind → InPlace kind β) : runOn (get >>= f) a = runOn (f a) a := rfl

theorem runOn_ok_bind {α β : Type} (a : Accumulator kind) (x : α) (f : α → InPlace kind β) :
    runOn (ExceptT.mk (pure (.ok x)) >>= f) a = runOn (f x) a := rfl

/-- Nothing is written before the last check has passed. -/
theorem runOn_appendSubtrees (a : Accumulator kind) (subtrees : List Digest) (newLeaves : ℕ) :
    runOn (appendSubtrees subtrees newLeaves) a =
      match a.appendSubtrees subtrees newLeaves with
      | .ok b => (.ok (), b)
      | .error e => (.error e, a) := by
  rw [appendSubtrees, Accumulator.appendSubtrees, Forest.appendSubtrees, runOn_get_bind]
  by_cases hmany : Forest.maxLeaves - a.leafCount < newLeaves
  · rw [if_pos hmany, if_pos hmany]
    rfl
  rw [if_neg hmany, if_neg hmany]
  by_cases hzero : newLeaves = 0
  · rw [if_pos hzero, if_pos hzero]
    cases subtrees with
    | nil => rfl
    | cons subtree rest => rfl
  rw [if_neg hzero, if_neg hzero]
  cases Forest.fill kind.node newLeaves a.toForest newLeaves subtrees with
  | error e => rfl
  | ok filled =>
    rw [runOn_ok_bind, ok_bind, Forest.Filling.settle]
    by_cases hfew : filled.subtrees.length < Bits.ones filled.remaining
    · rw [if_pos hfew, if_pos hfew]
      rfl
    by_cases hleft : Bits.ones filled.remaining < filled.subtrees.length
    · rw [if_neg hfew, if_neg hfew, if_pos hleft, if_pos hleft]
      rfl
    · rw [if_neg hfew, if_neg hfew, if_neg hleft, if_neg hleft]
      rfl

end InPlace

/-- What counts alone decide of appending subtrees, whatever the subtrees are. -/
structure CountsDecide (a : Accumulator kind) (subtrees : List Digest) (newLeaves : ℕ) : Prop where
  tooManyLeaves (h : 2 ^ 63 - a.leafCount < newLeaves) :
    a.appendSubtrees subtrees newLeaves =
      .error (.tooManyLeaves a.leafCount newLeaves (2 ^ 63))
  accepted_iff (hroom : newLeaves ≤ 2 ^ 63 - a.leafCount) :
    (∃ b, a.appendSubtrees subtrees newLeaves = .ok b) ↔
      subtrees.length = blockCount a.leafCount newLeaves
  tooFew (hroom : newLeaves ≤ 2 ^ 63 - a.leafCount)
    (h : subtrees.length < blockCount a.leafCount newLeaves) :
    a.appendSubtrees subtrees newLeaves = .error (.tooFewSubtrees newLeaves)
  tooMany (hroom : newLeaves ≤ 2 ^ 63 - a.leafCount)
    (h : blockCount a.leafCount newLeaves < subtrees.length) :
    a.appendSubtrees subtrees newLeaves =
      .error (.tooManySubtrees newLeaves (subtrees.length - blockCount a.leafCount newLeaves))
  unchanged (e : ProofError) (h : a.appendSubtrees subtrees newLeaves = .error e) :
    (InPlace.appendSubtrees subtrees newLeaves).runOn a = (.error e, a)
  grown (b : Accumulator kind) (h : a.appendSubtrees subtrees newLeaves = .ok b) :
    (InPlace.appendSubtrees subtrees newLeaves).runOn a = (.ok (), b) ∧
      b.leafCount = a.leafCount + newLeaves ∧
      b.subtrees.length = Bits.ones (a.leafCount + newLeaves)

theorem appendSubtrees_eq_error_of {subtrees : List Digest} {newLeaves : ℕ} {e : ProofError}
    (h : a.toForest.appendSubtrees kind.node subtrees newLeaves = .error e) :
    a.appendSubtrees subtrees newLeaves = .error e := by
  rw [appendSubtrees, h]
  rfl

theorem appendSubtrees_answer {newLeaves : ℕ} (subtrees : List Digest) (ha : a.Valid)
    (hroom : newLeaves ≤ 2 ^ 63 - a.leafCount) :
    (subtrees.length = blockCount a.leafCount newLeaves ∧
        ∃ b, a.appendSubtrees subtrees newLeaves = .ok b) ∨
      (subtrees.length < blockCount a.leafCount newLeaves ∧
        a.appendSubtrees subtrees newLeaves = .error (.tooFewSubtrees newLeaves)) ∨
      blockCount a.leafCount newLeaves < subtrees.length ∧
        a.appendSubtrees subtrees newLeaves = .error (.tooManySubtrees newLeaves
          (subtrees.length - blockCount a.leafCount newLeaves)) := by
  rw [← Nat.one_shiftLeft] at hroom
  rw [blockCount_eq]
  rcases Forest.Valid.appendSubtrees_answer kind.node subtrees ha hroom with
    ⟨hequal, f, hf⟩ | ⟨hfew, herror⟩ | ⟨hmany, herror⟩
  · exact .inl ⟨hequal, ⟨f⟩, appendSubtrees_eq_ok_iff.2 hf⟩
  · exact .inr (.inl ⟨hfew, appendSubtrees_eq_error_of herror⟩)
  · exact .inr (.inr ⟨hmany, appendSubtrees_eq_error_of herror⟩)

/-- However an accumulator was built, it takes as many subtrees as the new leaves make maximal
blocks, and with any other number it stays as it was. -/
theorem countsDecide_of_built (ha : Built a) (subtrees : List Digest) (newLeaves : ℕ) :
    CountsDecide a subtrees newLeaves := by
  have hvalid := ha.valid
  have hwritten := InPlace.runOn_appendSubtrees a subtrees newLeaves
  constructor
  · intro h
    rw [← Nat.one_shiftLeft] at h ⊢
    exact appendSubtrees_eq_error_of (Forest.appendSubtrees_of_tooManyLeaves h)
  · intro hroom
    rcases appendSubtrees_answer subtrees hvalid hroom with
      ⟨hequal, hok⟩ | ⟨hfew, herror⟩ | ⟨hmany, herror⟩
    · exact ⟨fun _ => hequal, fun _ => hok⟩
    · simp [herror, hfew.ne]
    · simp [herror, hmany.ne']
  · intro hroom h
    rcases appendSubtrees_answer subtrees hvalid hroom with
      ⟨hequal, -⟩ | ⟨-, herror⟩ | ⟨hmany, -⟩
    · exact absurd hequal h.ne
    · exact herror
    · exact absurd hmany h.not_gt
  · intro hroom h
    rcases appendSubtrees_answer subtrees hvalid hroom with
      ⟨hequal, -⟩ | ⟨hfew, -⟩ | ⟨-, herror⟩
    · exact absurd hequal h.ne'
    · exact absurd hfew h.not_gt
    · exact herror
  · intro e he
    rw [hwritten, he]
  · intro b hb
    obtain ⟨hgrown, hcount⟩ := hvalid.appendSubtrees (appendSubtrees_eq_ok_iff.1 hb)
    refine ⟨?_, hcount, ?_⟩
    · rw [hwritten, hb]
    · rw [← hcount]
      exact List.length_reverse.trans hgrown.length_peaks

/-- Four leaves in one subtree and a fifth one. -/
def five : Accumulator .event := ⟨⟨[.zero, .accumulatorPlaceholder], 5⟩⟩

/-- Six leaves more are a leaf and a pair that fill eight up, then a pair and a leaf: with three
subtrees the last of them is missing. -/
theorem countsDecide_of_built_five :
    Built five ∧ CountsDecide five [.zero, .zero, .zero] 6 ∧
      five.appendSubtrees [.zero, .zero, .zero] 6 = .error (.tooFewSubtrees 6) := by
  have hfive : ofSubtrees [.accumulatorPlaceholder, .zero] 5 = .ok five := by decide +kernel
  have hdecide := countsDecide_of_built (.ofSubtrees hfive) [.zero, .zero, .zero] 6
  have hcount : blockCount 5 6 = 4 := by
    rw [blockCount_eq]
    decide +kernel
  refine ⟨.ofSubtrees hfive, hdecide, hdecide.tooFew (by decide) ?_⟩
  rw [show five.leafCount = 5 from rfl, hcount]
  decide

end Accumulator
end VerifiedLedger
