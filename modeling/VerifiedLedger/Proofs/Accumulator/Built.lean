import VerifiedLedger.Client.SavedState
import VerifiedLedger.Proofs.Client.Consistency
import VerifiedLedger.Proofs.Forest.RootRun
import VerifiedLedger.Proofs.Forest.Words
/-! # Accumulators that can be built

Every way to come by an accumulator either checks that it has one root for every one bit of its leaf
count or keeps it so. What such an accumulator is asked for it can do: no operation finds it in an
invalid state, no count leaves the words, and its root is hashed from all its subtrees.
-/
namespace VerifiedLedger.Accumulator

/-- The accumulators that some sequence of operations arrives at. -/
inductive Built : {kind : AccumulatorKind} → Accumulator kind → Prop
  | empty {kind : AccumulatorKind} : Built (empty : Accumulator kind)
  | ofSubtrees {kind : AccumulatorKind} {a : Accumulator kind} {subtrees : List Digest}
      {leafCount : ℕ} (h : ofSubtrees subtrees leafCount = .ok a) : Built a
  | ofLeaves {kind : AccumulatorKind} {a : Accumulator kind} {leaves : List Digest}
      (h : ofLeaves leaves = .ok a) : Built a
  | append {kind : AccumulatorKind} {a b : Accumulator kind} {leaf : Digest} (ha : Built a)
      (h : a.append leaf = .ok b) : Built b
  | appendSubtrees {kind : AccumulatorKind} {a b : Accumulator kind} {subtrees : List Digest}
      {newLeaves : ℕ} (ha : Built a) (h : a.appendSubtrees subtrees newLeaves = .ok b) : Built b
  | extend {a b : Accumulator .transaction} {proof : ConsistencyProof} {trusted : LedgerInfo}
      (ha : Built a) (h : proof.extend a trusted = .ok b) : Built b
  | resumed {a : Accumulator .transaction} {known : Progress} (h : known.toAccumulator = .ok a) :
      Built a
  | restored {a : Accumulator .transaction} {s : SavedState} (h : s.accumulator = .ok a) : Built a

section Valid
variable {kind : AccumulatorKind} {a b : Accumulator kind}

theorem valid_of_ofSubtrees {subtrees : List Digest} {leafCount : ℕ}
    (h : ofSubtrees subtrees leafCount = .ok a) : a.Valid := by
  simp only [ofSubtrees, ite_error_eq_ok_iff, Nat.not_lt, ne_eq, Decidable.not_not] at h
  obtain ⟨hmax, hlength, ha⟩ := h
  cases ha
  exact ⟨by rwa [List.length_reverse], hmax⟩

theorem valid_of_toAccumulator {c : Accumulator .transaction} {known : Progress}
    (h : known.toAccumulator = .ok c) : c.Valid := by
  rw [Progress.toAccumulator, ite_error_eq_ok_iff] at h
  obtain ⟨-, hrest⟩ := h
  cases hknown : Accumulator.ofSubtrees known.subtrees (known.lastVersion.toNat + 1) with
  | error e =>
    rw [hknown] at hrest
    cases hrest
  | ok d =>
    rw [hknown] at hrest
    cases hrest
    exact valid_of_ofSubtrees hknown

theorem valid_of_restore {c : Accumulator .transaction} {s : SavedState}
    (h : s.accumulator = .ok c) : c.Valid := by
  unfold SavedState.accumulator at h
  cases hversion : s.lastVersion with
  | none =>
    simp only [hversion] at h
    split at h
    · cases h
      exact Forest.valid_empty
    · cases h
  | some version =>
    rw [hversion] at h
    exact valid_of_toAccumulator h

theorem Built.valid (h : Built a) : a.Valid := by
  induction h with
  | empty => exact Forest.valid_empty
  | ofSubtrees h => exact valid_of_ofSubtrees h
  | ofLeaves h => exact Forest.valid_empty.appendAll (ofLeaves_eq_ok_iff.1 h)
  | append _ h ih => exact ih.append (mk_map_eq_ok_iff.1 h)
  | appendSubtrees _ h ih => exact (ih.appendSubtrees (appendSubtrees_eq_ok_iff.1 h)).1
  | extend _ h ih =>
    obtain ⟨-, -, happend, -⟩ := ConsistencyProof.extend_eq_ok_iff.1 h
    exact (ih.appendSubtrees (appendSubtrees_eq_ok_iff.1 happend)).1
  | resumed h => exact valid_of_toAccumulator h
  | restored h => exact valid_of_restore h

end Valid

section Words
variable {kind : AccumulatorKind} {a : Accumulator kind}

/-- An accumulator with its leaf count in a word. -/
def words (a : Accumulator kind) : WordForest Digest := a.toForest.words

theorem mk_map_ne_invalidState {x : Except ProofError (Forest Digest)} {cause : InvalidState}
    (h : x ≠ .error (.invalidState cause)) :
    (Accumulator.mk <$> x : Except ProofError (Accumulator kind)) ≠
      .error (.invalidState cause) := by
  cases x with
  | error e => exact fun hmk => h (congrArg Except.error (Except.error.inj hmk))
  | ok f => exact fun hmk => nomatch hmk

theorem answer_mk_map (x : Except ProofError (Forest Digest)) :
    Word.answer words (Accumulator.mk <$> x : Except ProofError (Accumulator kind)) =
      Word.answer Forest.words x := by
  cases x with
  | error e => rfl
  | ok f => rfl

theorem append_words (h : a.Valid) (leaf : Digest) :
    a.words.append kind.node leaf = Word.answer words (a.append leaf) := by
  rw [append, answer_mk_map]
  exact h.append_words kind.node leaf

theorem appendSubtrees_words (h : a.Valid) (subtrees : List Digest) (newLeaves : UInt64) :
    a.words.appendSubtrees kind.node subtrees newLeaves =
      Word.answer words (a.appendSubtrees subtrees newLeaves.toNat) := by
  rw [appendSubtrees, answer_mk_map]
  exact h.appendSubtrees_words kind.node subtrees newLeaves

end Words

/-- What holds of an accumulator, however it is used next. -/
structure Sound {kind : AccumulatorKind} (a : Accumulator kind) : Prop where
  leafCount_le : a.leafCount ≤ 2 ^ 63
  length_subtrees : a.subtrees.length = Bits.ones a.leafCount
  append_ne (leaf : Digest) (cause : InvalidState) :
    a.append leaf ≠ .error (.invalidState cause)
  appendSubtrees_ne (subtrees : List Digest) (newLeaves : ℕ) (cause : InvalidState) :
    a.appendSubtrees subtrees newLeaves ≠ .error (.invalidState cause)
  /-- On words a leaf is appended with the same answer: no value on the way leaves the words. -/
  append_words (leaf : Digest) :
    a.words.append kind.node leaf = Word.answer words (a.append leaf)
  appendSubtrees_words (subtrees : List Digest) (newLeaves : UInt64) :
    a.words.appendSubtrees kind.node subtrees newLeaves =
      Word.answer words (a.appendSubtrees subtrees newLeaves.toNat)
  /-- The root is hashed from the subtrees, each of them once and from left to right. -/
  root_leaves : (a.given.root .node .placeholder).leaves = a.subtrees
  root_value : (a.given.root .node .placeholder).value kind.node .accumulatorPlaceholder = a.root
  /-- Where there is a loop to the root, it gets through to the last bit. -/
  root_run (htwo : 2 ≤ a.subtrees.length) :
    Forest.FoldsUp kind.node .accumulatorPlaceholder (a.leafCount >>> Bits.trailingZeros a.leafCount)
      a.peaks .accumulatorPlaceholder a.root

/-- However an accumulator was built, what is asked of it next never meets an invalid state. -/
theorem sound_of_built {kind : AccumulatorKind} {a : Accumulator kind} (h : Built a) :
    Sound a := by
  have hvalid := h.valid
  have hsubtrees : a.subtrees.length = a.peaks.length := List.length_reverse
  refine ⟨?_, hsubtrees.trans hvalid.length_peaks, ?_, ?_, append_words hvalid,
    appendSubtrees_words hvalid, ?_, ?_, ?_⟩
  · rw [← Nat.one_shiftLeft]
    exact hvalid.leafCount_le
  · intro leaf cause
    exact mk_map_ne_invalidState (hvalid.append_ne_invalidState kind.node leaf cause)
  · intro subtrees newLeaves cause
    exact mk_map_ne_invalidState
      (hvalid.appendSubtrees_ne_invalidState kind.node subtrees newLeaves cause)
  · rw [Forest.leaves_root hvalid.given.length_peaks, Forest.givens_given]
    rfl
  · exact Forest.value_root (Forest.related_given a.toForest)
  · intro htwo
    exact Forest.foldsUp_root hvalid.length_peaks (hsubtrees ▸ htwo)

/-- As many leaves as there can be, all in one subtree. -/
def full : Accumulator .event := ⟨⟨[.zero], 2 ^ 63⟩⟩

theorem sound_of_built_full : Built full ∧ Sound full := by
  have hfull : ofSubtrees [.zero] (2 ^ 63) = .ok full := by decide +kernel
  exact ⟨.ofSubtrees hfull, sound_of_built (.ofSubtrees hfull)⟩

end VerifiedLedger.Accumulator
