import VerifiedLedger.Proofs.Forest.Terms
import VerifiedLedger.Proofs.Forest.Valid
/-! # What an extension binds

An extension is run again on terms, with the old peaks and the new subtrees given. Counts alone
decide the shape of the outcome, so that two extensions by equally many leaves with one root took
the same peaks and the same subtrees, unless pairs that they join collide.
-/
namespace VerifiedLedger.Forest
open HashTree (SameShape KeepsApart)
variable {α : Type} {node : α → α → α} {empty : α} {f f' g : Forest α}
  {t t' : Forest (HashTree α)} {subtrees subtrees' : List α} {newLeaves : ℕ}

/-- The forest after an extension, in terms of the old peaks and the new subtrees. -/
def growth (f : Forest α) (subtrees : List α) (newLeaves : ℕ) :
    Except ProofError (Forest (HashTree α)) :=
  f.given.appendSubtrees .node (subtrees.map .given) newLeaves

/-- The term of the root, a placeholder where there is no forest. -/
def rootTerm : Except ProofError (Forest (HashTree α)) → HashTree α
  | .ok t => t.root .node .placeholder
  | .error _ => .placeholder

theorem exists_growth (node : α → α → α) (empty : α)
    (h : f.appendSubtrees node subtrees newLeaves = .ok g) :
    ∃ t, f.growth subtrees newLeaves = .ok t ∧
      Related (fun a s => HashTree.value node empty s = a) g t :=
  appendSubtrees_related joins_value (related_given f) (forall₂_value_given subtrees) h

theorem value_root (h : Related (fun a s => HashTree.value node empty s = a) g t) :
    (t.root .node .placeholder).value node empty = g.root node empty :=
  root_related joins_value rfl h

theorem value_peaks (h : Related (fun a s => HashTree.value node empty s = a) g t) :
    t.peaks.map (HashTree.value node empty) = g.peaks := by
  have hp : List.Forall₂ (fun a b => b = a) g.peaks (t.peaks.map (HashTree.value node empty)) :=
    List.forall₂_map_right_iff.2 h.peaks
  exact List.forall₂_eq_eq_eq ▸ hp.flip

theorem Valid.given (hf : f.Valid) : f.given.Valid :=
  ⟨List.length_map _ |>.trans hf.length_peaks, hf.leafCount_le⟩

theorem Valid.growth (hf : f.Valid) (h : f.growth subtrees newLeaves = .ok t) :
    t.Valid ∧ t.leafCount = f.leafCount + newLeaves :=
  Valid.appendSubtrees hf.given h

theorem givens_growth (h : f.growth subtrees newLeaves = .ok t) :
    t.givens = f.peaks.reverse ++ subtrees := by
  rw [givens_appendSubtrees h, givens_given, flatMap_leaves_given]

section Equal
variable (hf : f.Valid) (hf' : f'.Valid) (hc : f.leafCount = f'.leafCount)
  (h : f.growth subtrees newLeaves = .ok t) (h' : f'.growth subtrees' newLeaves = .ok t')
include hf hf' hc h h'

theorem growth_sameShape : Related SameShape t t' := by
  have hp : f.peaks.length = f'.peaks.length := by
    rw [hf.length_peaks, hf'.length_peaks, hc]
  have hs : subtrees.length = subtrees'.length := by
    have hgiven : f.given.leafCount = f'.given.leafCount := hc
    simpa using appendSubtrees_length_eq hgiven h h'
  obtain ⟨t'', ht'', hr⟩ := appendSubtrees_related joins_sameShape
    (⟨forall₂_sameShape_given hp, hc⟩ : Related SameShape f.given f'.given)
    (forall₂_sameShape_given hs) h
  cases Except.ok.inj (ht''.symm.trans h')
  exact hr

theorem eq_of_givens_eq (hg : t.givens = t'.givens) : f = f' ∧ subtrees = subtrees' := by
  rw [givens_growth h, givens_growth h'] at hg
  have hp : f.peaks.reverse.length = f'.peaks.reverse.length := by
    rw [List.length_reverse, List.length_reverse, hf.length_peaks, hf'.length_peaks, hc]
  obtain ⟨hpeaks, hsubtrees⟩ := List.append_inj hg hp
  refine ⟨?_, hsubtrees⟩
  cases f
  cases f'
  cases List.reverse_injective hpeaks
  cases hc
  rfl

/-- The root binds the old peaks and the subtrees. -/
theorem eq_of_root_eq
    (hapart : KeepsApart node ((t.root .node .placeholder).pairs node empty)
      ((t'.root .node .placeholder).pairs node empty))
    (hroot : (t.root .node .placeholder).value node empty =
      (t'.root .node .placeholder).value node empty) :
    f = f' ∧ subtrees = subtrees' := by
  have hshape : SameShape (t.root .node .placeholder) (t'.root .node .placeholder) :=
    root_related joins_sameShape trivial (growth_sameShape hf hf' hc h h')
  have hterm := HashTree.eq_of_value_eq hshape hapart hroot
  refine eq_of_givens_eq hf hf' hc h h' ?_
  rw [← leaves_root (hf.growth h).1.length_peaks, ← leaves_root (hf'.growth h').1.length_peaks,
    hterm]

/-- So do the new peaks by themselves. -/
theorem eq_of_peaks_eq (hapart : KeepsApart node (t.joined node empty) (t'.joined node empty))
    (hpeaks : t.peaks.map (HashTree.value node empty) =
      t'.peaks.map (HashTree.value node empty)) :
    f = f' ∧ subtrees = subtrees' := by
  have hshape := (growth_sameShape hf hf' hc h h').peaks
  have hterms := HashTree.eq_of_map_value_eq hshape hapart hpeaks
  refine eq_of_givens_eq hf hf' hc h h' ?_
  rw [givens, hterms, ← givens]

end Equal

end VerifiedLedger.Forest
