import VerifiedLedger.Proofs.Forest.Related
import VerifiedLedger.Proofs.Forest.RootRun
import VerifiedLedger.Proofs.Tree.HashTree
/-! # Forests of terms

Run on terms, an operation says which nodes it hashes. It keeps what is given in its order, appends
to it and loses none of the hashes made before; and the shape of the result depends on counts and
lengths alone.
-/
namespace VerifiedLedger.Forest
open HashTree (SameShape)
variable {α : Type} {node : α → α → α} {empty : α} {f g : Forest (HashTree α)}

/-- What is given, from left to right. -/
def givens (f : Forest (HashTree α)) : List α := f.peaks.reverse.flatMap HashTree.leaves

/-- The pairs of nodes joined in the peaks. -/
def joined (node : α → α → α) (empty : α) (f : Forest (HashTree α)) : List (α × α) :=
  f.peaks.flatMap (HashTree.pairs node empty)

/-- The forest with its own peaks given. -/
def given (f : Forest α) : Forest (HashTree α) := ⟨f.peaks.map .given, f.leafCount⟩

section Leaves

theorem merge_leaves {count : ℕ} {current : HashTree α} {peaks merged : List (HashTree α)}
    (h : merge .node count current peaks = some merged) :
    merged.reverse.flatMap HashTree.leaves =
      peaks.reverse.flatMap HashTree.leaves ++ current.leaves := by
  induction count generalizing current peaks with
  | zero =>
    cases h
    simp
  | succ count ih =>
    cases peaks with
    | nil => cases h
    | cons left rest =>
      rw [ih h]
      simp [HashTree.leaves]

theorem givens_addBlock {size : ℕ} {block : HashTree α}
    (h : f.addBlock .node size block = some g) : g.givens = f.givens ++ block.leaves :=
  merge_leaves (addBlock_eq_some_iff.1 h).1

theorem givens_appendAll {leaves : List (HashTree α)} (h : f.appendAll .node leaves = .ok g) :
    g.givens = f.givens ++ leaves.flatMap HashTree.leaves := by
  induction leaves generalizing f with
  | nil =>
    cases h
    simp
  | cons leaf leaves ih =>
    obtain ⟨next, hn, hr⟩ := appendAll_cons_eq_ok_iff.1 h
    rw [ih hr, givens_addBlock (append_eq_ok_iff.1 hn).2, List.flatMap_cons, List.append_assoc]

theorem givens_fill {newLeaves remaining : ℕ} {subtrees : List (HashTree α)}
    {filled : Filling (HashTree α)}
    (h : fill .node newLeaves f remaining subtrees = .ok filled) :
    filled.forest.givens ++ filled.subtrees.flatMap HashTree.leaves =
      f.givens ++ subtrees.flatMap HashTree.leaves := by
  induction subtrees generalizing f remaining with
  | nil =>
    by_cases hstop : f.leafCount = 0 ∨ remaining < 2 ^ Bits.trailingZeros f.leafCount
    · rw [fill_of_stop hstop] at h
      cases h
      rfl
    · exact absurd h (fill_nil_ne_ok hstop)
  | cons subtree subtrees ih =>
    by_cases hstop : f.leafCount = 0 ∨ remaining < 2 ^ Bits.trailingZeros f.leafCount
    · rw [fill_of_stop hstop] at h
      cases h
      rfl
    · obtain ⟨next, hb, hr⟩ := (fill_cons_eq_ok_iff hstop).1 h
      rw [ih hr, givens_addBlock hb, List.flatMap_cons, List.append_assoc]

theorem givens_appendSubtrees {newLeaves : ℕ} {subtrees : List (HashTree α)}
    (h : f.appendSubtrees .node subtrees newLeaves = .ok g) :
    g.givens = f.givens ++ subtrees.flatMap HashTree.leaves := by
  obtain ⟨-, filled, hfill, hsettle⟩ := appendSubtrees_eq_ok_iff.1 h
  obtain ⟨-, rfl⟩ := settle_eq_ok_iff.1 hsettle
  rw [← givens_fill hfill]
  simp [givens]

theorem FoldsUp.leaves_eq {bitmap : ℕ} {peaks : List (HashTree α)} {current top : HashTree α}
    (h : FoldsUp .node .placeholder bitmap peaks current top) :
    top.leaves = peaks.reverse.flatMap HashTree.leaves ++ current.leaves := by
  induction h with
  | done current => simp
  | peak _ _ ih =>
    rw [ih]
    simp [HashTree.leaves]
  | padding _ _ _ ih =>
    rw [ih]
    simp [HashTree.leaves]

/-- The root is a term over all that is given, if there is a peak for every one bit of the count. -/
theorem leaves_root (h : f.peaks.length = Bits.ones f.leafCount) :
    (f.root .node .placeholder).leaves = f.givens := by
  obtain ⟨peaks, count⟩ := f
  unfold root givens
  match peaks with
  | [] => rfl
  | [only] => simp
  | first :: second :: rest =>
    have hrun := foldsUp_foldPeaks .node .placeholder .placeholder
      (h.trans (Bits.ones_shiftRight_trailingZeros count).symm)
    rw [hrun.leaves_eq]
    simp [HashTree.leaves]

end Leaves

section Pairs

theorem merge_pairs_subset {count : ℕ} {current : HashTree α} {peaks merged : List (HashTree α)}
    (h : merge .node count current peaks = some merged) :
    (current :: peaks).flatMap (HashTree.pairs node empty) ⊆
      merged.flatMap (HashTree.pairs node empty) := by
  induction count generalizing current peaks with
  | zero =>
    cases h
    exact List.Subset.refl _
  | succ count ih =>
    cases peaks with
    | nil => cases h
    | cons left rest =>
      refine List.Subset.trans ?_ (ih h)
      intro p hp
      simp only [List.flatMap_cons, List.mem_append, HashTree.pairs, List.mem_cons] at hp ⊢
      tauto

theorem joined_subset_addBlock {size : ℕ} {block : HashTree α}
    (h : f.addBlock .node size block = some g) : f.joined node empty ⊆ g.joined node empty :=
  List.Subset.trans (List.subset_append_right _ _)
    (merge_pairs_subset (addBlock_eq_some_iff.1 h).1)

theorem joined_subset_appendAll {leaves : List (HashTree α)}
    (h : f.appendAll .node leaves = .ok g) : f.joined node empty ⊆ g.joined node empty := by
  induction leaves generalizing f with
  | nil =>
    cases h
    exact List.Subset.refl _
  | cons leaf leaves ih =>
    obtain ⟨next, hn, hr⟩ := appendAll_cons_eq_ok_iff.1 h
    exact List.Subset.trans (joined_subset_addBlock (append_eq_ok_iff.1 hn).2) (ih hr)

theorem FoldsUp.pairs_subset {bitmap : ℕ} {peaks : List (HashTree α)} {current top : HashTree α}
    (h : FoldsUp .node .placeholder bitmap peaks current top) :
    (current :: peaks).flatMap (HashTree.pairs node empty) ⊆ top.pairs node empty := by
  induction h with
  | done current => simp
  | peak _ _ ih =>
    refine List.Subset.trans ?_ ih
    intro p hp
    simp only [List.flatMap_cons, List.mem_append, HashTree.pairs, List.mem_cons] at hp ⊢
    tauto
  | padding _ _ _ ih =>
    refine List.Subset.trans ?_ ih
    intro p hp
    simp only [List.flatMap_cons, List.mem_append, HashTree.pairs, List.mem_cons] at hp ⊢
    tauto

theorem joined_subset_root (h : f.peaks.length = Bits.ones f.leafCount) :
    f.joined node empty ⊆ (f.root .node .placeholder).pairs node empty := by
  obtain ⟨peaks, count⟩ := f
  unfold root joined
  match peaks with
  | [] => simp
  | [only] => simp
  | first :: second :: rest =>
    have hrun := foldsUp_foldPeaks .node .placeholder .placeholder
      (h.trans (Bits.ones_shiftRight_trailingZeros count).symm)
    exact List.Subset.trans (List.subset_append_right _ _) hrun.pairs_subset

end Pairs

section Relations

theorem joins_value : Joins (fun a t => HashTree.value node empty t = a) node .node := by
  rintro a s rfl b t rfl
  rfl

theorem joins_sameShape : Joins (α := HashTree α) SameShape .node .node :=
  fun _ _ h _ _ h' => ⟨h, h'⟩

theorem related_given (f : Forest α) :
    Related (fun a t => HashTree.value node empty t = a) f f.given :=
  ⟨List.forall₂_map_right_iff.2 (List.forall₂_same.2 fun _ _ => rfl), rfl⟩

theorem forall₂_value_given (nodes : List α) :
    List.Forall₂ (fun a t => HashTree.value node empty t = a) nodes (nodes.map .given) :=
  List.forall₂_map_right_iff.2 (List.forall₂_same.2 fun _ _ => rfl)

theorem forall₂_sameShape_given {first second : List α} (h : first.length = second.length) :
    List.Forall₂ SameShape (first.map HashTree.given) (second.map .given) := by
  rw [List.forall₂_map_left_iff, List.forall₂_map_right_iff]
  exact List.forall₂_iff_zip.2 ⟨h, fun _ => trivial⟩

theorem flatMap_leaves_given (nodes : List α) :
    (nodes.map HashTree.given).flatMap HashTree.leaves = nodes := by
  simp [List.flatMap_map, HashTree.leaves]

@[simp] theorem givens_given (f : Forest α) : f.given.givens = f.peaks.reverse := by
  rw [givens, given, ← List.map_reverse, flatMap_leaves_given]

end Relations

end VerifiedLedger.Forest
