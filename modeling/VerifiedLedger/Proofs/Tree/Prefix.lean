import VerifiedLedger.Proofs.Forest.Binding
/-! # Prefixes of a tree

Building the tree over a list joins every pair that growing one of its prefixes by its own subtrees
joins. So a forest that grows into a prefix of the tree was a shorter prefix before, and a tree that
agrees with a prefix has the leaves of the prefix.
-/
namespace VerifiedLedger.Forest
open HashTree (SameShape KeepsApart Within)
variable {α : Type} {node : α → α → α} {empty : α} {f g : Forest α} {t t' : Forest (HashTree α)}
  {subtrees leaves leaves' : List α} {newLeaves start count : ℕ}

/-- How the root over the leaves is hashed when they are appended one by one. -/
def treeTerm (leaves : List α) : HashTree α := rootTerm (ofLeaves .node (leaves.map .given))

theorem within_given {a : α} {s : HashTree α} (h : s.value node empty = a) :
    Within node empty (.given a) s :=
  ⟨h.symm, List.nil_subset _⟩

theorem joins_within : Joins (Within node empty) .node .node := by
  intro s t h s' t' h'
  refine ⟨congrArg₂ node h.value_eq h'.value_eq, ?_⟩
  rw [HashTree.pairs, HashTree.pairs, h.value_eq, h'.value_eq]
  apply List.cons_subset_cons
  exact List.append_subset.2 ⟨List.subset_append_of_subset_left _ h.pairs_subset,
    List.subset_append_of_subset_right _ h'.pairs_subset⟩

theorem within_treeNode (leaves : List α) (level index : ℕ) :
    Within node empty (.given (treeNode node empty leaves level index))
      (treeNode .node .placeholder (leaves.map .given) level index) :=
  within_given (treeNode_related joins_value rfl (forall₂_value_given leaves) level index)

theorem flatMap_pairs_subset {ss ts : List (HashTree α)}
    (h : List.Forall₂ (Within node empty) ss ts) :
    ss.flatMap (HashTree.pairs node empty) ⊆ ts.flatMap (HashTree.pairs node empty) := by
  induction h with
  | nil => exact List.Subset.refl _
  | cons hs _ ih =>
    rw [List.flatMap_cons, List.flatMap_cons]
    exact List.append_subset.2 ⟨List.subset_append_of_subset_left _ hs.pairs_subset,
      List.subset_append_of_subset_right _ ih⟩

/-- Where the first leaves of a tree are extended by subtrees of the same tree, every node is a node
of the tree, and building the tree joins whatever is joined. -/
theorem growth_prefixForest (hmax : leaves.length ≤ maxLeaves) (hle : start + count ≤ leaves.length)
    (h : (prefixForest node empty leaves start).growth
      (tileRoots node empty leaves start count) count = .ok t) :
    Related (Within node empty) t
      (prefixForest .node .placeholder (leaves.map .given) (start + count)) := by
  have hpeaks : Related (Within node empty) (prefixForest node empty leaves start).given
      (prefixForest .node .placeholder (leaves.map .given) start) :=
    ⟨List.forall₂_map_left_iff.2
      (peaksOf_related (R := fun a s => Within node empty (.given a) s) (within_treeNode leaves)
        0 start), rfl⟩
  have hroots : List.Forall₂ (Within node empty)
      ((tileRoots node empty leaves start count).map .given)
      (tileRoots .node .placeholder (leaves.map .given) start count) := by
    rw [List.forall₂_map_left_iff, tileRoots, List.forall₂_map_left_iff, tileRoots,
      List.forall₂_map_right_iff]
    exact List.forall₂_same.2 fun tile _ => within_treeNode leaves _ _
  have hlength : (leaves.map HashTree.given).length = leaves.length := List.length_map _
  have hsym := appendSubtrees_prefixForest HashTree.node HashTree.placeholder
    (hlength.trans_le hmax) (hle.trans_eq hlength.symm)
  obtain ⟨t', ht', hr⟩ := appendSubtrees_related joins_within hpeaks hroots h
  cases Except.ok.inj (ht'.symm.trans hsym)
  exact hr

section Building

theorem treeTerm_eq (hmax : leaves.length ≤ maxLeaves) :
    treeTerm leaves =
      (prefixForest .node .placeholder (leaves.map .given) leaves.length).root .node
        .placeholder := by
  have hlength : (leaves.map HashTree.given).length = leaves.length := List.length_map _
  have h := ofLeaves_eq_prefixForest HashTree.node HashTree.placeholder (hlength.trans_le hmax)
  rw [treeTerm, h, hlength, rootTerm]

theorem value_treeTerm (h : ofLeaves node leaves = .ok f) :
    (treeTerm leaves).value node empty = f.root node empty := by
  obtain ⟨t, ht, hr⟩ := ofLeaves_related joins_value (forall₂_value_given leaves) h
  rw [treeTerm, ht, rootTerm, value_root hr]

theorem joined_prefixForest_subset (node : α → α → α) (empty : α)
    (hmax : leaves.length ≤ maxLeaves) (hle : count ≤ leaves.length) :
    (prefixForest .node .placeholder (leaves.map .given) count).joined node empty ⊆
      (treeTerm leaves).pairs node empty := by
  have hlength : (leaves.map HashTree.given).length = leaves.length := List.length_map _
  have hsum : count + (leaves.length - count) = leaves.length := Nat.add_sub_cancel' hle
  have hrest := appendAll_prefixForest HashTree.node HashTree.placeholder
    (hlength.trans_le hmax) (hsum.trans hlength.symm).le
  rw [hsum] at hrest
  rw [treeTerm_eq hmax]
  exact List.Subset.trans (joined_subset_appendAll hrest)
    (joined_subset_root (length_peaksOf _ _ _))

/-- The terms over the first leaves of a tree are over these leaves, and building the whole tree
joins what they join. -/
theorem exists_prefix_terms (node : α → α → α) (empty : α) (hmax : leaves.length ≤ maxLeaves)
    (hle : count ≤ leaves.length) :
    ∃ t, ofLeaves .node ((leaves.take count).map .given) = .ok t ∧ t.givens = leaves.take count ∧
      t.joined node empty ⊆ (treeTerm leaves).pairs node empty ∧
      t.peaks.map (HashTree.value node empty) = (prefixForest node empty leaves count).peaks := by
  have hlength : (leaves.map HashTree.given).length = leaves.length := List.length_map _
  have hterm := ofLeaves_take HashTree.node HashTree.placeholder (hlength.trans_le hmax)
    (hle.trans_eq hlength.symm)
  rw [← List.map_take] at hterm
  obtain ⟨t, ht, hr⟩ := ofLeaves_related joins_value (forall₂_value_given (leaves.take count))
    (ofLeaves_take node empty hmax hle)
  refine ⟨t, ht, ?_, ?_, value_peaks hr⟩
  · rw [givens_appendAll ht, flatMap_leaves_given]
    simp [givens, Forest.empty]
  · rw [Except.ok.inj (ht.symm.trans hterm)]
    exact joined_prefixForest_subset node empty hmax hle

end Building

section Grown
variable (hf : f.Valid) (hmax : leaves.length ≤ maxLeaves)
  (h : f.appendSubtrees node subtrees newLeaves = .ok g)
  (hapart : KeepsApart node ((rootTerm (f.growth subtrees newLeaves)).pairs node empty)
    ((treeTerm leaves).pairs node empty))
include hf hmax h hapart

/-- A forest that grew to a prefix of a tree was a prefix of the same tree. -/
theorem eq_prefixForest_of_grown (hle : f.leafCount + newLeaves ≤ leaves.length)
    (hg : g = prefixForest node empty leaves (f.leafCount + newLeaves)) :
    f = prefixForest node empty leaves f.leafCount := by
  obtain ⟨t, ht, hr⟩ := exists_growth node empty h
  have hhonest := appendSubtrees_prefixForest node empty hmax hle
  obtain ⟨t', ht', hr'⟩ := exists_growth node empty hhonest
  have hwithin := growth_prefixForest hmax hle ht'
  rw [ht, rootTerm] at hapart
  have hpeaks : t.peaks.map (HashTree.value node empty) =
      t'.peaks.map (HashTree.value node empty) := by
    rw [value_peaks hr, value_peaks hr', hg]
  exact (eq_of_peaks_eq hf (valid_prefixForest hf.leafCount_le) rfl ht ht'
    (hapart.mono (joined_subset_root (hf.growth ht).1.length_peaks)
      (List.Subset.trans (flatMap_pairs_subset hwithin.peaks)
        (joined_prefixForest_subset node empty hmax hle))) hpeaks).1

/-- A forest that grew to the root of a tree was a prefix of the tree and grew to the tree. -/
theorem eq_prefixForest_of_root (hlength : f.leafCount + newLeaves = leaves.length)
    (hroot : g.root node empty =
      (prefixForest node empty leaves leaves.length).root node empty) :
    f = prefixForest node empty leaves f.leafCount ∧
      g = prefixForest node empty leaves leaves.length := by
  obtain ⟨t, ht, hr⟩ := exists_growth node empty h
  have hhonest := appendSubtrees_prefixForest node empty hmax hlength.le
  obtain ⟨t', ht', hr'⟩ := exists_growth node empty hhonest
  have hwithin : Within node empty (t'.root .node .placeholder) (treeTerm leaves) := by
    rw [treeTerm_eq hmax, ← hlength]
    exact root_related joins_within ⟨rfl, List.Subset.refl _⟩ (growth_prefixForest hmax hlength.le ht')
  rw [ht, rootTerm] at hapart
  have hvalue : (t.root .node .placeholder).value node empty =
      (t'.root .node .placeholder).value node empty := by
    rw [value_root hr, value_root hr', hlength, hroot]
  obtain ⟨hforest, hsubtrees⟩ := eq_of_root_eq hf (valid_prefixForest hf.leafCount_le) rfl ht ht'
    (hapart.mono (List.Subset.refl _) hwithin.pairs_subset) hvalue
  refine ⟨hforest, ?_⟩
  rw [hforest, hsubtrees, hhonest, hlength] at h
  exact (Except.ok.inj h).symm

end Grown

/-- Where a tree agrees with the first leaves of another one, they are its leaves. -/
theorem eq_take_of_prefixForest_eq (hmax : leaves'.length ≤ maxLeaves)
    (hle : leaves.length ≤ leaves'.length)
    (hapart : KeepsApart node ((treeTerm leaves).pairs node empty)
      ((treeTerm leaves').pairs node empty))
    (heq : prefixForest node empty leaves leaves.length =
      prefixForest node empty leaves' leaves.length) :
    leaves = leaves'.take leaves.length := by
  obtain ⟨t, ht, hgivens, hjoined, hpeaks⟩ :=
    exists_prefix_terms node empty (hle.trans hmax) le_rfl
  obtain ⟨t', ht', hgivens', hjoined', hpeaks'⟩ := exists_prefix_terms node empty hmax hle
  rw [List.take_length] at ht hgivens
  have hlength : leaves.length = (leaves'.take leaves.length).length :=
    (List.length_take_of_le hle).symm
  obtain ⟨s, hs, hshape⟩ :=
    ofLeaves_related joins_sameShape (forall₂_sameShape_given hlength) ht
  cases Except.ok.inj (hs.symm.trans ht')
  have hterms := HashTree.eq_of_map_value_eq hshape.peaks (hapart.mono hjoined hjoined')
    (hpeaks.trans ((congrArg peaks heq).trans hpeaks'.symm))
  calc
    leaves = t.givens := hgivens.symm
    _ = t'.givens := by rw [givens, hterms, ← givens]
    _ = leaves'.take leaves.length := hgivens'

end VerifiedLedger.Forest
