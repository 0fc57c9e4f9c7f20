import VerifiedLedger.Proofs.Accumulator.RangeTerms
import VerifiedLedger.Proofs.Accumulator.SiblingPaths
/-! # The siblings of a run

The siblings of a run of leaves are read off the levels of the tree, on the left where the run
begins with a right child and on the right where it ends with a left child. With them the run goes
up through the nodes above it and is a single node at the root and not before. Another run or other
siblings, as many of them, go up the same way and come to another root.
-/
namespace VerifiedLedger
open HashTree (KeepsApart Within SameShape)
variable {α β : Type} {R : α → β → Prop} {nodeAt : ℕ → ℕ → α} {nodeAt' : ℕ → ℕ → β}

/-- What is to the left of the nodes above a leaf, at those levels where they are right children. -/
def siblingsBefore (nodeAt : ℕ → ℕ → α) (first : ℕ) (levels : List ℕ) : List α :=
  levels.filterMap fun level =>
    if first / 2 ^ level % 2 = 1 then some (nodeAt level (first / 2 ^ level - 1)) else none

/-- What is to the right of the nodes above a leaf, at those levels where they are left children. -/
def siblingsAfter (nodeAt : ℕ → ℕ → α) (last : ℕ) (levels : List ℕ) : List α :=
  levels.filterMap fun level =>
    if last / 2 ^ level % 2 = 0 then some (nodeAt level (last / 2 ^ level + 1)) else none

section Siblings
variable {first last level : ℕ} {levels : List ℕ}

theorem siblingsBefore_of_right (h : first / 2 ^ level % 2 = 1) :
    siblingsBefore nodeAt first (level :: levels) =
      nodeAt level (first / 2 ^ level - 1) :: siblingsBefore nodeAt first levels := by
  simp [siblingsBefore, h]

theorem siblingsBefore_of_left (h : first / 2 ^ level % 2 = 0) :
    siblingsBefore nodeAt first (level :: levels) = siblingsBefore nodeAt first levels := by
  simp [siblingsBefore, h]

theorem siblingsAfter_of_left (h : last / 2 ^ level % 2 = 0) :
    siblingsAfter nodeAt last (level :: levels) =
      nodeAt level (last / 2 ^ level + 1) :: siblingsAfter nodeAt last levels := by
  simp [siblingsAfter, h]

theorem siblingsAfter_of_right (h : last / 2 ^ level % 2 = 1) :
    siblingsAfter nodeAt last (level :: levels) = siblingsAfter nodeAt last levels := by
  simp [siblingsAfter, h]

theorem siblingsBefore_related (h : ∀ level index, R (nodeAt level index) (nodeAt' level index)) :
    List.Forall₂ R (siblingsBefore nodeAt first levels) (siblingsBefore nodeAt' first levels) := by
  induction levels with
  | nil => exact .nil
  | cons level levels ih =>
    rcases Nat.mod_two_eq_zero_or_one (first / 2 ^ level) with h2 | h2
    · rwa [siblingsBefore_of_left h2, siblingsBefore_of_left h2]
    · rw [siblingsBefore_of_right h2, siblingsBefore_of_right h2]
      exact .cons (h _ _) ih

theorem siblingsAfter_related (h : ∀ level index, R (nodeAt level index) (nodeAt' level index)) :
    List.Forall₂ R (siblingsAfter nodeAt last levels) (siblingsAfter nodeAt' last levels) := by
  induction levels with
  | nil => exact .nil
  | cons level levels ih =>
    rcases Nat.mod_two_eq_zero_or_one (last / 2 ^ level) with h2 | h2
    · rw [siblingsAfter_of_left h2, siblingsAfter_of_left h2]
      exact .cons (h _ _) ih
    · rwa [siblingsAfter_of_right h2, siblingsAfter_of_right h2]

theorem length_siblingsBefore_le :
    (siblingsBefore nodeAt first levels).length ≤ levels.length := List.length_filterMap_le _ _

theorem length_siblingsAfter_le :
    (siblingsAfter nodeAt last levels).length ≤ levels.length := List.length_filterMap_le _ _

end Siblings

namespace RangeProof

section Tree
variable {node : α → α → α} {first last level count levels : ℕ}

/-- The run at a level of the tree, and the siblings from that level on. -/
def frontierAt (nodeAt : ℕ → ℕ → α) (first last level count : ℕ) : Frontier α where
  nodes := (List.range' (first / 2 ^ level) (last / 2 ^ level + 1 - first / 2 ^ level)).map
    (nodeAt level)
  left := siblingsBefore nodeAt first (List.range' level count)
  right := siblingsAfter nodeAt last (List.range' level count)

theorem pairUp_range' (f : ℕ → α) (start size : ℕ) :
    pairUp node ((List.range' (2 * start) (2 * size)).map f) =
      (List.range' start size).map fun i => node (f (2 * i)) (f (2 * i + 1)) := by
  induction size generalizing start with
  | zero => rfl
  | succ size ih =>
    rw [show 2 * (size + 1) = 2 * size + 1 + 1 by omega, List.range'_succ, List.range'_succ,
      List.range'_succ, List.map_cons, List.map_cons, List.map_cons, pairUp,
      show 2 * start + 1 + 1 = 2 * (start + 1) by omega, ih]

/-- With its left neighbour the run begins where the parent's children begin. -/
theorem takeLeft_frontierAt (hle : first ≤ last) :
    takeLeft level (first / 2 ^ level) (frontierAt nodeAt first last level (count + 1)) =
      .ok ⟨(List.range' (2 * (first / 2 ^ (level + 1)))
          (last / 2 ^ level + 1 - 2 * (first / 2 ^ (level + 1)))).map (nodeAt level),
        siblingsBefore nodeAt first (List.range' (level + 1) count),
        siblingsAfter nodeAt last (List.range' level (count + 1))⟩ := by
  have hnodes : first / 2 ^ level ≤ last / 2 ^ level := Nat.div_le_div_right hle
  rw [Nat.pow_succ, ← Nat.div_div_eq_div_mul, takeLeft, frontierAt, List.range'_succ]
  rcases Nat.mod_two_eq_zero_or_one (first / 2 ^ level) with h2 | h2
  · rw [if_neg (by omega), siblingsBefore_of_left h2,
      show 2 * (first / 2 ^ level / 2) = first / 2 ^ level by omega]
  · rw [if_pos h2, siblingsBefore_of_right h2]
    generalize first / 2 ^ level = start at hnodes h2 ⊢
    generalize last / 2 ^ level = stop at hnodes ⊢
    rw [show 2 * (start / 2) = start - 1 by omega,
      show stop + 1 - (start - 1) = stop + 1 - start + 1 by omega, List.range'_succ,
      show start - 1 + 1 = start by omega]
    rfl

/-- With its right neighbour the run ends where the parent's children end. -/
theorem takeRight_frontierAt {start : ℕ} {left : List α} (hle : start ≤ last / 2 ^ level) :
    takeRight level (last / 2 ^ level)
        ⟨(List.range' start (last / 2 ^ level + 1 - start)).map (nodeAt level), left,
          siblingsAfter nodeAt last (List.range' level (count + 1))⟩ =
      .ok ⟨(List.range' start (2 * (last / 2 ^ (level + 1) + 1) - start)).map (nodeAt level), left,
        siblingsAfter nodeAt last (List.range' (level + 1) count)⟩ := by
  rw [Nat.pow_succ, ← Nat.div_div_eq_div_mul, takeRight, List.range'_succ]
  rcases Nat.mod_two_eq_zero_or_one (last / 2 ^ level) with h2 | h2
  · rw [if_pos h2, siblingsAfter_of_left h2,
      show 2 * (last / 2 ^ level / 2 + 1) - start = last / 2 ^ level + 1 - start + 1 by omega,
      List.range'_1_concat, List.map_append, List.map_singleton,
      show start + (last / 2 ^ level + 1 - start) = last / 2 ^ level + 1 by omega]
  · rw [if_neg (by omega), siblingsAfter_of_right h2,
      show 2 * (last / 2 ^ level / 2 + 1) = last / 2 ^ level + 1 by omega]

/-- Every node of the tree down to the last leaf of the run is hashed from its children. -/
def HashedUpTo (node : α → α → α) (nodeAt : ℕ → ℕ → α) (last : ℕ) : Prop :=
  ∀ level index, index * 2 ^ (level + 1) ≤ last →
    nodeAt (level + 1) index = node (nodeAt level (2 * index)) (nodeAt level (2 * index + 1))

theorem raise_frontierAt (htree : HashedUpTo node nodeAt last) (hle : first ≤ last) :
    raise node level (first / 2 ^ level) (last / 2 ^ level)
        (frontierAt nodeAt first last level (count + 1)) =
      .ok (frontierAt nodeAt first last (level + 1) count) := by
  have hnodes : first / 2 ^ (level + 1) ≤ last / 2 ^ (level + 1) := Nat.div_le_div_right hle
  have hfirst : 2 * (first / 2 ^ (level + 1)) ≤ last / 2 ^ level := by
    rw [Nat.pow_succ, ← Nat.div_div_eq_div_mul]
    have hbelow : first / 2 ^ level ≤ last / 2 ^ level := Nat.div_le_div_right hle
    omega
  have hsize : 2 * (last / 2 ^ (level + 1) + 1) - 2 * (first / 2 ^ (level + 1)) =
      2 * (last / 2 ^ (level + 1) + 1 - first / 2 ^ (level + 1)) := by omega
  have hparents : ∀ i ∈ List.range' (first / 2 ^ (level + 1))
      (last / 2 ^ (level + 1) + 1 - first / 2 ^ (level + 1)),
      node (nodeAt level (2 * i)) (nodeAt level (2 * i + 1)) = nodeAt (level + 1) i := by
    intro i hi
    obtain ⟨-, hi⟩ := List.mem_range'_1.1 hi
    have hbound : i ≤ last / 2 ^ (level + 1) := by omega
    exact (htree level i ((Nat.mul_le_mul_right _ hbound).trans (Nat.div_mul_le_self _ _))).symm
  rw [raise, takeLeft_frontierAt hle, ok_bind, takeRight_frontierAt hfirst, ok_bind, hsize,
    if_neg (by rw [List.length_map, List.length_range']; omega), pairUp_range',
    List.map_congr_left hparents]
  rfl

/-- Below the top a run that is a single node has a sibling. -/
theorem isRoot_frontierAt (first last level count : ℕ) :
    (frontierAt nodeAt first last level (count + 1)).isRoot = false := by
  by_contra hroot
  rw [Bool.not_eq_false, Frontier.isRoot, Bool.and_eq_true, Bool.and_eq_true, beq_iff_eq,
    List.isEmpty_iff, List.isEmpty_iff, frontierAt, List.range'_succ] at hroot
  obtain ⟨⟨hnodes, hleft⟩, hright⟩ := hroot
  rw [List.length_map, List.length_range'] at hnodes
  rcases Nat.mod_two_eq_zero_or_one (first / 2 ^ level) with h2 | h2
  · have hlast : last / 2 ^ level % 2 = 0 := by omega
    rw [siblingsAfter_of_left hlast] at hright
    cases hright
  · rw [siblingsBefore_of_right h2] at hleft
    cases hleft

theorem frontierAt_top (hle : first ≤ last) (htop : last < 2 ^ level) :
    frontierAt nodeAt first last level 0 = ⟨[nodeAt level 0], [], []⟩ := by
  rw [frontierAt, Nat.div_eq_of_lt htop, Nat.div_eq_of_lt (hle.trans_lt htop)]
  rfl

/-- The run goes up level by level and stops at the first node that is above all leaves. -/
theorem ascend_frontierAt (level : ℕ) (htree : HashedUpTo node nodeAt last) (hle : first ≤ last)
    (htop : last < 2 ^ (level + count)) (hlevels : count ≤ levels) :
    ascend node levels level (first / 2 ^ level) (last / 2 ^ level)
        (frontierAt nodeAt first last level count) =
      .ok ⟨[nodeAt (level + count) 0], [], []⟩ := by
  induction count generalizing level levels with
  | zero =>
    rw [Nat.add_zero] at htop ⊢
    rw [frontierAt_top hle htop]
    cases levels with
    | zero => rfl
    | succ levels => rfl
  | succ count ih =>
    obtain ⟨levels, rfl⟩ : ∃ fewer, levels = fewer + 1 := ⟨levels - 1, by omega⟩
    have hsum : level + (count + 1) = level + 1 + count := by omega
    rw [hsum] at htop ⊢
    rw [ascend, isRoot_frontierAt, if_neg Bool.false_ne_true, raise_frontierAt htree hle, ok_bind,
      Nat.div_div_eq_div_mul, Nat.div_div_eq_div_mul, ← Nat.pow_succ]
    exact ih (level + 1) htop (Nat.le_of_succ_le_succ hlevels)

end Tree

section Givens
variable {f next top : Frontier (HashTree α)} {first last level levels : ℕ}

/-- What is given, from left to right: the siblings of the levels above stand outside. -/
def Frontier.givens (f : Frontier (HashTree α)) : List α :=
  (f.left.reverse ++ f.nodes ++ f.right).flatMap HashTree.leaves

theorem leaves_pairUp {nodes : List (HashTree α)} (h : nodes.length % 2 = 0) :
    (pairUp .node nodes).flatMap HashTree.leaves = nodes.flatMap HashTree.leaves := by
  fun_induction pairUp HashTree.node nodes with
  | case1 a b rest ih =>
    have hrest : rest.length % 2 = 0 := by
      rw [List.length_cons, List.length_cons] at h
      omega
    simp [ih hrest, HashTree.leaves]
  | case2 nodes hshort =>
    rcases nodes with _ | ⟨a, _ | ⟨b, rest⟩⟩
    · rfl
    · cases h
    · exact (hshort a b rest rfl).elim

/-- A level moves the given nodes inwards and drops none of them. -/
theorem givens_raise (hrun : first + f.nodes.length = last + 1)
    (h : raise .node level first last f = .ok next) : next.givens = f.givens := by
  obtain ⟨before, after, hbefore, hafter, hleft, hright, hnodes⟩ := raise_eq_ok h
  have heven : (before ++ f.nodes ++ after).length % 2 = 0 := by
    rw [List.length_append, List.length_append, hbefore, hafter]
    omega
  have hsingle : before.reverse = before := by
    match before, hbefore with
    | [], _ => rfl
    | [sibling], _ => rfl
    | a :: b :: rest, hbefore =>
      rw [List.length_cons, List.length_cons] at hbefore
      omega
  have hlevel : next.nodes.flatMap HashTree.leaves =
      (before ++ f.nodes ++ after).flatMap HashTree.leaves := by
    rw [hnodes, leaves_pairUp heven]
  rw [Frontier.givens, Frontier.givens, hleft, hright, List.reverse_append, hsingle]
  simp only [List.flatMap_append, hlevel, List.append_assoc]

theorem givens_ascend (hrun : first + f.nodes.length = last + 1)
    (h : ascend .node levels level first last f = .ok top) : top.givens = f.givens := by
  induction levels generalizing level first last f with
  | zero =>
    cases h
    rfl
  | succ levels ih =>
    rcases ascend_cases h with ⟨-, rfl, -⟩ | ⟨-, next, hraise, hrest, -⟩
    · rfl
    · rw [ih (raise_run hrun hraise) hrest, givens_raise hrun hraise]

end Givens

section Lengths
variable {kind : AccumulatorKind} {proof proof' : RangeProof kind} {leaves leaves' : List Digest}
  {first : ℕ} {root : Digest} {t t' : HashTree Digest}

/-- The term over the run has the siblings of the highest levels at its ends. -/
theorem leaves_of_run (hne : leaves ≠ []) (h : proof.run first leaves = .ok ⟨[t], [], []⟩) :
    t.leaves = proof.leftSiblings ++ leaves ++ proof.rightSiblings.reverse := by
  have hpos : 0 < leaves.length := List.length_pos_iff.2 hne
  have hrun : first + (leaves.map HashTree.given).length = first + (leaves.length - 1) + 1 := by
    rw [List.length_map]
    omega
  have hgivens := givens_ascend hrun h
  simpa [Frontier.givens, ← List.map_reverse, List.flatMap_append, Forest.flatMap_leaves_given]
    using hgivens

/-- The way up depends on the counts alone. -/
theorem run_of_lengths (hleaves : leaves.length = leaves'.length)
    (hleft : proof.leftSiblings.length = proof'.leftSiblings.length)
    (hright : proof.rightSiblings.length = proof'.rightSiblings.length)
    (h : proof.run first leaves = .ok ⟨[t], [], []⟩) :
    ∃ t', proof'.run first leaves' = .ok ⟨[t'], [], []⟩ ∧ t.SameShape t' := by
  have hstart : Frontier.Related SameShape
      ⟨leaves.map .given, proof.leftSiblings.reverse.map .given,
        proof.rightSiblings.reverse.map .given⟩
      ⟨leaves'.map .given, proof'.leftSiblings.reverse.map .given,
        proof'.rightSiblings.reverse.map .given⟩ := by
    refine ⟨Forest.forall₂_sameShape_given hleaves, Forest.forall₂_sameShape_given ?_,
      Forest.forall₂_sameShape_given ?_⟩
    · rwa [List.length_reverse, List.length_reverse]
    · rwa [List.length_reverse, List.length_reverse]
  obtain ⟨top, hrun, hrelated⟩ := ascend_related Forest.joins_sameShape hstart h
  obtain ⟨t', rfl, hshape⟩ := hrelated.of_top
  rw [hleaves] at hrun
  exact ⟨t', hrun, hshape⟩

/-- Where the way up comes to one term, the root decides. -/
theorem verify_of_run (hne : leaves ≠ [])
    (hleft : proof.leftSiblings.length ≤ LeafProof.maxDepth)
    (hright : proof.rightSiblings.length ≤ LeafProof.maxDepth)
    (hlast : first + (leaves.length - 1) < UInt64.size)
    (h : proof.run first leaves = .ok ⟨[t], [], []⟩) (expected : Digest) :
    proof.verify first leaves expected =
      if t.value kind.node .accumulatorPlaceholder = expected then .ok ()
      else .error (.wrongRoot (t.value kind.node .accumulatorPlaceholder) expected) := by
  have hstart : Frontier.Related
      (fun t a => HashTree.value kind.node .accumulatorPlaceholder t = a)
      ⟨leaves.map .given, proof.leftSiblings.reverse.map .given,
        proof.rightSiblings.reverse.map .given⟩
      ⟨leaves, proof.leftSiblings.reverse, proof.rightSiblings.reverse⟩ :=
    ⟨(Forest.forall₂_value_given _).flip, (Forest.forall₂_value_given _).flip,
      (Forest.forall₂_value_given _).flip⟩
  have hjoins : Forest.Joins (fun t a => HashTree.value kind.node .accumulatorPlaceholder t = a)
      .node kind.node := fun _ _ h _ _ h' => Forest.joins_value h h'
  obtain ⟨top, hrun, hrelated⟩ := ascend_related hjoins hstart h
  obtain ⟨a, rfl, rfl⟩ := hrelated.of_top
  have hempty : leaves.isEmpty = false := List.isEmpty_eq_false_iff.2 hne
  simp only [verify, hempty, Bool.false_eq_true, if_false, if_neg (Nat.not_lt.2 hleft),
    if_neg (Nat.not_lt.2 hright), if_neg (Nat.not_le.2 hlast), hrun, ok_bind]
  rfl

theorem eq_of_leaves_eq (hleaves : leaves.length = leaves'.length)
    (hleft : proof.leftSiblings.length = proof'.leftSiblings.length)
    (h : proof.leftSiblings ++ leaves ++ proof.rightSiblings.reverse =
      proof'.leftSiblings ++ leaves' ++ proof'.rightSiblings.reverse) :
    leaves = leaves' ∧ proof = proof' := by
  obtain ⟨left, right⟩ := proof
  obtain ⟨left', right'⟩ := proof'
  rw [List.append_assoc, List.append_assoc] at h
  obtain ⟨rfl, hrest⟩ := List.append_inj h hleft
  obtain ⟨rfl, hright⟩ := List.append_inj hrest hleaves
  obtain rfl := List.reverse_injective hright
  exact ⟨rfl, rfl⟩

end Lengths

section Levels
variable {kind : AccumulatorKind} {leaves : List Digest} {first last : ℕ}

/-- The siblings of a run of leaves, on each side the one of the highest level first. -/
def ofLevels (kind : AccumulatorKind) (leaves : List Digest) (first last : ℕ) : RangeProof kind :=
  let nodeAt := fun level index =>
    (levelAbove kind.node .accumulatorPlaceholder leaves level).getD index .accumulatorPlaceholder
  let levels := List.range (height leaves)
  ⟨(siblingsBefore nodeAt first levels).reverse, (siblingsAfter nodeAt last levels).reverse⟩

/-- The leaves from `first` to `last`, both included. -/
def between (leaves : List Digest) (first last : ℕ) : List Digest :=
  (leaves.drop first).take (last + 1 - first)

theorem length_between (first : ℕ) (hlast : last < leaves.length) :
    (between leaves first last).length = last + 1 - first := by
  rw [between, List.length_take, List.length_drop]
  omega

theorem hashedUpTo_treeNode (node : Digest → Digest → Digest) (empty : Digest)
    (hlast : last < leaves.length) : HashedUpTo node (treeNode node empty leaves) last :=
  fun _ _ h => treeNode_succ node empty (h.trans_lt hlast)

theorem hashedUpTo_nodeTerm (hlast : last < leaves.length) :
    HashedUpTo .node (nodeTerm leaves) last :=
  fun _ _ h => nodeTerm_succ (h.trans_lt hlast)

/-- The run and its siblings are the lowest level of the way up through the tree. -/
theorem frontier_ofLevels (kind : AccumulatorKind) (first : ℕ) (hlast : last < leaves.length) :
    (⟨between leaves first last, (ofLevels kind leaves first last).leftSiblings.reverse,
        (ofLevels kind leaves first last).rightSiblings.reverse⟩ : Frontier Digest) =
      frontierAt (treeNode kind.node .accumulatorPlaceholder leaves) first last 0
        (height leaves) := by
  have hnodes : between leaves first last =
      (List.range' first (last + 1 - first)).map
        (treeNode kind.node .accumulatorPlaceholder leaves 0) := by
    apply List.ext_getElem
    · rw [length_between first hlast, List.length_map, List.length_range']
    · intro i hi hi'
      rw [length_between first hlast] at hi
      have hindex : first + i < leaves.length := by omega
      simp [between, treeNode, hindex]
  simp only [frontierAt, ofLevels, getD_levelAbove, List.reverse_reverse, Nat.pow_zero, Nat.div_one,
    hnodes, List.range_eq_range']

end Levels

section Tree
variable {kind : AccumulatorKind} {leaves : List Digest} {first last : ℕ}
  (hmax : leaves.length ≤ 2 ^ 63) (hle : first ≤ last) (hlast : last < leaves.length)
include hmax hle hlast

/-- There are more levels than the tree has, so that the run comes to its root. -/
theorem ascend_of_hashedUpTo {node : α → α → α} (htree : HashedUpTo node nodeAt last) :
    ascend node LeafProof.maxDepth 0 first last
        (frontierAt nodeAt first last 0 (height leaves)) =
      .ok ⟨[nodeAt (height leaves) 0], [], []⟩ := by
  have hheight : height leaves ≤ LeafProof.maxDepth :=
    (Nat.clog_le_of_le_pow hmax).trans (by decide)
  have htop : last < 2 ^ (0 + height leaves) := by
    rw [Nat.zero_add]
    exact lt_two_pow_height hlast
  have hascend := ascend_frontierAt 0 htree hle htop hheight
  rwa [Nat.pow_zero, Nat.div_one, Nat.div_one, Nat.zero_add] at hascend

theorem bounds_ofLevels (kind : AccumulatorKind) :
    between leaves first last ≠ [] ∧
      (ofLevels kind leaves first last).leftSiblings.length ≤ LeafProof.maxDepth ∧
      (ofLevels kind leaves first last).rightSiblings.length ≤ LeafProof.maxDepth ∧
      first + ((between leaves first last).length - 1) = last ∧ last < UInt64.size := by
  have hheight : (List.range (height leaves)).length ≤ LeafProof.maxDepth := by
    rw [List.length_range]
    exact (Nat.clog_le_of_le_pow hmax).trans (by decide)
  have hlength := length_between first hlast
  refine ⟨?_, ?_, ?_, by omega, (hlast.trans_le hmax).trans (by decide)⟩
  · rw [← List.length_pos_iff]
    omega
  · rw [ofLevels, List.length_reverse]
    exact length_siblingsBefore_le.trans hheight
  · rw [ofLevels, List.length_reverse]
    exact length_siblingsAfter_le.trans hheight

theorem verify_ofLevels_root (kind : AccumulatorKind) :
    (ofLevels kind leaves first last).verify first (between leaves first last)
      (treeNode kind.node .accumulatorPlaceholder leaves (height leaves) 0) = .ok () := by
  obtain ⟨hne, hleft, hright, hend, hsize⟩ := bounds_ofLevels hmax hle hlast kind
  have hascend := ascend_of_hashedUpTo hmax hle hlast
    (hashedUpTo_treeNode kind.node .accumulatorPlaceholder hlast)
  rw [← frontier_ofLevels kind first hlast] at hascend
  refine (verify_eq_ok_iff hne).2 ⟨hleft, hright, ?_, ⟨[_], [], []⟩, ?_, rfl, rfl, rfl⟩
  · rwa [hend]
  · rwa [hend]

/-- What the verifier computes is the part of the tree that is above the run. -/
theorem within_computation_ofLevels (kind : AccumulatorKind) :
    Within kind.node .accumulatorPlaceholder
      ((ofLevels kind leaves first last).computation first (between leaves first last))
      (Forest.treeTerm leaves) := by
  obtain ⟨hne, -, -, hend, -⟩ := bounds_ofLevels hmax hle hlast kind
  obtain ⟨hrun, -⟩ := run_of_verify hne (verify_ofLevels_root hmax hle hlast kind)
  rw [run, hend] at hrun
  have hfrontier := frontier_ofLevels kind first hlast
  rw [frontierAt, Frontier.mk.injEq] at hfrontier
  obtain ⟨hnodes, hleft, hright⟩ := hfrontier
  have hgiven : ∀ level index, Within kind.node .accumulatorPlaceholder
      (.given (treeNode kind.node .accumulatorPlaceholder leaves level index))
      (nodeTerm leaves level index) := Forest.within_treeNode leaves
  have hstart : Frontier.Related (Within kind.node .accumulatorPlaceholder)
      ⟨(between leaves first last).map .given,
        (ofLevels kind leaves first last).leftSiblings.reverse.map .given,
        (ofLevels kind leaves first last).rightSiblings.reverse.map .given⟩
      (frontierAt (nodeTerm leaves) first last 0 (height leaves)) := by
    rw [hnodes, hleft, hright]
    refine ⟨?_, ?_, ?_⟩
    · rw [List.forall₂_map_left_iff, List.forall₂_map_left_iff, frontierAt,
        List.forall₂_map_right_iff]
      exact List.forall₂_same.2 fun _ _ => hgiven _ _
    · rw [List.forall₂_map_left_iff]
      exact siblingsBefore_related (R := fun a s => Within _ _ (.given a) s) hgiven
    · rw [List.forall₂_map_left_iff]
      exact siblingsAfter_related (R := fun a s => Within _ _ (.given a) s) hgiven
  obtain ⟨top, htree, hrelated⟩ := ascend_related Forest.joins_within hstart hrun
  obtain ⟨t, rfl, hwithin⟩ := hrelated.of_top
  have hascend := ascend_of_hashedUpTo hmax hle hlast (hashedUpTo_nodeTerm hlast)
  rw [htree] at hascend
  cases hascend
  rwa [Forest.treeTerm_eq_treeNode (hmax.trans_eq (Nat.one_shiftLeft 63).symm)]

end Tree

section Main
variable {leaves : List Digest} {first last : ℕ}

/-- A run with its siblings in the tree is good, and it is the only one with these counts: other
leaves or other siblings lead to another root, unless strings that are hashed on one of the ways
collide. -/
theorem verify_between (kind : AccumulatorKind) (hmax : leaves.length ≤ 2 ^ 63)
    (hle : first ≤ last) (hlast : last < leaves.length) :
    ∃ a : Accumulator kind, Accumulator.ofLeaves leaves = .ok a ∧
      (ofLevels kind leaves first last).verify first (between leaves first last) a.root = .ok () ∧
      ∀ (run : List Digest) (proof : RangeProof kind),
        run.length = (between leaves first last).length →
        proof.leftSiblings.length = (ofLevels kind leaves first last).leftSiblings.length →
        proof.rightSiblings.length = (ofLevels kind leaves first last).rightSiblings.length →
        (run, proof) ≠ (between leaves first last, ofLevels kind leaves first last) →
        CollisionFree ((Forest.treeTerm leaves).hashed kind ++
          (proof.computation first run).hashed kind) →
        proof.verify first run a.root = .error (.wrongRoot
          ((proof.computation first run).value kind.node .accumulatorPlaceholder) a.root) := by
  have hleaves : leaves.length ≤ Forest.maxLeaves := hmax.trans_eq (Nat.one_shiftLeft 63).symm
  let a : Accumulator kind := .ofPrefix leaves leaves.length
  have ha : Accumulator.ofLeaves leaves = .ok a := Accumulator.ofLeaves_eq_ofPrefix hleaves
  have hroot : a.root = treeNode kind.node .accumulatorPlaceholder leaves (height leaves) 0 :=
    root_prefixForest kind.node .accumulatorPlaceholder leaves
  have hok := verify_ofLevels_root hmax hle hlast kind
  rw [← hroot] at hok
  refine ⟨a, ha, hok, fun run proof hlength hleft hright hne hfree => ?_⟩
  obtain ⟨hbetween, hleftMax, hrightMax, hend, hsize⟩ := bounds_ofLevels hmax hle hlast kind
  obtain ⟨hhonest, hvalue⟩ := run_of_verify hbetween hok
  obtain ⟨t, hrun, hshape⟩ := run_of_lengths hlength.symm hleft.symm hright.symm hhonest
  have hrunNe : run ≠ [] := by
    rw [← List.length_pos_iff, hlength]
    exact List.length_pos_iff.2 hbetween
  rw [computation_of_run hrun] at hfree ⊢
  have hindex : first + (run.length - 1) < UInt64.size := by
    rw [hlength, hend]
    exact hsize
  rw [verify_of_run hrunNe (hleft ▸ hleftMax) (hright ▸ hrightMax) hindex hrun a.root]
  refine if_neg fun hsame => hne ?_
  have hapart := HashTree.keepsApart_of_collisionFree hfree
    (List.Subset.trans (List.map_subset _
      (within_computation_ofLevels hmax hle hlast kind).pairs_subset)
      (List.subset_append_left _ _)) (List.subset_append_right _ _)
  have hterm := HashTree.eq_of_value_eq hshape hapart (hvalue.trans hsame.symm)
  have hgivens := leaves_of_run hrunNe hrun
  rw [← hterm, leaves_of_run hbetween hhonest] at hgivens
  obtain ⟨rfl, rfl⟩ := eq_of_leaves_eq hlength.symm hleft.symm hgivens
  rfl

/-- The last two of three leaves, with a leaf on their left and a placeholder on their right; and
the same siblings with two others. -/
theorem verify_between_three :
    [Digest.zero, .zero, .zero].length ≤ 2 ^ 63 ∧ 1 ≤ 2 ∧ 2 < [Digest.zero, .zero, .zero].length ∧
      ∃ a : Accumulator .event, Accumulator.ofLeaves [.zero, .zero, .zero] = .ok a ∧
        (⟨[.zero], [.accumulatorPlaceholder]⟩ : RangeProof .event).verify 1 [.zero, .zero] a.root =
          .ok () ∧
        ∃ computed,
          (⟨[.zero], [.accumulatorPlaceholder]⟩ : RangeProof .event).verify 1
              [.zero, .accumulatorPlaceholder] a.root =
            .error (.wrongRoot computed a.root) := by
  have hmax : [Digest.zero, .zero, .zero].length ≤ 2 ^ 63 := by decide
  have hlast : 2 < [Digest.zero, .zero, .zero].length := by decide
  have hproof : ofLevels .event [.zero, .zero, .zero] 1 2 =
      ⟨[.zero], [.accumulatorPlaceholder]⟩ := by decide +kernel
  obtain ⟨a, ha, hok, hother⟩ := verify_between .event hmax (by decide : 1 ≤ 2) hlast
  rw [hproof] at hok hother
  have hne : ([.zero, .accumulatorPlaceholder],
      (⟨[.zero], [.accumulatorPlaceholder]⟩ : RangeProof .event)) ≠
      (between [.zero, .zero, .zero] 1 2, ⟨[.zero], [.accumulatorPlaceholder]⟩) := by decide +kernel
  exact ⟨hmax, by decide, hlast, a, ha, hok, _, hother _ _ rfl rfl rfl hne (by decide +kernel)⟩

end Main
end RangeProof
end VerifiedLedger
