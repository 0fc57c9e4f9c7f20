import Mathlib.Data.List.Induction
import VerifiedLedger.Proofs.Accumulator.LeafPaths
import VerifiedLedger.Proofs.Tree.Climb
import VerifiedLedger.Proofs.Tree.Root
/-! # Paths in a tree

A path that is hashed up to a node of the tree passes through nodes of the tree, whatever siblings
it is given, as long as a node shows whether it is a parent, a leaf or a placeholder. So a path that
begins in a leaf is as long as the tree is high and its index is the place of the leaf.
-/
namespace VerifiedLedger
variable {α : Type} {node : α → α → α} {empty : α}

/-- Parents of different pairs differ, and parents, leaves and the placeholder are told apart. -/
structure Separates (node : α → α → α) (empty : α) (hashed : α × α → Prop) (leaf : α → Prop) :
    Prop where
  apart : ∀ p q, hashed p → hashed q → node p.1 p.2 = node q.1 q.2 → p = q
  parent_ne_empty : ∀ p, hashed p → node p.1 p.2 ≠ empty
  parent_not_leaf : ∀ p, hashed p → ¬leaf (node p.1 p.2)
  empty_not_leaf : ¬leaf empty

theorem indexSteps_concat (index : ℕ) (siblings : List α) (sibling : α) :
    indexSteps index (siblings ++ [sibling]) =
      indexSteps index siblings ++ [(index / 2 ^ siblings.length % 2 == 1, sibling)] := by
  induction siblings generalizing index with
  | nil => simp [indexSteps]
  | cons first siblings ih =>
    rw [List.cons_append, indexSteps, ih, Nat.div_div_eq_div_mul, ← Nat.pow_succ']
    rfl

/-- Climbs along related siblings end in related nodes. -/
theorem climb_related {β : Type} {R : α → β → Prop} {node' : β → β → β}
    (hR : Forest.Joins R node node') {a : α} {a' : β} (ha : R a a') {siblings : List α}
    {siblings' : List β} (hs : List.Forall₂ R siblings siblings') (index : ℕ) :
    R (climb node a (indexSteps index siblings)) (climb node' a' (indexSteps index siblings')) := by
  induction hs generalizing a a' index with
  | nil => exact ha
  | cons hsibling _ ih =>
    rw [indexSteps, indexSteps]
    refine ih ?_ (index / 2)
    cases index % 2 == 1 with
    | false => exact hR ha hsibling
    | true => exact hR hsibling ha

/-- From a term that was climbed up to, its start and the siblings can be told. -/
theorem eq_of_climb_eq {t t' : HashTree α} {siblings siblings' : List (HashTree α)} {index : ℕ}
    (hlength : siblings.length = siblings'.length)
    (h : climb .node t (indexSteps index siblings) = climb .node t' (indexSteps index siblings')) :
    t = t' ∧ siblings = siblings' := by
  induction siblings generalizing t t' siblings' index with
  | nil =>
    obtain rfl := List.eq_nil_of_length_eq_zero hlength.symm
    exact ⟨h, rfl⟩
  | cons sibling siblings ih =>
    cases siblings' with
    | nil => cases hlength
    | cons sibling' siblings' =>
      rw [indexSteps, indexSteps] at h
      obtain ⟨hjoin, rfl⟩ := ih (Nat.succ.inj hlength) h
      cases hright : index % 2 == 1 with
      | false =>
        rw [hright] at hjoin
        obtain ⟨rfl, rfl⟩ := HashTree.node.inj hjoin
        exact ⟨rfl, rfl⟩
      | true =>
        rw [hright] at hjoin
        obtain ⟨rfl, rfl⟩ := HashTree.node.inj hjoin
        exact ⟨rfl, rfl⟩

/-- How a node of the tree is hashed from the leaves below it. -/
def nodeTerm (leaves : List α) (level index : ℕ) : HashTree α :=
  treeNode .node .placeholder (leaves.map .given) level index

section Nodes
variable {leaves : List α} {level index : ℕ}

theorem value_nodeTerm :
    (nodeTerm leaves level index).value node empty = treeNode node empty leaves level index :=
  treeNode_related Forest.joins_value rfl (Forest.forall₂_value_given leaves) level index

theorem nodeTerm_succ (h : index * 2 ^ (level + 1) < leaves.length) :
    nodeTerm leaves (level + 1) index =
      .node (nodeTerm leaves level (2 * index)) (nodeTerm leaves level (2 * index + 1)) :=
  treeNode_succ _ _ (h.trans_eq (List.length_map _).symm)

theorem mem_pairs_nodeTerm (h : index * 2 ^ (level + 1) < leaves.length) :
    (treeNode node empty leaves level (2 * index),
        treeNode node empty leaves level (2 * index + 1)) ∈
      (nodeTerm leaves (level + 1) index).pairs node empty := by
  rw [nodeTerm_succ h, HashTree.pairs, value_nodeTerm, value_nodeTerm]
  exact List.mem_cons_self

/-- The other child of the same parent. -/
def neighbour (index : ℕ) : ℕ := if index % 2 = 0 then index + 1 else index - 1

/-- The node and its neighbour below one parent, from left to right. -/
theorem children_neighbour (node : α → α → α) (empty : α) (leaves : List α) (level index : ℕ) :
    children (index % 2 == 1) (treeNode node empty leaves level index)
        (treeNode node empty leaves level (neighbour index)) =
      (treeNode node empty leaves level (2 * (index / 2)),
        treeNode node empty leaves level (2 * (index / 2) + 1)) := by
  rcases Nat.mod_two_eq_zero_or_one index with h | h
  · rw [neighbour, if_pos h, h, show 2 * (index / 2) = index by omega]
    rfl
  · rw [neighbour, if_neg (by omega), h, show 2 * (index / 2) + 1 = index by omega,
      show 2 * (index / 2) = index - 1 by omega]
    rfl

/-- Building the parent joins whatever building the node joins. -/
theorem pairs_nodeTerm_subset (h : index / 2 * 2 ^ (level + 1) < leaves.length) :
    (nodeTerm leaves level index).pairs node empty ⊆
      (nodeTerm leaves (level + 1) (index / 2)).pairs node empty := by
  rw [nodeTerm_succ h, HashTree.pairs]
  apply List.subset_cons_of_subset
  rcases Nat.mod_two_eq_zero_or_one index with h2 | h2
  · rw [show 2 * (index / 2) = index by omega]
    exact List.subset_append_left _ _
  · rw [show 2 * (index / 2) + 1 = index by omega]
    exact List.subset_append_right _ _

/-- From the leaf level up, what a leaf is hashed with in the tree itself. -/
def neighbours (node : α → α → α) (empty : α) (leaves : List α) (index level : ℕ) : List α :=
  (List.range level).map fun below =>
    treeNode node empty leaves below (neighbour (index / 2 ^ below))

theorem length_neighbours (node : α → α → α) (empty : α) (leaves : List α) (index level : ℕ) :
    (neighbours node empty leaves index level).length = level := by
  rw [neighbours, List.length_map, List.length_range]

theorem neighbours_succ (node : α → α → α) (empty : α) (leaves : List α) (index level : ℕ) :
    neighbours node empty leaves index (level + 1) =
      neighbours node empty leaves index level ++
        [treeNode node empty leaves level (neighbour (index / 2 ^ level))] := by
  rw [neighbours, List.range_succ, List.map_append, List.map_singleton, neighbours]

theorem neighbours_related {β : Type} {R : α → β → Prop} {node' : β → β → β} {empty' : β}
    {leaves' : List β} (h : ∀ level index, R (treeNode node empty leaves level index)
      (treeNode node' empty' leaves' level index)) (index level : ℕ) :
    List.Forall₂ R (neighbours node empty leaves index level)
      (neighbours node' empty' leaves' index level) := by
  rw [neighbours, neighbours, List.forall₂_map_left_iff, List.forall₂_map_right_iff]
  exact List.forall₂_same.2 fun _ _ => h _ _

/-- The path of a leaf leads through the nodes above it. -/
theorem climb_neighbours (node : α → α → α) (empty : α) (h : index < leaves.length) (level : ℕ) :
    climb node leaves[index] (indexSteps index (neighbours node empty leaves index level)) =
      treeNode node empty leaves level (index / 2 ^ level) := by
  induction level with
  | zero =>
    rw [Nat.pow_zero, Nat.div_one, treeNode, List.getD_eq_getElem?_getD,
      List.getElem?_eq_getElem h]
    rfl
  | succ level ih =>
    have hhalf : index / 2 ^ (level + 1) = index / 2 ^ level / 2 := by
      rw [Nat.div_div_eq_div_mul, Nat.pow_succ]
    have hfirst : index / 2 ^ level / 2 * 2 ^ (level + 1) < leaves.length := by
      rw [← hhalf]
      exact (Nat.div_mul_le_self _ _).trans_lt h
    rw [neighbours_succ, indexSteps_concat, climb_concat, length_neighbours, ih,
      children_neighbour, hhalf, treeNode_succ node empty hfirst]

theorem climb_nodeTerm (h : index < leaves.length) (level : ℕ) :
    climb .node (.given leaves[index]) (indexSteps index
        (neighbours .node .placeholder (leaves.map .given) index level)) =
      nodeTerm leaves level (index / 2 ^ level) := by
  have hgiven : index < (leaves.map HashTree.given).length := h.trans_eq (List.length_map _).symm
  have hclimb := climb_neighbours HashTree.node HashTree.placeholder hgiven level
  rwa [List.getElem_map] at hclimb

end Nodes

section Separate
variable {hashed : α × α → Prop} {leaf : α → Prop} {leaves : List α} {level index : ℕ}
  {siblings : List (HashTree α)} (hsep : Separates node empty hashed leaf)
  (hleaves : ∀ a ∈ leaves, leaf a)
include hsep hleaves

/-- A parent that is a node of the tree has its children there. -/
theorem children_of_parent {p : α × α} (hp : hashed p)
    (htree : ∀ q ∈ (nodeTerm leaves level index).pairs node empty, hashed q)
    (h : node p.1 p.2 = treeNode node empty leaves level index) :
    ∃ below, level = below + 1 ∧ index * 2 ^ (below + 1) < leaves.length ∧
      p = (treeNode node empty leaves below (2 * index),
        treeNode node empty leaves below (2 * index + 1)) := by
  cases level with
  | zero =>
    rw [treeNode, List.getD_eq_getElem?_getD] at h
    by_cases hi : index < leaves.length
    · rw [List.getElem?_eq_getElem hi, Option.getD_some] at h
      exact absurd (h ▸ hleaves _ (List.getElem_mem hi)) (hsep.parent_not_leaf p hp)
    · rw [List.getElem?_eq_none (Nat.le_of_not_lt hi)] at h
      exact absurd h (hsep.parent_ne_empty p hp)
  | succ below =>
    by_cases hi : index * 2 ^ (below + 1) < leaves.length
    · rw [treeNode_succ node empty hi] at h
      exact ⟨below, rfl, hi, hsep.apart _ _ hp (htree _ (mem_pairs_nodeTerm hi)) h⟩
    · rw [treeNode_of_length_le (Nat.le_of_not_lt hi)] at h
      exact absurd h (hsep.parent_ne_empty p hp)

/-- A path up to a node of the tree begins at the node of the tree that many levels below, in the
place that the index says. -/
theorem treeNode_of_climb {t : HashTree α}
    (hpath : ∀ p ∈ (climb .node t (indexSteps index siblings)).pairs node empty, hashed p)
    (htree : ∀ p ∈ (nodeTerm leaves level (index / 2 ^ siblings.length)).pairs node empty, hashed p)
    (hroot : (climb .node t (indexSteps index siblings)).value node empty =
      treeNode node empty leaves level (index / 2 ^ siblings.length)) :
    ∃ below, level = below + siblings.length ∧
      t.value node empty = treeNode node empty leaves below index ∧
      ∀ p ∈ (nodeTerm leaves below index).pairs node empty, hashed p := by
  -- The last sibling is the one below the root, where the tree is known.
  induction siblings using List.reverseRecOn generalizing level with
  | nil =>
    rw [List.length_nil, Nat.pow_zero, Nat.div_one] at htree hroot
    exact ⟨level, rfl, hroot, htree⟩
  | append_singleton siblings sibling ih =>
    have hhalf : index / 2 ^ (siblings ++ [sibling]).length = index / 2 ^ siblings.length / 2 := by
      rw [List.length_append, List.length_singleton, Nat.div_div_eq_div_mul, Nat.pow_succ]
    rw [hhalf] at htree hroot
    rw [indexSteps_concat] at hpath hroot
    have hlast := hpath _ (children_mem_pairs_climb t _ _ sibling)
    rw [climb_concat, HashTree.value] at hroot
    obtain ⟨below, rfl, hfirst, hchildren⟩ := children_of_parent hsep hleaves hlast htree (by
      rw [← hroot]
      cases index / 2 ^ siblings.length % 2 == 1 with
      | false => rfl
      | true => rfl)
    have hsame := children_neighbour node empty leaves below (index / 2 ^ siblings.length)
    obtain ⟨hcurrent, -⟩ := children_inj (hchildren.trans hsame.symm)
    obtain ⟨level, hlevel, hstart, hbelow⟩ :=
      ih (fun p hp => hpath p (pairs_climb_subset t _ _ sibling hp))
        (fun p hp => htree p (pairs_nodeTerm_subset hfirst hp)) hcurrent
    refine ⟨level, ?_, hstart, hbelow⟩
    rw [hlevel, List.length_append, List.length_singleton, Nat.add_assoc]

/-- A path from a leaf to a node of the tree begins at that leaf of the tree. -/
theorem leaf_of_climb {a : α} (ha : leaf a)
    (hpath : ∀ p ∈ (climb .node (.given a) (indexSteps index siblings)).pairs node empty, hashed p)
    (htree : ∀ p ∈ (nodeTerm leaves level (index / 2 ^ siblings.length)).pairs node empty, hashed p)
    (hroot : (climb .node (.given a) (indexSteps index siblings)).value node empty =
      treeNode node empty leaves level (index / 2 ^ siblings.length)) :
    siblings.length = level ∧ leaves[index]? = some a := by
  obtain ⟨below, hlevel, hstart, hbelow⟩ := treeNode_of_climb hsep hleaves hpath htree hroot
  rw [HashTree.value] at hstart
  cases below with
  | zero =>
    refine ⟨by rw [hlevel, Nat.zero_add], ?_⟩
    rw [treeNode, List.getD_eq_getElem?_getD] at hstart
    cases hget : leaves[index]? with
    | none =>
      rw [hget, Option.getD_none] at hstart
      exact absurd (hstart ▸ ha) hsep.empty_not_leaf
    | some b =>
      rw [hget, Option.getD_some] at hstart
      rw [hstart]
  | succ below =>
    by_cases hfirst : index * 2 ^ (below + 1) < leaves.length
    · rw [treeNode_succ node empty hfirst] at hstart
      exact absurd (hstart ▸ ha) (hsep.parent_not_leaf _ (hbelow _ (mem_pairs_nodeTerm hfirst)))
    · rw [treeNode_of_length_le (Nat.le_of_not_lt hfirst)] at hstart
      exact absurd (hstart ▸ ha) hsep.empty_not_leaf

end Separate

end VerifiedLedger
