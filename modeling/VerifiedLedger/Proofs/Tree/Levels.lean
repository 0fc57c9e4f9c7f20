import Mathlib.Data.Nat.BitIndices
import VerifiedLedger.Proofs.Accumulator.Growth
import VerifiedLedger.Proofs.Accumulator.RangePaths
import VerifiedLedger.Proofs.Tree.Root
/-! # The tree built level by level

The tree over a list of leaves, built without a forest: a level is padded to an even length and
paired up until one node is left. The forest of the leaves has the roots of the perfect trees over
blocks of them, and its root is that one node.
-/
namespace VerifiedLedger
variable {α : Type} {node : α → α → α} {placeholder : α} {leaves : List α} {level : ℕ}

/-- The root of a perfect tree over the leaves, joined from two halves of them. -/
inductive PerfectRoot (node : α → α → α) : List α → α → Prop
  | leaf (a : α) : PerfectRoot node [a] a
  | join {xs ys : List α} {a b : α} (hx : PerfectRoot node xs a) (hy : PerfectRoot node ys b)
      (hlength : xs.length = ys.length) : PerfectRoot node (xs ++ ys) (node a b)

section Parents
variable (node placeholder)

/-- The level with a placeholder behind it if it is odd. -/
def padded (nodes : List α) : List α :=
  if nodes.length % 2 = 1 then nodes ++ [placeholder] else nodes

def parents (nodes : List α) : List α := RangeProof.pairUp node (padded placeholder nodes)

theorem length_padded (nodes : List α) :
    (padded placeholder nodes).length = nodes.length + nodes.length % 2 := by
  unfold padded
  split
  · next h => rw [List.length_append, List.length_singleton, h]
  · next h => omega

theorem length_parents (nodes : List α) :
    (parents node placeholder nodes).length = (nodes.length + 1) / 2 := by
  rw [parents, RangeProof.length_pairUp, length_padded]
  omega

/-- The root of the levels over this one. -/
def levelRoot : List α → α
  | [] => placeholder
  | [root] => root
  | first :: second :: rest => levelRoot (parents node placeholder (first :: second :: rest))
termination_by nodes => nodes.length
decreasing_by
  rw [length_parents, List.length_cons, List.length_cons]
  omega

/-- That many levels over this one. -/
def levelAbove (nodes : List α) : (level : ℕ) → List α
  | 0 => nodes
  | level + 1 => levelAbove (parents node placeholder nodes) level

/-- Past its end a padded level would go on with placeholders. -/
theorem padded_getElem? {nodes : List α} {i : ℕ} (h : i < nodes.length + nodes.length % 2) :
    (padded placeholder nodes)[i]? = some (nodes.getD i placeholder) := by
  unfold padded
  rw [List.getD_eq_getElem?_getD]
  rcases Nat.lt_or_ge i nodes.length with hlt | hge
  · have hinside : nodes[i]? = some nodes[i] := List.getElem?_eq_getElem hlt
    split
    · rw [List.getElem?_append_left hlt, hinside, Option.getD_some]
    · rw [hinside, Option.getD_some]
  · have hi : i = nodes.length := by omega
    rw [if_pos (by omega), hi, List.getElem?_concat_length, List.getElem?_length, Option.getD_none]

variable {node placeholder}

theorem getD_parents (nodes : List α) (i : ℕ) :
    (parents node placeholder nodes).getD i placeholder =
      if nodes.length ≤ 2 * i then placeholder
      else node (nodes.getD (2 * i) placeholder) (nodes.getD (2 * i + 1) placeholder) := by
  rw [List.getD_eq_getElem?_getD]
  by_cases h : nodes.length ≤ 2 * i
  · have hlength : (parents node placeholder nodes).length ≤ i := by
      rw [length_parents]
      omega
    rw [if_pos h, List.getElem?_eq_none hlength, Option.getD_none]
  · have hleft := padded_getElem? placeholder
      (by omega : 2 * i < nodes.length + nodes.length % 2)
    have hright := padded_getElem? placeholder
      (by omega : 2 * i + 1 < nodes.length + nodes.length % 2)
    rw [if_neg h, parents, RangeProof.pairUp_getElem? hleft hright, Option.getD_some]

end Parents

section Root

/-- A node of the tree is a node of the tree over the parents, one level lower. -/
theorem treeNode_parents (leaves : List α) (level index : ℕ) :
    treeNode node placeholder (parents node placeholder leaves) level index =
      treeNode node placeholder leaves (level + 1) index := by
  induction level generalizing index with
  | zero =>
    rw [treeNode, treeNode, getD_parents, Nat.mul_comm 2 index]
    rfl
  | succ level ih =>
    have hsame : (leaves.length + 1) / 2 ≤ index * 2 ^ (level + 1) ↔
        leaves.length ≤ index * 2 ^ (level + 2) := by
      rw [show index * 2 ^ (level + 2) = 2 * (index * 2 ^ (level + 1)) by ring]
      omega
    rw [treeNode, treeNode, length_parents, ih, ih]
    exact if_congr hsame rfl rfl

theorem getD_levelAbove (node : α → α → α) (placeholder : α) (leaves : List α) (level index : ℕ) :
    (levelAbove node placeholder leaves level).getD index placeholder =
      treeNode node placeholder leaves level index := by
  induction level generalizing leaves with
  | zero => rfl
  | succ level ih => rw [levelAbove, ih, treeNode_parents]

theorem height_parents (h : 2 ≤ leaves.length) :
    height (parents node placeholder leaves) + 1 = height leaves := by
  rw [height, height, length_parents]
  exact (Nat.clog_of_two_le Nat.one_lt_two h).symm

theorem levelRoot_eq_treeNode (node : α → α → α) (placeholder : α) (leaves : List α) :
    levelRoot node placeholder leaves = treeNode node placeholder leaves (height leaves) 0 := by
  fun_induction levelRoot node placeholder leaves with
  | case1 => rw [treeNode_of_length_le (Nat.zero_le _)]
  | case2 root =>
    have hheight : height [root] = 0 := Nat.clog_one_right 2
    rw [hheight]
    rfl
  | case3 first second rest ih =>
    have htwo : 2 ≤ (first :: second :: rest).length := Nat.le_add_left 2 rest.length
    rw [ih, treeNode_parents, height_parents htwo]

end Root

section Blocks

/-- The leaves below a node of the tree. -/
def block (leaves : List α) (level index : ℕ) : List α :=
  (leaves.drop (index * 2 ^ level)).take (2 ^ level)

theorem block_succ (leaves : List α) (level index : ℕ) :
    block leaves (level + 1) index =
      block leaves level (2 * index) ++ block leaves level (2 * index + 1) := by
  have hsize : 2 ^ (level + 1) = 2 ^ level + 2 ^ level := Nat.two_pow_succ level
  have hstart : index * 2 ^ (level + 1) = 2 * index * 2 ^ level := by ring
  have hnext : 2 * index * 2 ^ level + 2 ^ level = (2 * index + 1) * 2 ^ level := by ring
  rw [block, block, block, hstart, hsize, List.take_add, List.drop_drop, hnext]

theorem length_block {index : ℕ} (h : (index + 1) * 2 ^ level ≤ leaves.length) :
    (block leaves level index).length = 2 ^ level := by
  rw [Nat.succ_mul] at h
  rw [block, List.length_take, List.length_drop]
  omega

theorem perfectRoot_treeNode {index : ℕ} (h : (index + 1) * 2 ^ level ≤ leaves.length) :
    PerfectRoot node (block leaves level index) (treeNode node placeholder leaves level index) := by
  induction level generalizing index with
  | zero =>
    have hindex : index < leaves.length := by omega
    have hblock : block leaves 0 index = [leaves[index]] := by
      rw [block, Nat.pow_zero, Nat.mul_one, List.drop_eq_getElem_cons hindex]
      rfl
    rw [hblock, treeNode, List.getD_eq_getElem?_getD, List.getElem?_eq_getElem hindex]
    exact .leaf leaves[index]
  | succ level ih =>
    have hright : (2 * index + 1 + 1) * 2 ^ level ≤ leaves.length := by
      rwa [show (2 * index + 1 + 1) * 2 ^ level = (index + 1) * 2 ^ (level + 1) by ring]
    have hleft : (2 * index + 1) * 2 ^ level ≤ leaves.length :=
      (Nat.mul_le_mul_right _ (Nat.le_succ _)).trans hright
    rw [block_succ, treeNode_fullBlocks leaves level index h]
    exact .join (ih hleft) (ih hright) ((length_block hleft).trans (length_block hright).symm)

/-- From left to right the roots of perfect trees over blocks of the leaves, one block for every one
bit of their number and the largest first. -/
structure PerfectBlocks (node : α → α → α) (leaves : List α) (blocks : List (List α))
    (roots : List α) : Prop where
  flatten_eq : blocks.flatten = leaves
  lengths_eq : blocks.map List.length = leaves.length.bitIndices.reverse.map (2 ^ ·)
  roots : List.Forall₂ (PerfectRoot node) blocks roots

/-- The leaves below the peaks of so many nodes of a level, from left to right. -/
def blockSizes (level count : ℕ) : List ℕ :=
  count.bitIndices.reverse.map fun bit => 2 ^ (bit + level)

theorem blockSizes_zero (level : ℕ) : blockSizes level 0 = [] := by
  rw [blockSizes, Nat.bitIndices_zero, List.reverse_nil, List.map_nil]

theorem blockSizes_double (level count : ℕ) :
    blockSizes level (2 * count) = blockSizes (level + 1) count := by
  rw [blockSizes, blockSizes, Nat.bitIndices_two_mul, ← List.map_reverse, List.map_map]
  congr 1
  funext bit
  rw [Function.comp_apply, Nat.add_right_comm, Nat.add_assoc]

theorem blockSizes_double_add_one (level count : ℕ) :
    blockSizes level (2 * count + 1) = blockSizes (level + 1) count ++ [2 ^ level] := by
  rw [← blockSizes_double, blockSizes, blockSizes, Nat.bitIndices_two_mul_add_one,
    Nat.bitIndices_two_mul, List.reverse_cons, List.map_append, List.map_singleton, Nat.zero_add]

/-- The peaks of a level are cut off at the one bits of their number; the lowest one is the last. -/
theorem exists_blocks (node : α → α → α) (placeholder : α) (level : ℕ) {count : ℕ}
    (h : count * 2 ^ level ≤ leaves.length) :
    ∃ blocks, blocks.flatten = leaves.take (count * 2 ^ level) ∧
      blocks.map List.length = blockSizes level count ∧
      List.Forall₂ (PerfectRoot node) blocks
        (peaksOf (treeNode node placeholder leaves) level count).reverse := by
  induction count using Nat.strong_induction_on generalizing level with
  | _ count ih =>
    rcases Nat.eq_zero_or_pos count with rfl | hpos
    · rw [Nat.zero_mul, List.take_zero, blockSizes_zero, peaksOf_zero, List.reverse_nil]
      exact ⟨[], rfl, rfl, .nil⟩
    · rcases Nat.mod_two_eq_zero_or_one count with h2 | h2
      · obtain ⟨half, rfl⟩ : ∃ half, count = 2 * half := ⟨count / 2, by omega⟩
        have hhalf : 2 * half * 2 ^ level = half * 2 ^ (level + 1) := by ring
        rw [hhalf] at h
        rw [hhalf, blockSizes_double, peaksOf_double]
        exact ih half (by omega) (level + 1) h
      · obtain ⟨half, rfl⟩ : ∃ half, count = 2 * half + 1 := ⟨count / 2, by omega⟩
        have hhalf : 2 * half * 2 ^ level = half * 2 ^ (level + 1) := by ring
        have hsum : (2 * half + 1) * 2 ^ level = 2 * half * 2 ^ level + 2 ^ level := by ring
        have hbefore : half * 2 ^ (level + 1) ≤ leaves.length := by
          rw [← hhalf]
          exact Nat.le_of_add_right_le (hsum.symm.trans_le h)
        obtain ⟨blocks, hflatten, hlengths, hroots⟩ := ih half (by omega) (level + 1) hbefore
        refine ⟨blocks ++ [block leaves level (2 * half)], ?_, ?_, ?_⟩
        · rw [List.flatten_append, hflatten, ← hhalf, List.flatten_singleton, hsum, List.take_add]
          rfl
        · rw [List.map_append, hlengths, List.map_singleton, length_block h,
            blockSizes_double_add_one]
        · rw [peaksOf_double_add_one, List.reverse_cons]
          exact List.rel_append hroots (.cons (perfectRoot_treeNode h) .nil)

theorem exists_perfectBlocks (node : α → α → α) (placeholder : α) (leaves : List α) :
    ∃ blocks, PerfectBlocks node leaves blocks
      (prefixForest node placeholder leaves leaves.length).peaks.reverse := by
  have hall : leaves.length * 2 ^ 0 ≤ leaves.length := (Nat.mul_one _).le
  obtain ⟨blocks, hflatten, hlengths, hroots⟩ := exists_blocks node placeholder 0 hall
  rw [Nat.pow_zero, Nat.mul_one, List.take_length] at hflatten
  exact ⟨blocks, hflatten, hlengths, hroots⟩

end Blocks

namespace Accumulator
variable {kind : AccumulatorKind}

/-- Leaves appended one by one end in the tree that is built of them level by level. -/
theorem ofLeaves_eq_levels (leaves : List Digest) (h : leaves.length ≤ 2 ^ 63) :
    ∃ a : Accumulator kind, ofLeaves leaves = .ok a ∧ a.leafCount = leaves.length ∧
      (∃ blocks, PerfectBlocks kind.node leaves blocks a.subtrees) ∧
      a.root = levelRoot kind.node .accumulatorPlaceholder leaves := by
  have hmax : leaves.length ≤ Forest.maxLeaves := h.trans_eq (Nat.one_shiftLeft 63).symm
  refine ⟨ofPrefix leaves leaves.length, ofLeaves_eq_ofPrefix hmax, rfl, ?_, ?_⟩
  · exact exists_perfectBlocks kind.node .accumulatorPlaceholder leaves
  · rw [levelRoot_eq_treeNode]
    exact root_prefixForest kind.node .accumulatorPlaceholder leaves

/-- Five leaves make a block of four and a block of one. -/
theorem ofLeaves_eq_levels_five :
    (List.replicate 5 Digest.zero).length ≤ 2 ^ 63 ∧
      ∃ a : Accumulator .transaction, ofLeaves (List.replicate 5 .zero) = .ok a ∧
        a.leafCount = (List.replicate 5 Digest.zero).length ∧
        (∃ blocks, PerfectBlocks AccumulatorKind.transaction.node (List.replicate 5 .zero) blocks
          a.subtrees) ∧
        a.root =
          levelRoot AccumulatorKind.transaction.node .accumulatorPlaceholder
            (List.replicate 5 .zero) :=
  ⟨by decide, ofLeaves_eq_levels (List.replicate 5 .zero) (by decide)⟩

end Accumulator
end VerifiedLedger
