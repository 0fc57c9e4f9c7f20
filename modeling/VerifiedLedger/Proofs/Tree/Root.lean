import Mathlib.Data.Nat.Log
import VerifiedLedger.Proofs.Tree.Prefix
/-! # The root of a tree

The peaks are hashed together from the right, with a placeholder wherever nothing is to the right.
The nodes on the way are the last ones of their levels, so that it arrives at the one node of the
lowest level that is above all the leaves.
-/
namespace VerifiedLedger
variable {α : Type} {node : α → α → α} {placeholder : α} {leaves : List α} {level index half : ℕ}

/-- The levels above the leaves. -/
def height (leaves : List α) : ℕ := Nat.clog 2 leaves.length

theorem height_eq (hfew : leaves.length ≤ 2 ^ level) (hmany : 2 ^ level < 2 * leaves.length) :
    height leaves = level := by
  refine le_antisymm (Nat.clog_le_of_le_pow hfew) ?_
  cases level with
  | zero => exact Nat.zero_le _
  | succ level =>
    rw [Nat.pow_succ'] at hmany
    exact (Nat.lt_clog_iff_pow_lt Nat.one_lt_two).2 (by omega)

theorem lt_two_pow_height (h : index < leaves.length) : index < 2 ^ height leaves :=
  h.trans_le (Nat.le_pow_clog Nat.one_lt_two _)

section Nodes

theorem treeNode_of_length_le (h : leaves.length ≤ index * 2 ^ level) :
    treeNode node placeholder leaves level index = placeholder := by
  cases level with
  | zero =>
    rw [Nat.pow_zero, Nat.mul_one] at h
    rw [treeNode, List.getD_eq_getElem?_getD, List.getElem?_eq_none h, Option.getD_none]
  | succ level => rw [treeNode, if_pos h]

theorem treeNode_succ (node : α → α → α) (placeholder : α)
    (h : index * 2 ^ (level + 1) < leaves.length) :
    treeNode node placeholder leaves (level + 1) index =
      node (treeNode node placeholder leaves level (2 * index))
        (treeNode node placeholder leaves level (2 * index + 1)) := by
  rw [treeNode, if_neg (Nat.not_le_of_lt h)]

end Nodes

/-- There are leaves below the node, and none to the right of them. -/
structure LastNode (leaves : List α) (level index : ℕ) : Prop where
  first_lt : index * 2 ^ level < leaves.length
  length_le : leaves.length ≤ (index + 1) * 2 ^ level

namespace LastNode

theorem of_left (h : LastNode leaves level (2 * half)) : LastNode leaves (level + 1) half := by
  obtain ⟨hfirst, hlength⟩ := h
  constructor
  · rwa [show half * 2 ^ (level + 1) = 2 * half * 2 ^ level by ring]
  · rw [show (half + 1) * 2 ^ (level + 1) = (2 * half + 1) * 2 ^ level + 2 ^ level by ring]
    exact Nat.le_add_right_of_le hlength

theorem of_right (h : LastNode leaves level (2 * half + 1)) : LastNode leaves (level + 1) half := by
  obtain ⟨hfirst, hlength⟩ := h
  constructor
  · rw [show (2 * half + 1) * 2 ^ level = half * 2 ^ (level + 1) + 2 ^ level by ring] at hfirst
    exact Nat.lt_of_add_right_lt hfirst
  · rwa [show (half + 1) * 2 ^ (level + 1) = (2 * half + 1 + 1) * 2 ^ level by ring]

theorem treeNode_of_left (node : α → α → α) (placeholder : α)
    (h : LastNode leaves level (2 * half)) :
    treeNode node placeholder leaves (level + 1) half =
      node (treeNode node placeholder leaves level (2 * half)) placeholder := by
  rw [treeNode_succ node placeholder h.of_left.first_lt, treeNode_of_length_le h.length_le]

theorem two_pow_lt (h : LastNode leaves level index) (hpos : 0 < index) :
    2 ^ (level + 1) < 2 * leaves.length := by
  have hle := Nat.le_mul_of_pos_left (2 ^ level) hpos
  have hfirst := h.first_lt
  rw [Nat.pow_succ']
  omega

end LastNode

/-- The bits that are left on the way up count the nodes before the current one. -/
theorem foldPeaks_treeNode (hlast : LastNode leaves level index)
    (hmany : 2 ^ level < 2 * leaves.length) :
    Forest.foldPeaks node placeholder index
        (peaksOf (treeNode node placeholder leaves) level index)
        (treeNode node placeholder leaves level index) =
      treeNode node placeholder leaves (height leaves) 0 := by
  -- One level up there are half as many nodes to the left.
  induction index using Nat.strong_induction_on generalizing level with
  | _ index ih =>
    rcases Nat.eq_zero_or_pos index with rfl | hpos
    · have hfew : leaves.length ≤ 2 ^ level := by
        have h := hlast.length_le
        rwa [Nat.zero_add, Nat.one_mul] at h
      rw [Forest.foldPeaks_zero, height_eq hfew hmany]
    · have hgrow := hlast.two_pow_lt hpos
      rcases Nat.mod_two_eq_zero_or_one index with h2 | h2
      · obtain ⟨half, rfl⟩ : ∃ half, index = 2 * half := ⟨index / 2, by omega⟩
        rw [Forest.foldPeaks_even (by omega) (by omega), show 2 * half / 2 = half by omega,
          peaksOf_double, ← hlast.treeNode_of_left node placeholder]
        exact ih half (by omega) hlast.of_left hgrow
      · obtain ⟨half, rfl⟩ : ∃ half, index = 2 * half + 1 := ⟨index / 2, by omega⟩
        rw [peaksOf_double_add_one, Forest.foldPeaks_cons (by omega),
          show (2 * half + 1) / 2 = half by omega,
          ← treeNode_succ node placeholder hlast.of_right.first_lt]
        exact ih half (by omega) hlast.of_right hgrow

theorem peaksOf_ne_nil (block : ℕ → ℕ → α) {count : ℕ} (h : 0 < count) :
    peaksOf block level count ≠ [] := by
  fun_induction peaksOf block level count with
  | case1 => exact absurd h (Nat.lt_irrefl 0)
  | case2 => exact List.cons_ne_nil _ _
  | case3 level count h0 h1 ih => exact ih (by omega)

theorem Forest.root_cons {peak : α} {peaks : List α} (h : peaks ≠ []) (count : ℕ) :
    Forest.root node placeholder ⟨peak :: peaks, count⟩ =
      foldPeaks node placeholder (count >>> Bits.trailingZeros count) (peak :: peaks)
        placeholder := by
  cases peaks with
  | nil => exact absurd rfl h
  | cons second rest => rfl

/-- The smallest peak is the last node of its level and begins the way up. -/
theorem root_prefixForest (node : α → α → α) (placeholder : α) (leaves : List α) :
    (prefixForest node placeholder leaves leaves.length).root node placeholder =
      treeNode node placeholder leaves (height leaves) 0 := by
  rcases Nat.eq_zero_or_pos leaves.length with hzero | hpos
  · rw [prefixForest, hzero, peaksOf_zero, treeNode_of_length_le (by omega)]
    rfl
  · obtain ⟨hcount, hodd⟩ := Bits.eq_two_pow_trailingZeros_mul (Nat.ne_of_gt hpos)
    generalize hlevel : Bits.trailingZeros leaves.length = level at hcount hodd
    obtain ⟨half, hhalf⟩ : ∃ half, leaves.length / 2 ^ level = 2 * half + 1 :=
      ⟨leaves.length / 2 ^ level / 2, by omega⟩
    rw [hhalf, Nat.mul_comm] at hcount
    have hpow := Nat.two_pow_pos level
    have hpeaks : peaksOf (treeNode node placeholder leaves) 0 leaves.length =
        treeNode node placeholder leaves level (2 * half) ::
          peaksOf (treeNode node placeholder leaves) (level + 1) half := by
      rw [hcount, Nat.mul_comm, peaksOf_two_pow_mul, Nat.zero_add, peaksOf_double_add_one]
    rcases Nat.eq_zero_or_pos half with rfl | hhalf_pos
    · have hheight : height leaves = level := height_eq (by omega) (by omega)
      rw [prefixForest, hpeaks, peaksOf_zero, hheight]
      rfl
    · have hlast : LastNode leaves level (2 * half) :=
        ⟨by rw [hcount]; exact Nat.mul_lt_mul_of_pos_right (Nat.lt_succ_self _) hpow, hcount.le⟩
      rw [prefixForest, hpeaks, Forest.root_cons (peaksOf_ne_nil _ hhalf_pos),
        Nat.shiftRight_eq_div_pow, hlevel, hhalf, Forest.foldPeaks_cons (by omega),
        show (2 * half + 1) / 2 = half by omega, ← hlast.treeNode_of_left node placeholder]
      exact foldPeaks_treeNode hlast.of_left (hlast.two_pow_lt (by omega))

theorem Forest.treeTerm_eq_treeNode (hmax : leaves.length ≤ maxLeaves) :
    treeTerm leaves =
      treeNode .node .placeholder (leaves.map HashTree.given) (height leaves) 0 := by
  have hlength : (leaves.map HashTree.given).length = leaves.length := List.length_map _
  have hroot := root_prefixForest HashTree.node HashTree.placeholder (leaves.map .given)
  rwa [height, hlength, ← treeTerm_eq hmax] at hroot

end VerifiedLedger
