import Mathlib.Data.List.Basic
import VerifiedLedger.Proofs.Forest.Related
/-! # The tree over a list of leaves

Every level of the tree halves the one below. The first leaves of the list have full subtrees of
their own, one for every one bit of their number; these are the peaks that appending the leaves one
by one arrives at.
-/
namespace VerifiedLedger
variable {α β : Type} (node : α → α → α) (placeholder : α)

/-- Node `index` of `level` in the tree over the leaves, which are level 0. Where no leaf is below
a node it is the placeholder, at every level. -/
def treeNode (leaves : List α) : (level index : ℕ) → α
  | 0, index => leaves.getD index placeholder
  | level + 1, index =>
    if leaves.length ≤ index * 2 ^ (level + 1) then placeholder
    else node (treeNode leaves level (2 * index)) (treeNode leaves level (2 * index + 1))

/-- The full subtrees of that many blocks of one level, the smallest and rightmost one first. -/
def peaksOf (block : ℕ → ℕ → α) (level count : ℕ) : List α :=
  if count = 0 then []
  else if count % 2 = 1 then block level (count - 1) :: peaksOf block (level + 1) (count / 2)
  else peaksOf block (level + 1) (count / 2)
termination_by count

/-- The forest of the first `count` leaves. -/
def prefixForest (leaves : List α) (count : ℕ) : Forest α :=
  ⟨peaksOf (treeNode node placeholder leaves) 0 count, count⟩

section Peaks
variable (block : ℕ → ℕ → α) (level : ℕ)

@[simp] theorem peaksOf_zero : peaksOf block level 0 = [] := by
  rw [peaksOf, if_pos rfl]

theorem peaksOf_double (count : ℕ) :
    peaksOf block level (2 * count) = peaksOf block (level + 1) count := by
  rcases Nat.eq_zero_or_pos count with rfl | h
  · simp
  · rw [peaksOf, if_neg (by omega), if_neg (by omega), show 2 * count / 2 = count by omega]

theorem peaksOf_double_add_one (count : ℕ) :
    peaksOf block level (2 * count + 1) =
      block level (2 * count) :: peaksOf block (level + 1) count := by
  rw [peaksOf, if_neg (by omega), if_pos (by omega), show (2 * count + 1) / 2 = count by omega,
    Nat.add_sub_cancel]

theorem peaksOf_two_pow_mul (k count : ℕ) :
    peaksOf block level (2 ^ k * count) = peaksOf block (level + k) count := by
  induction k generalizing level with
  | zero => simp
  | succ k ih =>
    rw [show 2 ^ (k + 1) * count = 2 * (2 ^ k * count) by ring, peaksOf_double, ih,
      Nat.add_right_comm, Nat.add_assoc]

theorem length_peaksOf (count : ℕ) : (peaksOf block level count).length = Bits.ones count := by
  fun_induction peaksOf block level count with
  | case1 => simp
  | case2 level count h0 h1 ih =>
    have hones := Bits.ones_of_pos (Nat.pos_of_ne_zero h0)
    rw [List.length_cons, ih]
    omega
  | case3 level count h0 h1 ih =>
    have hones := Bits.ones_of_pos (Nat.pos_of_ne_zero h0)
    rw [ih]
    omega

end Peaks

section Related
variable {R : α → β → Prop} {node : α → α → α} {node' : β → β → β} {placeholder : α}
  {placeholder' : β}

theorem treeNode_related (hR : Forest.Joins R node node') (h0 : R placeholder placeholder')
    {leaves : List α} {leaves' : List β} (hl : List.Forall₂ R leaves leaves') (level index : ℕ) :
    R (treeNode node placeholder leaves level index)
      (treeNode node' placeholder' leaves' level index) := by
  induction level generalizing index with
  | zero =>
    rw [treeNode, treeNode, List.getD_eq_getElem?_getD, List.getD_eq_getElem?_getD]
    by_cases h : index < leaves.length
    · have h' : index < leaves'.length := hl.length_eq ▸ h
      rw [List.getElem?_eq_getElem h, List.getElem?_eq_getElem h']
      exact hl.get h h'
    · have h' : ¬index < leaves'.length := hl.length_eq ▸ h
      rwa [List.getElem?_eq_none (Nat.le_of_not_lt h), List.getElem?_eq_none (Nat.le_of_not_lt h')]
  | succ level ih =>
    rw [treeNode, treeNode, ← hl.length_eq]
    by_cases h : leaves.length ≤ index * 2 ^ (level + 1)
    · rwa [if_pos h, if_pos h]
    · rw [if_neg h, if_neg h]
      exact hR (ih _) (ih _)

theorem peaksOf_related {block : ℕ → ℕ → α} {block' : ℕ → ℕ → β}
    (hb : ∀ level index, R (block level index) (block' level index)) (level count : ℕ) :
    List.Forall₂ R (peaksOf block level count) (peaksOf block' level count) := by
  fun_induction peaksOf block level count with
  | case1 =>
    rw [peaksOf_zero]
    exact .nil
  | case2 level count h0 h1 ih =>
    rw [peaksOf.eq_def block' level count, if_neg h0, if_pos h1]
    exact .cons (hb _ _) ih
  | case3 level count h0 h1 ih =>
    rwa [peaksOf.eq_def block' level count, if_neg h0, if_neg h1]

end Related

variable {node placeholder}

/-- Below `total` leaves every node is the parent of its two children. -/
def FullBlocks (node : α → α → α) (block : ℕ → ℕ → α) (total : ℕ) : Prop :=
  ∀ level index, (index + 1) * 2 ^ (level + 1) ≤ total →
    block (level + 1) index = node (block level (2 * index)) (block level (2 * index + 1))

theorem treeNode_fullBlocks (leaves : List α) :
    FullBlocks node (treeNode node placeholder leaves) leaves.length := by
  intro level index h
  have hpos := Nat.two_pow_pos (level + 1)
  rw [Nat.succ_mul] at h
  rw [treeNode, if_neg (by omega)]

/-- The carry. The next block of a level completes one subtree for every trailing one bit of the
count of blocks before it. -/
theorem merge_peaksOf {block : ℕ → ℕ → α} {total : ℕ} (hblock : FullBlocks node block total)
    (level count : ℕ) (h : (count + 1) * 2 ^ level ≤ total) :
    Forest.merge node (Bits.trailingOnes count) (block level count) (peaksOf block level count) =
      some (peaksOf block level (count + 1)) := by
  induction count using Nat.strong_induction_on generalizing level with
  | _ count ih =>
    rcases Nat.mod_two_eq_zero_or_one count with h2 | h2
    · obtain ⟨half, rfl⟩ : ∃ half, count = 2 * half := ⟨count / 2, by omega⟩
      rw [Bits.trailingOnes_of_even h2, Forest.merge, peaksOf_double_add_one, peaksOf_double]
    · obtain ⟨half, rfl⟩ : ∃ half, count = 2 * half + 1 := ⟨count / 2, by omega⟩
      have hparent : (half + 1) * 2 ^ (level + 1) ≤ total := by
        rw [show (half + 1) * 2 ^ (level + 1) = (2 * half + 1 + 1) * 2 ^ level by ring]
        exact h
      rw [Bits.trailingOnes_of_odd h2, show (2 * half + 1) / 2 = half by omega,
        peaksOf_double_add_one, Forest.merge, ← hblock level half hparent,
        ih half (by omega) (level + 1) hparent,
        show 2 * half + 1 + 1 = 2 * (half + 1) by omega, peaksOf_double]

variable (node placeholder)

theorem addBlock_prefixForest {leaves : List α} (level : ℕ) {count : ℕ} (hd : 2 ^ level ∣ count)
    (h : count + 2 ^ level ≤ leaves.length) :
    (prefixForest node placeholder leaves count).addBlock node (2 ^ level)
        (treeNode node placeholder leaves level (count / 2 ^ level)) =
      some (prefixForest node placeholder leaves (count + 2 ^ level)) := by
  obtain ⟨blocks, rfl⟩ := hd
  have hdiv : 2 ^ level * blocks / 2 ^ level = blocks :=
    Nat.mul_div_cancel_left blocks (Nat.two_pow_pos level)
  have hsum : 2 ^ level * blocks + 2 ^ level = 2 ^ level * (blocks + 1) := by ring
  rw [hsum] at h
  refine Forest.addBlock_eq_some_iff.2 ⟨?_, rfl⟩
  simp only [prefixForest, hdiv, hsum, peaksOf_two_pow_mul, Nat.zero_add]
  exact merge_peaksOf (treeNode_fullBlocks leaves) level blocks (by rwa [Nat.mul_comm])

theorem append_prefixForest {leaves : List α} {count : ℕ} (h : count < leaves.length)
    (hmax : leaves.length ≤ Forest.maxLeaves) :
    (prefixForest node placeholder leaves count).append node leaves[count] =
      .ok (prefixForest node placeholder leaves (count + 1)) := by
  have hb := addBlock_prefixForest node placeholder 0 (one_dvd count)
    (by omega : count + 2 ^ 0 ≤ leaves.length)
  rw [Nat.pow_zero, Nat.div_one, treeNode, List.getD_eq_getElem?_getD,
    List.getElem?_eq_getElem h, Option.getD_some] at hb
  exact Forest.append_eq_ok_iff.2 ⟨h.trans_le hmax, hb⟩

theorem appendAll_prefixForest {leaves : List α} (hmax : leaves.length ≤ Forest.maxLeaves)
    {count more : ℕ} (h : count + more ≤ leaves.length) :
    (prefixForest node placeholder leaves count).appendAll node
        ((leaves.drop count).take more) =
      .ok (prefixForest node placeholder leaves (count + more)) := by
  induction more generalizing count with
  | zero => simp
  | succ more ih =>
    rw [List.drop_eq_getElem_cons (by omega), List.take_succ_cons,
      Forest.appendAll_cons_eq_ok_iff]
    refine ⟨_, append_prefixForest node placeholder (by omega) hmax, ?_⟩
    rw [ih (by omega), Nat.add_assoc, Nat.add_comm 1 more]

/-- Appending the first leaves of a list one by one gives their forest in the tree over it. -/
theorem ofLeaves_take {leaves : List α} (hmax : leaves.length ≤ Forest.maxLeaves) {count : ℕ}
    (h : count ≤ leaves.length) :
    Forest.ofLeaves node (leaves.take count) = .ok (prefixForest node placeholder leaves count) := by
  have ha := appendAll_prefixForest node placeholder hmax (by omega : 0 + count ≤ leaves.length)
  rwa [List.drop_zero, Nat.zero_add, prefixForest, peaksOf_zero] at ha

theorem ofLeaves_eq_prefixForest {leaves : List α} (hmax : leaves.length ≤ Forest.maxLeaves) :
    Forest.ofLeaves node leaves = .ok (prefixForest node placeholder leaves leaves.length) := by
  have h := ofLeaves_take node placeholder hmax le_rfl
  rwa [List.take_length] at h

end VerifiedLedger
