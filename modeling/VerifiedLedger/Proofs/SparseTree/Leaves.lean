import VerifiedLedger.Proofs.SparseTree.Binding
/-! # The tree over a set of leaves

No leaf is the placeholder, one leaf stands for itself, and more leaves split on the next bit of
their keys. Whoever knows the leaves can walk down along any key until at most one of them is left:
this gives the proof of the key. Any other proof that verifies against the root ends where this one
ends.
-/
namespace VerifiedLedger
variable {α : Type}

section Turns
variable {a b : Digest} {depth : ℕ}

/-- Whether the path of the key goes to the right at the node with that depth. -/
def Digest.turnsRight (key : Digest) (depth : ℕ) : Bool := key.path.toList.getD depth false

theorem Digest.getElem?_path (key : Digest) (h : depth < 256) :
    key.path.toList[depth]? = some (key.turnsRight depth) := by
  have hlt : depth < key.path.toList.length := h.trans_eq key.length_path.symm
  rw [Digest.turnsRight, List.getD_eq_getElem _ _ hlt, List.getElem?_eq_getElem hlt]

theorem Digest.drop_path (key : Digest) (h : depth < 256) :
    key.path.toList.drop depth = key.turnsRight depth :: key.path.toList.drop (depth + 1) := by
  obtain ⟨hlt, hget⟩ := List.getElem?_eq_some_iff.1 (key.getElem?_path h)
  rw [← hget]
  exact List.drop_eq_getElem_cons hlt

theorem Digest.eq_of_turnsRight_eq (h : ∀ depth < 256, a.turnsRight depth = b.turnsRight depth) :
    a = b := by
  apply Digest.eq_of_path_eq
  apply List.ext_getElem?
  intro depth
  by_cases hdepth : depth < 256
  · rw [a.getElem?_path hdepth, b.getElem?_path hdepth, h depth hdepth]
  · rw [List.getElem?_eq_none (a.length_path.trans_le (Nat.le_of_not_lt hdepth)),
      List.getElem?_eq_none (b.length_path.trans_le (Nat.le_of_not_lt hdepth))]

end Turns

/-- The leaves on one side of a node with that depth. -/
def leavesOn (right : Bool) (depth : ℕ) (leaves : List SparseLeaf) : List SparseLeaf :=
  leaves.filter fun leaf => leaf.key.turnsRight depth == right

/-- The keys are distinct and have taken the same turns down to that depth. -/
structure Together (depth : ℕ) (leaves : List SparseLeaf) : Prop where
  nodup : (leaves.map SparseLeaf.key).Nodup
  turnsRight_eq : ∀ a ∈ leaves, ∀ b ∈ leaves, ∀ d < depth,
    a.key.turnsRight d = b.key.turnsRight d

section Together
variable {depth : ℕ} {leaves : List SparseLeaf}

theorem together_zero (h : (leaves.map SparseLeaf.key).Nodup) : Together 0 leaves :=
  ⟨h, nofun⟩

theorem Together.leavesOn (h : Together depth leaves) (right : Bool) :
    Together (depth + 1) (leavesOn right depth leaves) := by
  refine ⟨h.nodup.sublist (List.filter_sublist.map _), ?_⟩
  intro a ha b hb d hd
  obtain ⟨ha, haside⟩ := List.mem_filter.1 ha
  obtain ⟨hb, hbside⟩ := List.mem_filter.1 hb
  rcases Nat.lt_succ_iff_lt_or_eq.1 hd with hd | rfl
  · exact h.turnsRight_eq a ha b hb d hd
  · exact (beq_iff_eq.1 haside).trans (beq_iff_eq.1 hbside).symm

/-- All the turns tell any two keys apart. -/
theorem not_together (hnil : leaves ≠ []) (hone : ∀ leaf, leaves ≠ [leaf]) :
    ¬Together 256 leaves := by
  intro h
  match leaves, hnil, hone with
  | [], hnil, _ => exact hnil rfl
  | [leaf], _, hone => exact hone leaf rfl
  | first :: second :: rest, _, _ =>
    have hsame : first.key = second.key := Digest.eq_of_turnsRight_eq
      (h.turnsRight_eq first List.mem_cons_self second (List.mem_cons_of_mem _ List.mem_cons_self))
    refine (List.nodup_cons.1 h.nodup).1 ?_
    rw [hsame]
    exact List.mem_cons_self

end Together

/-- The node over leaves that have come together as far as that depth. Leaves that no level keeps
apart have one key; in a set with distinct keys there are none. -/
def sparseTree (node : α → α → α) (empty : α) (ofLeaf : SparseLeaf → α) :
    (levels depth : ℕ) → List SparseLeaf → α
  | _, _, [] => empty
  | _, _, [leaf] => ofLeaf leaf
  | 0, _, _ => empty
  | levels + 1, depth, leaves =>
    node (sparseTree node empty ofLeaf levels (depth + 1) (leavesOn false depth leaves))
      (sparseTree node empty ofLeaf levels (depth + 1) (leavesOn true depth leaves))

section Sides
variable {node : α → α → α} {empty : α} {ofLeaf : SparseLeaf → α} {levels depth : ℕ}
  {leaves : List SparseLeaf}

theorem sparseTree_split (hnil : leaves ≠ []) (hone : ∀ leaf, leaves ≠ [leaf]) :
    sparseTree node empty ofLeaf (levels + 1) depth leaves =
      node (sparseTree node empty ofLeaf levels (depth + 1) (leavesOn false depth leaves))
        (sparseTree node empty ofLeaf levels (depth + 1) (leavesOn true depth leaves)) := by
  rw [sparseTree]
  · exact hnil
  · exact hone

/-- The nodes over both sides, whichever of them a path goes on to. -/
theorem children_leavesOn (f : List SparseLeaf → α) (right : Bool) (depth : ℕ)
    (leaves : List SparseLeaf) :
    children right (f (leavesOn right depth leaves)) (f (leavesOn (!right) depth leaves)) =
      (f (leavesOn false depth leaves), f (leavesOn true depth leaves)) := by
  cases right with
  | false => rfl
  | true => rfl

end Sides

namespace SparseTree
variable {levels depth : ℕ} {leaves : List SparseLeaf}

def nodeOver (levels depth : ℕ) (leaves : List SparseLeaf) : Digest :=
  sparseTree sparseNode .sparsePlaceholder SparseLeaf.hash levels depth leaves

/-- The root of the tree over the leaves. -/
def root (leaves : List SparseLeaf) : Digest := nodeOver SparseProof.maxDepth 0 leaves

/-- How a node is hashed from the leaves below it. -/
def term (levels depth : ℕ) (leaves : List SparseLeaf) : HashTree Digest :=
  sparseTree .node .placeholder (fun leaf => .given leaf.hash) levels depth leaves

/-- The strings that are hashed when the tree is built. -/
def building (leaves : List SparseLeaf) : List (List UInt8) :=
  (leaves.map fun leaf => Domain.sparseLeaf.pairString (leaf.key, leaf.valueHash)) ++
    ((term SparseProof.maxDepth 0 leaves).pairs sparseNode .sparsePlaceholder).map
      Domain.sparseInternal.pairString

theorem value_term (levels depth : ℕ) (leaves : List SparseLeaf) :
    (term levels depth leaves).value sparseNode .sparsePlaceholder =
      nodeOver levels depth leaves := by
  unfold term nodeOver
  fun_induction sparseTree sparseNode Digest.sparsePlaceholder SparseLeaf.hash levels depth leaves
    with
  | case1 => simp [sparseTree, HashTree.value]
  | case2 => simp [sparseTree, HashTree.value]
  | case3 => simp_all [sparseTree, HashTree.value]
  | case4 levels depth leaves hnil hone ihleft ihright =>
    rw [sparseTree_split hnil hone, HashTree.value, ihleft, ihright]

/-- Above more than one leaf the nodes over both sides are joined, and whatever is joined there. -/
theorem pairs_term_split (hnil : leaves ≠ []) (hone : ∀ leaf, leaves ≠ [leaf]) :
    (term (levels + 1) depth leaves).pairs sparseNode .sparsePlaceholder =
      (nodeOver levels (depth + 1) (leavesOn false depth leaves),
        nodeOver levels (depth + 1) (leavesOn true depth leaves)) ::
      ((term levels (depth + 1) (leavesOn false depth leaves)).pairs sparseNode .sparsePlaceholder ++
        (term levels (depth + 1) (leavesOn true depth leaves)).pairs sparseNode
          .sparsePlaceholder) := by
  rw [← value_term, ← value_term, term, sparseTree_split hnil hone, HashTree.pairs]
  rfl

theorem pairs_side_subset (hnil : leaves ≠ []) (hone : ∀ leaf, leaves ≠ [leaf]) (right : Bool) :
    (term levels (depth + 1) (leavesOn right depth leaves)).pairs sparseNode .sparsePlaceholder ⊆
      (term (levels + 1) depth leaves).pairs sparseNode .sparsePlaceholder := by
  rw [pairs_term_split hnil hone]
  apply List.subset_cons_of_subset
  cases right with
  | false => exact List.subset_append_left _ _
  | true => exact List.subset_append_right _ _

end SparseTree

namespace SparseProof
open SparseTree (nodeOver)
variable {levels depth : ℕ} {leaves : List SparseLeaf} {key : Digest}

/-- The siblings on the way down along a key, and the leaf that is left in the end, if there is
one. -/
def along (key : Digest) : (levels depth : ℕ) → List SparseLeaf → SparseProof
  | _, _, [] => ⟨none, []⟩
  | _, _, [leaf] => ⟨some leaf, []⟩
  | 0, _, _ => ⟨none, []⟩
  | levels + 1, depth, leaves =>
    let right := key.turnsRight depth
    let below := along key levels (depth + 1) (leavesOn right depth leaves)
    ⟨below.leaf, nodeOver levels (depth + 1) (leavesOn (!right) depth leaves) :: below.siblings⟩

/-- The proof of a key in the tree over the leaves. -/
def ofLeaves (leaves : List SparseLeaf) (key : Digest) : SparseProof := along key maxDepth 0 leaves

theorem length_along_le (key : Digest) (leaves : List SparseLeaf) (h : depth + levels = 256) :
    (along key levels depth leaves).siblings.length ≤ (key.path.toList.drop depth).length := by
  rw [List.length_drop, key.length_path]
  fun_induction along key levels depth leaves with
  | case1 => exact Nat.zero_le _
  | case2 => exact Nat.zero_le _
  | case3 => exact Nat.zero_le _
  | case4 levels depth leaves _ _ right below ih =>
    have hbelow : below.siblings.length ≤ 256 - (depth + 1) := ih (by omega)
    rw [List.length_cons]
    omega

/-- The siblings lead from what is left up to the node over all the leaves. -/
theorem climb_along (h : depth + levels = 256) :
    climb sparseNode (along key levels depth leaves).bottom
        (pathSteps (key.path.toList.drop depth) (along key levels depth leaves).siblings) =
      nodeOver levels depth leaves := by
  unfold nodeOver
  fun_induction along key levels depth leaves with
  | case1 => simp [bottom, sparseTree, pathSteps, climb]
  | case2 => simp [bottom, sparseTree, pathSteps, climb]
  | case3 => simp_all [bottom, sparseTree, pathSteps, climb]
  | case4 levels depth leaves hnil hone right below ih =>
    have hnext : depth + 1 + levels = 256 := by omega
    have hsides := children_leavesOn (nodeOver levels (depth + 1)) right depth leaves
    have hbottom (sibling : Digest) :
        (⟨below.leaf, sibling :: below.siblings⟩ : SparseProof).bottom = below.bottom := rfl
    rw [hbottom, key.drop_path (by omega), pathSteps_cons (length_along_le key _ hnext),
      climb_concat, ih hnext, sparseTree_split hnil hone]
    rw [nodeOver] at hsides
    rw [hsides]
    rfl

/-- Checking the proof hashes nothing that is not hashed when the tree is built. -/
theorem pathPairs_along_subset (h : depth + levels = 256) :
    pathPairs sparseNode .sparsePlaceholder (key.path.toList.drop depth)
        (along key levels depth leaves).bottom (along key levels depth leaves).siblings ⊆
      (SparseTree.term levels depth leaves).pairs sparseNode .sparsePlaceholder := by
  fun_induction along key levels depth leaves with
  | case1 => simp [pathPairs, climbTerm, pathSteps, climb, HashTree.pairs]
  | case2 => simp [pathPairs, climbTerm, pathSteps, climb, HashTree.pairs]
  | case3 => simp [pathPairs, climbTerm, pathSteps, climb, HashTree.pairs]
  | case4 levels depth leaves hnil hone right below =>
    rename_i ih
    have hnext : depth + 1 + levels = 256 := by omega
    intro p hp
    rw [key.drop_path (by omega)] at hp
    rcases mem_pathPairs_cons (length_along_le key _ hnext) hp with hp | hp
    · have hbelow : climb sparseNode below.bottom
          (pathSteps (key.path.toList.drop (depth + 1)) below.siblings) = _ := climb_along hnext
      rw [SparseTree.pairs_term_split hnil hone,
        ← children_leavesOn (nodeOver levels (depth + 1)) right depth leaves, ← hbelow]
      exact hp ▸ List.mem_cons_self
    · exact SparseTree.pairs_side_subset hnil hone right (ih hnext hp)

theorem mem_of_leaf_along {leaf : SparseLeaf}
    (h : (along key levels depth leaves).leaf = some leaf) : leaf ∈ leaves := by
  fun_induction along key levels depth leaves with
  | case1 => cases h
  | case2 =>
    cases h
    exact List.mem_cons_self
  | case3 => cases h
  | case4 levels depth leaves _ _ right below ih => exact (List.mem_filter.1 (ih h)).1

/-- A leaf is left on the way down along its key. -/
theorem leaf_along {leaf : SparseLeaf} (hdepth : depth + levels = 256) (h : Together depth leaves)
    (hmem : leaf ∈ leaves) : (along leaf.key levels depth leaves).leaf = some leaf := by
  fun_induction along leaf.key levels depth leaves with
  | case1 => cases hmem
  | case2 levels depth other =>
    rw [List.mem_singleton.1 hmem]
  | case3 depth leaves hnil hone => exact absurd (hdepth ▸ h) (not_together hnil hone)
  | case4 levels depth leaves _ _ right below ih =>
    exact ih (by omega) (h.leavesOn right) (List.mem_filter.2 ⟨hmem, beq_self_eq_true _⟩)

section Root
variable (leaves) (key)

theorem walk_ofLeaves :
    walk (ofLeaves leaves key).siblings key (ofLeaves leaves key).bottom (SparseTree.root leaves) =
      .ok () := by
  have hlength : (along key maxDepth 0 leaves).siblings.length ≤ (key.path.toList.drop 0).length :=
    length_along_le key leaves rfl
  rw [List.drop_zero, key.length_path] at hlength
  exact walk_eq_ok_iff.2 ⟨hlength, climb_along rfl⟩

theorem hashed_ofLeaves_subset :
    (ofLeaves leaves key).hashed key ⊆ SparseTree.building leaves := by
  apply List.append_subset.2
  constructor
  · intro s hs
    obtain ⟨leaf, hleaf, rfl⟩ := List.mem_map.1 hs
    have hmem : leaf ∈ leaves := mem_of_leaf_along (Option.mem_toList.1 hleaf)
    exact List.mem_append_left _ (List.mem_map_of_mem hmem)
  · exact List.subset_append_of_subset_right _ (List.map_subset _ (pathPairs_along_subset rfl))

end Root

/-- The leaf of a key is the one in which the proof of the key ends. -/
theorem mem_iff_leaf_ofLeaves (hkeys : (leaves.map SparseLeaf.key).Nodup) {leaf : SparseLeaf} :
    leaf ∈ leaves ∧ leaf.key = key ↔ (ofLeaves leaves key).leaf = some leaf ∧ leaf.key = key := by
  constructor
  · rintro ⟨hmem, rfl⟩
    exact ⟨leaf_along rfl (together_zero hkeys) hmem, rfl⟩
  · rintro ⟨hleaf, hkey⟩
    exact ⟨mem_of_leaf_along hleaf, hkey⟩

section Binding
variable {proof : SparseProof} {strings : List (List UInt8)} (hfree : CollisionFree strings)
  (havoid : AvoidsDigest .sparsePlaceholder strings) (hbuild : SparseTree.building leaves ⊆ strings)
  (hcheck : proof.hashed key ⊆ strings)
include hfree havoid hbuild hcheck

theorem leaf_eq_of_walk
    (hok : walk proof.siblings key proof.bottom (SparseTree.root leaves) = .ok ()) :
    proof.leaf = (ofLeaves leaves key).leaf := by
  have hhonest : (ofLeaves leaves key).hashed key ⊆ strings :=
    List.Subset.trans (hashed_ofLeaves_subset leaves key) hbuild
  exact leaf_eq_of_walk_eq hfree havoid hcheck hhonest hok (walk_ofLeaves leaves key)

theorem mem_iff_of_verifyPresent (hkeys : (leaves.map SparseLeaf.key).Nodup) {value : Digest}
    (hok : proof.verifyPresent ⟨key, value⟩ (SparseTree.root leaves) = .ok ()) (leaf : SparseLeaf) :
    leaf ∈ leaves ∧ leaf.key = key ↔ leaf = ⟨key, value⟩ := by
  obtain ⟨hleaf, hwalk⟩ := verifyPresent_eq_ok_iff.1 hok
  rw [mem_iff_leaf_ofLeaves hkeys, ← leaf_eq_of_walk hfree havoid hbuild hcheck hwalk, hleaf,
    Option.some.injEq]
  constructor
  · rintro ⟨hsame, -⟩
    exact hsame.symm
  · rintro rfl
    exact ⟨rfl, rfl⟩

theorem key_ne_of_verifyAbsent (hkeys : (leaves.map SparseLeaf.key).Nodup)
    (hok : proof.verifyAbsent key (SparseTree.root leaves) = .ok ()) {leaf : SparseLeaf}
    (hmem : leaf ∈ leaves) : leaf.key ≠ key := by
  intro hkey
  obtain ⟨hother, hwalk⟩ := verifyAbsent_eq_ok_iff.1 hok
  obtain ⟨hleaf, -⟩ := (mem_iff_leaf_ofLeaves hkeys).1 ⟨hmem, hkey⟩
  rw [← leaf_eq_of_walk hfree havoid hbuild hcheck hwalk] at hleaf
  exact (hother leaf hleaf).1 hkey

end Binding

end SparseProof
end VerifiedLedger
