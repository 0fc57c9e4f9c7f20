import VerifiedLedger.Proofs.SparseTree.Leaves
/-! # Every key has a proof

The tree splits on one bit of the keys after the other, as long as there are two leaves to tell
apart. Distinct keys differ within 256 bits, so that no proof is longer. The leaf that stands in the
place of an absent key has taken the same turns as the key down to there, and the check of the bits
that both keys share lets it pass.
-/
namespace VerifiedLedger
variable {levels depth : ℕ} {leaves : List SparseLeaf} {key : Digest}

theorem two_le_length (hnil : leaves ≠ []) (hone : ∀ leaf, leaves ≠ [leaf]) :
    2 ≤ leaves.length := by
  match leaves, hnil, hone with
  | [], hnil, _ => exact absurd rfl hnil
  | [leaf], _, hone => exact absurd rfl (hone leaf)
  | _ :: _ :: _, _, _ => exact Nat.le_add_left 2 _

namespace SparseTree

/-- The tree as it is described, without a bound on its depth: the node over leaves that have
come together as far as that depth. -/
inductive IsNode : (depth : ℕ) → List SparseLeaf → Digest → Prop
  | none {depth : ℕ} : IsNode depth [] .sparsePlaceholder
  | one {depth : ℕ} {leaf : SparseLeaf} : IsNode depth [leaf] leaf.hash
  | split {depth : ℕ} {leaves : List SparseLeaf} {left right : Digest} : 2 ≤ leaves.length →
      IsNode (depth + 1) (leavesOn false depth leaves) left →
      IsNode (depth + 1) (leavesOn true depth leaves) right →
      IsNode depth leaves (sparseNode left right)

theorem isNode_nodeOver (hdepth : depth + levels = 256) (h : Together depth leaves) :
    IsNode depth leaves (nodeOver levels depth leaves) := by
  unfold nodeOver
  fun_induction sparseTree sparseNode Digest.sparsePlaceholder SparseLeaf.hash levels depth leaves
    with
  | case1 => exact .none
  | case2 => exact .one
  | case3 depth leaves hnil hone => exact absurd (hdepth ▸ h) (not_together hnil hone)
  | case4 levels depth leaves hnil hone ihleft ihright =>
    exact .split (two_le_length hnil hone) (ihleft (by omega) (h.leavesOn false))
      (ihright (by omega) (h.leavesOn true))

end SparseTree

namespace SparseProof
open SparseTree (IsNode isNode_nodeOver)

/-- The walk down along a key, until at most one leaf is left: the siblings that are met, and that
leaf. -/
inductive WalksDown (key : Digest) : (depth : ℕ) → List SparseLeaf → SparseProof → Prop
  | none {depth : ℕ} : WalksDown key depth [] ⟨none, []⟩
  | one {depth : ℕ} {leaf : SparseLeaf} : WalksDown key depth [leaf] ⟨some leaf, []⟩
  | turn {depth : ℕ} {leaves : List SparseLeaf} {sibling : Digest} {below : SparseProof} :
      2 ≤ leaves.length →
      IsNode (depth + 1) (leavesOn (!key.turnsRight depth) depth leaves) sibling →
      WalksDown key (depth + 1) (leavesOn (key.turnsRight depth) depth leaves) below →
      WalksDown key depth leaves ⟨below.leaf, sibling :: below.siblings⟩

theorem walksDown_along (hdepth : depth + levels = 256) (h : Together depth leaves) :
    WalksDown key depth leaves (along key levels depth leaves) := by
  fun_induction along key levels depth leaves with
  | case1 => exact .none
  | case2 => exact .one
  | case3 depth leaves hnil hone => exact absurd (hdepth ▸ h) (not_together hnil hone)
  | case4 levels depth leaves hnil hone right below ih =>
    have hnext : depth + 1 + levels = 256 := by omega
    exact .turn (two_le_length hnil hone) (isNode_nodeOver hnext (h.leavesOn _))
      (ih hnext (h.leavesOn _))

/-- The leaf that is left has gone the same way as the key. -/
theorem turnsRight_of_leaf_along {leaf : SparseLeaf}
    (h : (along key levels depth leaves).leaf = some leaf) :
    ∀ d, depth ≤ d → d < depth + (along key levels depth leaves).siblings.length →
      key.turnsRight d = leaf.key.turnsRight d := by
  fun_induction along key levels depth leaves with
  | case1 => cases h
  | case2 =>
    intro d hge hlt
    exact absurd hge (Nat.not_le.2 hlt)
  | case3 => cases h
  | case4 levels depth leaves _ _ right below ih =>
    intro d hge hlt
    rcases Nat.eq_or_lt_of_le hge with rfl | hge
    · have hside : leaf ∈ leavesOn right depth leaves := mem_of_leaf_along h
      exact (beq_iff_eq.1 (List.mem_filter.1 hside).2).symm
    · have hbelow : d < depth + 1 + below.siblings.length := by
        rw [List.length_cons] at hlt
        omega
      exact ih h d hge hbelow

section Proof
variable (leaves key)

theorem length_ofLeaves_le : (ofLeaves leaves key).siblings.length ≤ 256 :=
  (walk_eq_ok_iff.1 (walk_ofLeaves leaves key)).1

/-- The shared bits reach down to where the leaf is. -/
theorem length_ofLeaves_le_commonPrefixBits {leaf : SparseLeaf}
    (h : (ofLeaves leaves key).leaf = some leaf) :
    (ofLeaves leaves key).siblings.length ≤ key.commonPrefixBits leaf.key := by
  have hle := length_ofLeaves_le leaves key
  rw [Digest.le_commonPrefixBits_iff hle]
  apply List.ext_getElem?
  intro d
  rw [List.getElem?_take, List.getElem?_take]
  split
  · next hd =>
    have hdepth : d < 256 := hd.trans_le hle
    have hturn : key.turnsRight d = leaf.key.turnsRight d :=
      turnsRight_of_leaf_along h d (Nat.zero_le d) (by rwa [Nat.zero_add])
    rw [key.getElem?_path hdepth, leaf.key.getElem?_path hdepth, hturn]
  · rfl

end Proof

theorem verifyPresent_ofLeaves (hkeys : (leaves.map SparseLeaf.key).Nodup) {leaf : SparseLeaf}
    (hmem : leaf ∈ leaves) :
    (ofLeaves leaves leaf.key).verifyPresent leaf (SparseTree.root leaves) = .ok () :=
  verifyPresent_eq_ok_iff.2
    ⟨leaf_along rfl (together_zero hkeys) hmem, walk_ofLeaves leaves leaf.key⟩

theorem verifyAbsent_ofLeaves (habsent : ∀ leaf ∈ leaves, leaf.key ≠ key) :
    (ofLeaves leaves key).verifyAbsent key (SparseTree.root leaves) = .ok () := by
  refine verifyAbsent_eq_ok_iff.2 ⟨fun leaf hleaf => ⟨?_, ?_⟩, walk_ofLeaves leaves key⟩
  · exact habsent leaf (mem_of_leaf_along hleaf)
  · exact length_ofLeaves_le_commonPrefixBits leaves key hleaf

/-- Whoever knows the leaves can prove of every key that it is there with its value, or that it is
not there. -/
theorem verify_ofLeaves (hkeys : (leaves.map SparseLeaf.key).Nodup) (key : Digest) :
    IsNode 0 leaves (SparseTree.root leaves) ∧ WalksDown key 0 leaves (ofLeaves leaves key) ∧
      (ofLeaves leaves key).siblings.length ≤ maxDepth ∧
      (∀ leaf ∈ leaves, leaf.key = key →
        (ofLeaves leaves key).verifyPresent leaf (SparseTree.root leaves) = .ok ()) ∧
      ((∀ leaf ∈ leaves, leaf.key ≠ key) →
        (ofLeaves leaves key).verifyAbsent key (SparseTree.root leaves) = .ok ()) := by
  have htogether := together_zero hkeys
  refine ⟨isNode_nodeOver rfl htogether, walksDown_along rfl htogether,
    length_ofLeaves_le leaves key, ?_, verifyAbsent_ofLeaves⟩
  rintro leaf hmem rfl
  exact verifyPresent_ofLeaves hkeys hmem

/-- Two of the keys differ in their last bit only, so that both of their proofs have every sibling
there can be. An absent key beside the third one ends in that leaf. -/
theorem verify_ofLeaves_last_bit :
    let last : Digest := ⟨⟨List.replicate 31 0 ++ [1], rfl⟩⟩
    let high : Digest := ⟨.padded [0x80]⟩
    let absent : Digest := ⟨.padded [0xc0]⟩
    let leaves : List SparseLeaf := [⟨.zero, .zero⟩, ⟨high, .zero⟩, ⟨last, .zero⟩]
    (leaves.map SparseLeaf.key).Nodup ∧ (ofLeaves leaves last).siblings.length = maxDepth ∧
      (ofLeaves leaves last).verifyPresent ⟨last, .zero⟩ (SparseTree.root leaves) = .ok () ∧
      (ofLeaves leaves absent).leaf = some ⟨high, .zero⟩ ∧
      (ofLeaves leaves absent).verifyAbsent absent (SparseTree.root leaves) = .ok () := by
  intro last high absent leaves
  have hkeys : (leaves.map SparseLeaf.key).Nodup := by decide
  have habsent : ∀ leaf ∈ leaves, leaf.key ≠ absent := by decide
  have hlength : (ofLeaves leaves last).siblings.length = maxDepth := by decide +kernel
  have hleaf : (ofLeaves leaves absent).leaf = some ⟨high, .zero⟩ := by decide +kernel
  obtain ⟨-, -, -, hpresent, -⟩ := verify_ofLeaves hkeys last
  have hlast : ⟨last, .zero⟩ ∈ leaves := List.mem_of_getElem? (i := 2) rfl
  exact ⟨hkeys, hlength, hpresent _ hlast rfl, hleaf, (verify_ofLeaves hkeys absent).2.2.2.2 habsent⟩

end SparseProof
end VerifiedLedger
