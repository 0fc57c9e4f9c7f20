import VerifiedLedger.SparseTree.Proof
import VerifiedLedger.Proofs.Bytes.BitPath
import VerifiedLedger.Proofs.Checks
import VerifiedLedger.Proofs.Hash.Separation
import VerifiedLedger.Proofs.Tree.Climb
/-! # What a root says about a key

Nothing is known of the tree behind the root: there may be none. Still the proofs that verify
against one root agree on every key. They walk along the key together, and where one of them ends in
a leaf or in nothing the other cannot go on, because leaves and inner nodes are hashed in two domains.
-/
namespace VerifiedLedger

namespace SparseProof
variable {proof p q : SparseProof} {element : SparseLeaf} {siblings : List Digest}
  {key v start root : Digest}

/-- What the siblings are hashed onto. -/
def bottom (proof : SparseProof) : Digest :=
  match proof.leaf with
  | some leaf => leaf.hash
  | none => .sparsePlaceholder

/-- The strings that are hashed when the proof is checked along a key, for its presence or for its
absence: that of the leaf, if there is one, and those of the nodes above. -/
def hashed (proof : SparseProof) (key : Digest) : List (List UInt8) :=
  (proof.leaf.toList.map fun leaf => Domain.sparseLeaf.pairString (leaf.key, leaf.valueHash)) ++
    (pathPairs sparseNode .sparsePlaceholder key.path.toList proof.bottom proof.siblings).map
      Domain.sparseInternal.pairString

section Checks

theorem walk_eq_ok_iff :
    walk siblings key start root = .ok () ↔
      siblings.length ≤ maxDepth ∧
        climb sparseNode start (pathSteps key.path.toList siblings) = root := by
  simp only [walk, ite_error_eq_ok_iff, ite_ok_eq_ok_iff, Nat.not_lt]
  rfl

theorem verifyPresent_eq_ok_iff :
    proof.verifyPresent element root = .ok () ↔
      proof.leaf = some element ∧ walk proof.siblings element.key proof.bottom root = .ok () := by
  unfold verifyPresent bottom
  cases hleaf : proof.leaf with
  | none => simp
  | some leaf =>
    by_cases h : leaf = element
    · simp [h]
    · simp [h]

theorem verifyAbsent_eq_ok_iff :
    proof.verifyAbsent key root = .ok () ↔
      (∀ leaf ∈ proof.leaf, leaf.key ≠ key ∧
        proof.siblings.length ≤ key.commonPrefixBits leaf.key) ∧
      walk proof.siblings key proof.bottom root = .ok () := by
  unfold verifyAbsent bottom
  cases hleaf : proof.leaf with
  | none => simp
  | some leaf => simp [and_assoc]

end Checks

section Strings
variable {strings : List (List UInt8)} (hstrings : proof.hashed key ⊆ strings)
include hstrings

theorem leaf_mem {leaf : SparseLeaf} (hleaf : proof.leaf = some leaf) :
    Domain.sparseLeaf.pairString (leaf.key, leaf.valueHash) ∈ strings := by
  apply hstrings
  rw [hashed, hleaf]
  exact List.mem_cons_self

theorem pair_mem {pair : Digest × Digest}
    (h : pair ∈ pathPairs sparseNode .sparsePlaceholder key.path.toList proof.bottom
      proof.siblings) :
    Domain.sparseInternal.pairString pair ∈ strings :=
  hstrings (List.mem_append_right _ (List.mem_map_of_mem h))

/-- A walk never ends at a node that another one hashes: a leaf is hashed in its own domain and what
stands for nothing is not hashed at all. -/
theorem bottom_ne_sparseNode (hfree : CollisionFree strings)
    (havoid : AvoidsDigest .sparsePlaceholder strings) {pair : Digest × Digest}
    (hpair : Domain.sparseInternal.pairString pair ∈ strings) :
    proof.bottom ≠ sparseNode pair.1 pair.2 := by
  unfold bottom
  cases hleaf : proof.leaf with
  | none =>
    intro h
    exact Domain.hash_ne_placeholder havoid hpair h.symm
  | some leaf =>
    intro h
    exact Domain.hash_ne_of_ne hfree (by decide) (leaf_mem hstrings hleaf) hpair h

end Strings

/-- A leaf and the value that stands for nothing are told apart by what they hash to. -/
theorem leaf_eq_of_bottom_eq {strings : List (List UInt8)} (hfree : CollisionFree strings)
    (havoid : AvoidsDigest .sparsePlaceholder strings) (hp : p.hashed key ⊆ strings)
    (hq : q.hashed key ⊆ strings) (h : p.bottom = q.bottom) : p.leaf = q.leaf := by
  unfold bottom at h
  cases hleaf : p.leaf with
  | none =>
    cases hleaf' : q.leaf with
    | none => rfl
    | some leaf' =>
      rw [hleaf, hleaf'] at h
      exact absurd h.symm (Domain.hash_ne_placeholder havoid (leaf_mem hq hleaf'))
  | some leaf =>
    cases hleaf' : q.leaf with
    | none =>
      rw [hleaf, hleaf'] at h
      exact absurd h (Domain.hash_ne_placeholder havoid (leaf_mem hp hleaf))
    | some leaf' =>
      rw [hleaf, hleaf'] at h
      have hpair := Domain.eq_of_hashPair_eq hfree (leaf_mem hp hleaf) (leaf_mem hq hleaf') h
      obtain ⟨hkey, hvalue⟩ := Prod.mk.inj hpair
      cases leaf
      cases leaf'
      cases hkey
      cases hvalue
      rfl

/-- Two walks along a key to one root begin with the same leaf, or both with none. -/
theorem leaf_eq_of_walk_eq {strings : List (List UInt8)} (hfree : CollisionFree strings)
    (havoid : AvoidsDigest .sparsePlaceholder strings) (hp : p.hashed key ⊆ strings)
    (hq : q.hashed key ⊆ strings) (hpok : walk p.siblings key p.bottom root = .ok ())
    (hqok : walk q.siblings key q.bottom root = .ok ()) : p.leaf = q.leaf := by
  obtain ⟨hlength, hroot⟩ := walk_eq_ok_iff.1 hpok
  obtain ⟨hlength', hroot'⟩ := walk_eq_ok_iff.1 hqok
  have hapart : HashTree.KeepsApart sparseNode
      (pathPairs sparseNode .sparsePlaceholder key.path.toList p.bottom p.siblings)
      (pathPairs sparseNode .sparsePlaceholder key.path.toList q.bottom q.siblings) :=
    fun _ hx _ hy => Domain.eq_of_hashPair_eq hfree (pair_mem hp hx) (pair_mem hq hy)
  have hdepth : maxDepth = key.path.toList.length := key.length_path.symm
  rcases climb_eq_climb (hdepth ▸ hlength) (hdepth ▸ hlength') hapart (hroot.trans hroot'.symm) with
    ⟨hbottom, -⟩ | ⟨pair, hpair, h⟩ | ⟨pair, hpair, h⟩
  · exact leaf_eq_of_bottom_eq hfree havoid hp hq hbottom
  · exact absurd h (bottom_ne_sparseNode hp hfree havoid (pair_mem hq hpair))
  · exact absurd h (bottom_ne_sparseNode hq hfree havoid (pair_mem hp hpair))

/-- Whoever makes the proofs, a key that has one value under a root is not absent there and has no
other value. -/
theorem one_answer (hpresent : p.verifyPresent ⟨key, v⟩ root = .ok ())
    (hfree : CollisionFree (p.hashed key ++ q.hashed key))
    (havoid : AvoidsDigest .sparsePlaceholder (p.hashed key ++ q.hashed key)) :
    q.verifyAbsent key root ≠ .ok () ∧
      ∀ w, q.verifyPresent ⟨key, w⟩ root = .ok () → w = v := by
  obtain ⟨hleaf, hwalk⟩ := verifyPresent_eq_ok_iff.1 hpresent
  have hp : p.hashed key ⊆ p.hashed key ++ q.hashed key := List.subset_append_left _ _
  have hq : q.hashed key ⊆ p.hashed key ++ q.hashed key := List.subset_append_right _ _
  constructor
  · intro habsent
    obtain ⟨hother, hwalk'⟩ := verifyAbsent_eq_ok_iff.1 habsent
    have hsame := leaf_eq_of_walk_eq hfree havoid hp hq hwalk hwalk'
    exact (hother _ (hsame ▸ hleaf)).1 rfl
  · intro w hpresent'
    obtain ⟨hleaf', hwalk'⟩ := verifyPresent_eq_ok_iff.1 hpresent'
    have hsame := leaf_eq_of_walk_eq hfree havoid hp hq hwalk hwalk'
    rw [hleaf, hleaf', Option.some.injEq] at hsame
    exact (SparseLeaf.mk.inj hsame).2.symm

/-- A key with one sibling above its leaf. The forged absence names another leaf beside it. -/
theorem one_answer_one_sibling :
    let p : SparseProof := ⟨some ⟨.zero, .zero⟩, [.accumulatorPlaceholder]⟩
    let q : SparseProof := ⟨some ⟨.accumulatorPlaceholder, .zero⟩, [.zero]⟩
    let root := sparseNode (SparseLeaf.hash ⟨.zero, .zero⟩) .accumulatorPlaceholder
    p.verifyPresent ⟨.zero, .zero⟩ root = .ok () ∧
      CollisionFree (p.hashed .zero ++ q.hashed .zero) ∧
      AvoidsDigest .sparsePlaceholder (p.hashed .zero ++ q.hashed .zero) ∧
      q.verifyAbsent .zero root ≠ .ok () ∧
        ∀ w, q.verifyPresent ⟨.zero, w⟩ root = .ok () → w = .zero := by
  intro p q root
  have hpresent : p.verifyPresent ⟨.zero, .zero⟩ root = .ok () := by decide +kernel
  have hfree : CollisionFree (p.hashed .zero ++ q.hashed .zero) := by decide +kernel
  have havoid : AvoidsDigest .sparsePlaceholder (p.hashed .zero ++ q.hashed .zero) := by
    decide +kernel
  exact ⟨hpresent, hfree, havoid, one_answer hpresent hfree havoid⟩

end SparseProof
end VerifiedLedger
