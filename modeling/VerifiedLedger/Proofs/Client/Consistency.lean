import VerifiedLedger.Client.Consistency
import VerifiedLedger.Proofs.Accumulator.Growth
import VerifiedLedger.Proofs.Forest.Binding
/-! # What a consistency proof binds

Extending is looked at as one hash computation over the known subtrees and those of the proof. The
proof comes from anybody; whether it may be believed depends on the strings hashed here alone.
-/
namespace VerifiedLedger.ConsistencyProof
variable {proof p q : ConsistencyProof} {known extended a b a' b' : Accumulator .transaction}
  {trusted first second : LedgerInfo}

/-- How the root is hashed from the known subtrees and those of the proof. -/
def computation (proof : ConsistencyProof) (known : Accumulator .transaction)
    (trusted : LedgerInfo) : HashTree Digest :=
  Forest.rootTerm
    (known.toForest.growth proof.subtrees (trusted.version.toNat + 1 - known.leafCount))

theorem extend_eq_ok_iff :
    proof.extend known trusted = .ok extended ↔
      trusted.version.toNat + 1 < UInt64.size ∧ known.leafCount ≤ trusted.version.toNat + 1 ∧
        known.appendSubtrees proof.subtrees (trusted.version.toNat + 1 - known.leafCount) =
          .ok extended ∧
        extended.root = trusted.accumulatorRoot := by
  simp only [extend, ite_error_eq_ok_iff, bind_eq_ok_iff, Nat.not_le, Nat.not_lt]
  refine and_congr_right fun _ => and_congr_right fun _ => ?_
  constructor
  · rintro ⟨next, happ, hroot⟩
    by_cases h : next.root = trusted.accumulatorRoot
    · rw [if_pos h, pure_eq_ok_iff] at hroot
      exact ⟨hroot ▸ happ, hroot ▸ h⟩
    · rw [if_neg h] at hroot
      exact absurd hroot throw_ne_ok
  · rintro ⟨happ, hroot⟩
    exact ⟨extended, happ, by rw [if_pos hroot, pure_eq_ok_iff]⟩

/-- The computation is the one that `extend` makes: it ends in the root that is compared. -/
theorem value_computation (h : proof.extend known trusted = .ok extended) :
    (proof.computation known trusted).value AccumulatorKind.transaction.node
        .accumulatorPlaceholder =
      trusted.accumulatorRoot := by
  obtain ⟨-, -, happ, hroot⟩ := extend_eq_ok_iff.1 h
  obtain ⟨t, ht, hr⟩ := Forest.exists_growth AccumulatorKind.transaction.node
    .accumulatorPlaceholder (Accumulator.appendSubtrees_eq_ok_iff.1 happ)
  rw [computation, ht, Forest.rootTerm, Forest.value_root hr]
  exact hroot

/-- Accumulators of the same count that both reach one checkpoint are the same, and so are the
subtrees that lead there. Hence a forked history never reaches the checkpoint of another one. -/
theorem known_eq_of_extend (ha : a.Valid) (hb : b.Valid) (hcount : a.leafCount = b.leafCount)
    (hversion : first.version = second.version)
    (hroot : first.accumulatorRoot = second.accumulatorRoot)
    (hp : p.extend a first = .ok a') (hq : q.extend b second = .ok b')
    (hfree : CollisionFree ((p.computation a first).hashed .transaction ++
      (q.computation b second).hashed .transaction)) :
    a = b ∧ p.subtrees = q.subtrees ∧ a' = b' := by
  have hvalue := (value_computation hp).trans (hroot.trans (value_computation hq).symm)
  obtain ⟨-, -, happ, -⟩ := extend_eq_ok_iff.1 hp
  obtain ⟨-, -, hbpp, -⟩ := extend_eq_ok_iff.1 hq
  have hnew : first.version.toNat + 1 - a.leafCount = second.version.toNat + 1 - b.leafCount := by
    rw [hversion, hcount]
  obtain ⟨t, ht, -⟩ := Forest.exists_growth AccumulatorKind.transaction.node
    .accumulatorPlaceholder (Accumulator.appendSubtrees_eq_ok_iff.1 happ)
  obtain ⟨t', ht', -⟩ := Forest.exists_growth AccumulatorKind.transaction.node
    .accumulatorPlaceholder (Accumulator.appendSubtrees_eq_ok_iff.1 hbpp)
  rw [computation, computation, ht, ht'] at hvalue
  rw [computation, computation, ht, ht'] at hfree
  have hapart := HashTree.keepsApart_of_collisionFree hfree (List.subset_append_left _ _)
    (List.subset_append_right _ _)
  obtain ⟨hforest, hsubtrees⟩ :=
    Forest.eq_of_root_eq ha hb hcount ht (hnew ▸ ht') hapart hvalue
  obtain rfl : a = b := Accumulator.toForest_injective hforest
  refine ⟨rfl, hsubtrees, ?_⟩
  rw [hsubtrees, hnew, hbpp] at happ
  exact (Except.ok.inj happ).symm

def checkpoint (round version : UInt64) (root : Digest) : LedgerInfo :=
  ⟨0, round, .zero, root, version, 0, none, .zero⟩

def twoLeaves : Accumulator .transaction :=
  ⟨⟨[AccumulatorKind.transaction.node .zero .zero], 2⟩⟩

def threeLeaves : Accumulator .transaction :=
  ⟨⟨[.zero, AccumulatorKind.transaction.node .zero .zero], 3⟩⟩

def thirdLeaf : ConsistencyProof := ⟨[.zero]⟩

/-- Two ledger infos of different rounds that have the root over a third leaf. -/
theorem known_eq_of_extend_third_leaf :
    thirdLeaf.extend twoLeaves (checkpoint 0 2 threeLeaves.root) = .ok threeLeaves ∧
      thirdLeaf.extend twoLeaves (checkpoint 1 2 threeLeaves.root) = .ok threeLeaves ∧
      twoLeaves = twoLeaves ∧ thirdLeaf.subtrees = thirdLeaf.subtrees ∧
      threeLeaves = threeLeaves := by
  have hvalid : twoLeaves.Valid := ⟨by decide +kernel, by decide⟩
  have hp : thirdLeaf.extend twoLeaves (checkpoint 0 2 threeLeaves.root) = .ok threeLeaves := by
    decide +kernel
  have hq : thirdLeaf.extend twoLeaves (checkpoint 1 2 threeLeaves.root) = .ok threeLeaves := by
    decide +kernel
  exact ⟨hp, hq, known_eq_of_extend hvalid hvalid rfl rfl rfl hp hq (by decide +kernel)⟩

end VerifiedLedger.ConsistencyProof
