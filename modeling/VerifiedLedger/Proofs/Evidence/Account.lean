import VerifiedLedger.Evidence.Account
import VerifiedLedger.Proofs.Evidence.Info
import VerifiedLedger.Proofs.SparseTree.Leaves
/-! # Evidence for an account is right

An account is proven against a root that the served info claims. The info is the one of its version,
so the root is that of the accounts there; and in the tree over them the key of an address has
one answer.
-/
namespace VerifiedLedger
variable {infos : List TransactionInfo} {trusted : LedgerInfo} {leaves : List SparseLeaf}
  {strings : List (List UInt8)} {address : Address}

namespace AccountEvidence
variable {s : AccountEvidence} {proven : Proven AccountSnapshot}

/-- The strings that are hashed in the two trees when the evidence is checked. -/
def hashed (s : AccountEvidence) (address : Address) : List (List UInt8) :=
  s.proof.infoEvidence.hashed s.version ++ s.proof.stateProof.hashed address.hash

theorem verify_eq_ok_iff :
    s.verify address trusted = .ok proven ↔
      s.proof.infoEvidence.verify trusted s.version = .ok () ∧
        s.verifyState address s.proof.infoEvidence.info.stateRoot = .ok () ∧
        ⟨⟨address, s.version, s.blob⟩, trusted⟩ = proven := by
  simp only [verify, bind_eq_ok_iff, pure_eq_ok_iff, ofProof, mapError_eq_ok_iff]
  constructor
  · rintro ⟨_, hinfo, _, hstate, hproven⟩
    exact ⟨hinfo, hstate, hproven⟩
  · rintro ⟨hinfo, hstate, hproven⟩
    exact ⟨(), hinfo, (), hstate, hproven⟩

/-- A served blob is the state of the account in the tree, and without a blob it has none. -/
theorem mem_iff_of_verifyState (hfree : CollisionFree strings)
    (havoid : AvoidsDigest .sparsePlaceholder strings)
    (hbuild : SparseTree.building leaves ⊆ strings)
    (hcheck : s.proof.stateProof.hashed address.hash ⊆ strings)
    (hkeys : (leaves.map SparseLeaf.key).Nodup)
    (hok : s.verifyState address (SparseTree.root leaves) = .ok ()) (leaf : SparseLeaf) :
    leaf ∈ leaves ∧ leaf.key = address.hash ↔
      ∃ blob ∈ s.blob, leaf = ⟨address.hash, blob.hash⟩ := by
  unfold verifyState at hok
  cases hblob : s.blob with
  | none =>
    rw [hblob] at hok
    have habsent : leaf ∈ leaves → leaf.key ≠ address.hash :=
      SparseProof.key_ne_of_verifyAbsent hfree havoid hbuild hcheck hkeys hok
    constructor
    · rintro ⟨hmem, hkey⟩
      exact absurd hkey (habsent hmem)
    · rintro ⟨_, ⟨⟩, _⟩
  | some blob =>
    rw [hblob] at hok
    rw [SparseProof.mem_iff_of_verifyPresent hfree havoid hbuild hcheck hkeys hok]
    constructor
    · intro hleaf
      exact ⟨blob, rfl, hleaf⟩
    · rintro ⟨_, ⟨⟩, hleaf⟩
      exact hleaf

/-- Whatever proofs are given, what is proven of the account is what the tree of that version holds
under its key: the served blob, or nothing. -/
theorem state_of_verify (hcovers : trusted.Covers infos)
    (hkeys : (leaves.map SparseLeaf.key).Nodup)
    (hcommits : ∀ info ∈ infos[s.version.toNat]?, info.stateRoot = SparseTree.root leaves)
    (hok : s.verify address trusted = .ok proven)
    (hfree : CollisionFree
      (TransactionInfo.building infos ++ SparseTree.building leaves ++ s.hashed address))
    (havoid : AvoidsDigest .accumulatorPlaceholder
      (TransactionInfo.building infos ++ SparseTree.building leaves ++ s.hashed address))
    (havoid' : AvoidsDigest .sparsePlaceholder
      (TransactionInfo.building infos ++ SparseTree.building leaves ++ s.hashed address)) :
    proven.value = ⟨address, s.version, s.blob⟩ ∧
      ∀ leaf, leaf ∈ leaves ∧ leaf.key = address.hash ↔
        ∃ blob ∈ s.blob, leaf = ⟨address.hash, blob.hash⟩ := by
  obtain ⟨hinfo, hstate, rfl⟩ := verify_eq_ok_iff.1 hok
  obtain ⟨hinfos, hleaves⟩ := List.append_subset.1 (List.subset_append_left
    (TransactionInfo.building infos ++ SparseTree.building leaves) (s.hashed address))
  obtain ⟨hinfoStrings, hstateStrings⟩ := List.append_subset.1 (List.subset_append_right
    (TransactionInfo.building infos ++ SparseTree.building leaves) (s.hashed address))
  have hserves := InfoEvidence.getElem?_of_verify hcovers hinfo hfree havoid hinfos hinfoStrings
  rw [hcommits _ hserves] at hstate
  exact ⟨rfl, mem_iff_of_verifyState hfree havoid' hleaves hstateStrings hkeys hstate⟩

/-- One of two accounts after the second of two transactions. -/
theorem state_of_verify_second_of_two :
    let address : Address := ⟨.replicate 32 1⟩
    let blob : StateBlob := ⟨[7]⟩
    let leaves : List SparseLeaf := [⟨.zero, .zero⟩, ⟨address.hash, blob.hash⟩]
    let root := sparseNode leaves[0].hash leaves[1].hash
    let infos : List TransactionInfo := [⟨.zero, .zero, .zero, 0⟩, ⟨.zero, root, .zero, 1⟩]
    let trusted : LedgerInfo := ⟨0, 0, .zero,
      AccumulatorKind.transaction.node infos[0].hash infos[1].hash, 1, 0, none, .zero⟩
    let s : AccountEvidence := ⟨1, some blob, ⟨⟨⟨[infos[0].hash]⟩, infos[1]⟩,
      ⟨some leaves[1], [leaves[0].hash]⟩⟩⟩
    let strings := TransactionInfo.building infos ++ SparseTree.building leaves ++ s.hashed address
    let proven : Proven AccountSnapshot := ⟨⟨address, 1, some blob⟩, trusted⟩
    trusted.Covers infos ∧ (leaves.map SparseLeaf.key).Nodup ∧
      (∀ info ∈ infos[s.version.toNat]?, info.stateRoot = SparseTree.root leaves) ∧
      s.verify address trusted = .ok proven ∧ CollisionFree strings ∧
      AvoidsDigest .accumulatorPlaceholder strings ∧ AvoidsDigest .sparsePlaceholder strings ∧
      proven.value = ⟨address, s.version, s.blob⟩ ∧
        ∀ leaf, leaf ∈ leaves ∧ leaf.key = address.hash ↔
          ∃ blob ∈ s.blob, leaf = ⟨address.hash, blob.hash⟩ := by
  intro address blob leaves root infos trusted s strings proven
  -- Worked out together, so that every string is hashed once.
  obtain ⟨hledger, hkeys, hroot, hinfo, hstate, hfree, havoid, havoid'⟩ :
      Accumulator.root <$> (Accumulator.ofLeaves (infos.map TransactionInfo.hash) :
          Except ProofError (Accumulator .transaction)) = .ok trusted.accumulatorRoot ∧
        (leaves.map SparseLeaf.key).Nodup ∧ root = SparseTree.root leaves ∧
        s.proof.infoEvidence.verify trusted s.version = .ok () ∧
        s.verifyState address s.proof.infoEvidence.info.stateRoot = .ok () ∧
        CollisionFree strings ∧ AvoidsDigest .accumulatorPlaceholder strings ∧
        AvoidsDigest .sparsePlaceholder strings := by decide +kernel
  have hcovers : trusted.Covers infos := ⟨rfl, hledger⟩
  have hcommits : ∀ info ∈ infos[s.version.toNat]?, info.stateRoot = SparseTree.root leaves := by
    rintro _ ⟨⟩
    exact hroot
  have hok : s.verify address trusted = .ok proven := verify_eq_ok_iff.2 ⟨hinfo, hstate, rfl⟩
  exact ⟨hcovers, hkeys, hcommits, hok, hfree, havoid, havoid',
    state_of_verify hcovers hkeys hcommits hok hfree havoid havoid'⟩

end AccountEvidence
end VerifiedLedger
