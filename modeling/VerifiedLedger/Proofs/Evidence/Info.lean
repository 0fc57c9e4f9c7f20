import VerifiedLedger.Evidence.Info
import VerifiedLedger.Proofs.Ledger.Commitments
/-! # Evidence for an info is right

The verifier never compares the depth of a proof with the number of transactions. It need not: an
info that is hashed up to the root is the info of that version.
-/
namespace VerifiedLedger
variable {infos : List TransactionInfo} {trusted : LedgerInfo} {strings : List (List UInt8)}
  {version : UInt64}

namespace InfoEvidence
variable {evidence : InfoEvidence}

/-- The strings that are hashed when the evidence is checked. -/
def hashed (evidence : InfoEvidence) (version : UInt64) : List (List UInt8) :=
  Domain.transactionInfo.preimage (TransactionInfo.format.encode evidence.info) ::
    (evidence.proof.computation version.toNat evidence.info.hash).hashed .transaction

theorem verify_eq_ok_iff :
    evidence.verify trusted version = .ok () ↔
      version ≤ trusted.version ∧ evidence.proof.verify version.toNat evidence.info.hash
        trusted.accumulatorRoot = .ok () := by
  rw [verify, ite_error_eq_ok_iff, UInt64.not_lt, ofProof, mapError_eq_ok_iff]

theorem getElem?_of_verify (hcovers : trusted.Covers infos)
    (hok : evidence.verify trusted version = .ok ()) (hfree : CollisionFree strings)
    (havoid : AvoidsDigest .accumulatorPlaceholder strings)
    (hbuild : TransactionInfo.building infos ⊆ strings)
    (hcheck : evidence.hashed version ⊆ strings) : infos[version.toNat]? = some evidence.info := by
  apply TransactionInfo.getElem?_of_records
  exact LeafProof.record_of_verify hfree havoid (by decide) hbuild hcovers.rootOf
    (verify_eq_ok_iff.1 hok).2 (hcheck List.mem_cons_self)
    (List.Subset.trans (List.subset_cons_self _ _) hcheck)

/-- Whatever the depth of the proof, the version is in the ledger and the info is the one there. -/
theorem info_of_verify (hcovers : trusted.Covers infos)
    (hok : evidence.verify trusted version = .ok ())
    (hfree : CollisionFree (TransactionInfo.building infos ++ evidence.hashed version))
    (havoid : AvoidsDigest .accumulatorPlaceholder
      (TransactionInfo.building infos ++ evidence.hashed version)) :
    ∃ h : version.toNat < infos.length, evidence.info = infos[version.toNat] := by
  have hinfo := getElem?_of_verify hcovers hok hfree havoid (List.subset_append_left _ _)
    (List.subset_append_right _ _)
  obtain ⟨hlt, hget⟩ := List.getElem?_eq_some_iff.1 hinfo
  exact ⟨hlt, hget.symm⟩

/-- The second of two infos, with the first one's hash as its sibling. -/
theorem info_of_verify_second_of_two :
    let first : TransactionInfo := ⟨.zero, .zero, .zero, 0⟩
    let second : TransactionInfo := ⟨.zero, .zero, .accumulatorPlaceholder, 1⟩
    let trusted : LedgerInfo := ⟨0, 0, .zero,
      AccumulatorKind.transaction.node first.hash second.hash, 1, 0, none, .zero⟩
    let evidence : InfoEvidence := ⟨⟨[first.hash]⟩, second⟩
    trusted.Covers [first, second] ∧ evidence.verify trusted 1 = .ok () ∧
      CollisionFree (TransactionInfo.building [first, second] ++ evidence.hashed 1) ∧
      AvoidsDigest .accumulatorPlaceholder
        (TransactionInfo.building [first, second] ++ evidence.hashed 1) ∧
      ∃ h : 1 < [first, second].length, evidence.info = [first, second][1] := by
  intro first second trusted evidence
  have hcovers : trusted.Covers [first, second] := ⟨rfl, by decide +kernel⟩
  have hok : evidence.verify trusted 1 = .ok () := by decide +kernel
  have hfree : CollisionFree (TransactionInfo.building [first, second] ++ evidence.hashed 1) := by
    decide +kernel
  have havoid : AvoidsDigest .accumulatorPlaceholder
      (TransactionInfo.building [first, second] ++ evidence.hashed 1) := by decide +kernel
  exact ⟨hcovers, hok, hfree, havoid, info_of_verify hcovers hok hfree havoid⟩

end InfoEvidence
end VerifiedLedger
