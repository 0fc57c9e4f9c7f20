import VerifiedLedger.Evidence.Event
import VerifiedLedger.Proofs.Evidence.Info
/-! # Evidence for an event is right

The index of an event is bounded by the depth of a proof only, and never compared with the number of
events. Still an event that is hashed up to the root of its list is the one with its index, because
the info that names the root is itself the one of its version.
-/
namespace VerifiedLedger
variable {infos : List TransactionInfo} {trusted : LedgerInfo} {events : List ContractEvent}

namespace EventEvidence
variable {e : EventEvidence} {proven : Proven EmittedEvent}

/-- The strings that are hashed when the evidence is checked. -/
def hashed (e : EventEvidence) : List (List UInt8) :=
  Domain.contractEvent.preimage (ContractEvent.format.encode e.event) ::
    ((e.eventProof.computation e.eventIndex.toNat e.event.hash).hashed .event ++
      e.infoEvidence.hashed e.transactionVersion)

theorem verify_eq_ok_iff :
    e.verify trusted = .ok proven ↔
      e.eventProof.verify e.eventIndex.toNat e.event.hash e.infoEvidence.info.eventRoot = .ok () ∧
        e.infoEvidence.verify trusted e.transactionVersion = .ok () ∧
        ⟨⟨e.transactionVersion, e.eventIndex, e.event⟩, trusted⟩ = proven := by
  simp only [verify, bind_eq_ok_iff, pure_eq_ok_iff, ofProof, mapError_eq_ok_iff]
  constructor
  · rintro ⟨_, hevent, _, hinfo, hproven⟩
    exact ⟨hevent, hinfo, hproven⟩
  · rintro ⟨hevent, hinfo, hproven⟩
    exact ⟨(), hevent, (), hinfo, hproven⟩

/-- Whatever the depths of the two proofs, the index is that of an event of the transaction, and the
event is the one there. -/
theorem event_of_verify (hcovers : trusted.Covers infos)
    (hcommits : ∀ info ∈ infos[e.transactionVersion.toNat]?, eventRoot events = .ok info.eventRoot)
    (hfits : ∀ event ∈ events, event.Fits) (hserved : e.event.Fits)
    (hok : e.verify trusted = .ok proven)
    (hfree : CollisionFree
      (TransactionInfo.building infos ++ ContractEvent.building events ++ e.hashed))
    (havoid : AvoidsDigest .accumulatorPlaceholder
      (TransactionInfo.building infos ++ ContractEvent.building events ++ e.hashed)) :
    proven.value = ⟨e.transactionVersion, e.eventIndex, e.event⟩ ∧
      ∃ h : e.eventIndex.toNat < events.length, e.event = events[e.eventIndex.toNat] := by
  obtain ⟨hevent, hinfo, rfl⟩ := verify_eq_ok_iff.1 hok
  have hcheck := List.subset_append_right
    (TransactionInfo.building infos ++ ContractEvent.building events) e.hashed
  have hbuild := List.append_subset.1 (List.subset_append_left
    (TransactionInfo.building infos ++ ContractEvent.building events) e.hashed)
  obtain ⟨hpreimage, hproofs⟩ := List.cons_subset.1 hcheck
  obtain ⟨hclimb, hinfoStrings⟩ := List.append_subset.1 hproofs
  have hserves := InfoEvidence.getElem?_of_verify hcovers hinfo hfree havoid hbuild.1 hinfoStrings
  have hroot := ContractEvent.rootOf_records (hcommits _ hserves)
  have hrecord := LeafProof.record_of_verify hfree havoid (by decide) hbuild.2 hroot hevent
    hpreimage hclimb
  have hget := Format.getElem?_of_map_encode (fun event h => (hfits event h).readsBack)
    hserved.readsBack hrecord
  obtain ⟨hlt, hsame⟩ := List.getElem?_eq_some_iff.1 hget
  exact ⟨rfl, hlt, hsame.symm⟩

/-- The second of two events of the second of two transactions. -/
theorem event_of_verify_second_of_two :
    let events : List ContractEvent := [⟨⟨[]⟩, 0, []⟩, ⟨⟨[7]⟩, 1, [7]⟩]
    let root := AccumulatorKind.event.node events[0].hash events[1].hash
    let infos : List TransactionInfo := [⟨.zero, .zero, .zero, 0⟩, ⟨.zero, .zero, root, 1⟩]
    let trusted : LedgerInfo := ⟨0, 0, .zero,
      AccumulatorKind.transaction.node infos[0].hash infos[1].hash, 1, 0, none, .zero⟩
    let e : EventEvidence := ⟨1, 1, events[1], ⟨⟨[infos[0].hash]⟩, infos[1]⟩, ⟨[events[0].hash]⟩⟩
    let strings := TransactionInfo.building infos ++ ContractEvent.building events ++ e.hashed
    let proven : Proven EmittedEvent := ⟨⟨1, 1, events[1]⟩, trusted⟩
    trusted.Covers infos ∧
      (∀ info ∈ infos[e.transactionVersion.toNat]?, eventRoot events = .ok info.eventRoot) ∧
      (∀ event ∈ events, event.Fits) ∧ e.event.Fits ∧ e.verify trusted = .ok proven ∧
      CollisionFree strings ∧ AvoidsDigest .accumulatorPlaceholder strings ∧
      proven.value = ⟨e.transactionVersion, e.eventIndex, e.event⟩ ∧
        ∃ h : e.eventIndex.toNat < events.length, e.event = events[e.eventIndex.toNat] := by
  intro events root infos trusted e strings proven
  have hfits : ∀ event ∈ events, event.Fits :=
    List.forall_mem_cons.2 ⟨⟨by decide, by decide⟩,
      List.forall_mem_singleton.2 ⟨by decide, by decide⟩⟩
  have hserved : e.event.Fits := ⟨by decide, by decide⟩
  -- Worked out together, so that every string is hashed once.
  obtain ⟨hledger, hroot, hevent, hinfo, hfree, havoid⟩ :
      Accumulator.root <$> (Accumulator.ofLeaves (infos.map TransactionInfo.hash) :
          Except ProofError (Accumulator .transaction)) = .ok trusted.accumulatorRoot ∧
        eventRoot events = .ok root ∧
        e.eventProof.verify e.eventIndex.toNat e.event.hash e.infoEvidence.info.eventRoot = .ok () ∧
        e.infoEvidence.verify trusted e.transactionVersion = .ok () ∧
        CollisionFree strings ∧ AvoidsDigest .accumulatorPlaceholder strings := by decide +kernel
  have hcovers : trusted.Covers infos := ⟨rfl, hledger⟩
  have hcommits : ∀ info ∈ infos[e.transactionVersion.toNat]?,
      eventRoot events = .ok info.eventRoot := by
    rintro _ ⟨⟩
    exact hroot
  have hok : e.verify trusted = .ok proven := verify_eq_ok_iff.2 ⟨hevent, hinfo, rfl⟩
  exact ⟨hcovers, hcommits, hfits, hserved, hok, hfree, havoid,
    event_of_verify hcovers hcommits hfits hserved hok hfree havoid⟩

end EventEvidence
end VerifiedLedger
