import VerifiedLedger.Evidence.Info
/-! # Evidence for an event

The proof that an event is in the list to which a transaction's info commits, and the evidence for
that info.
-/
namespace VerifiedLedger

structure EventEvidence where
  transactionVersion : UInt64
  eventIndex : UInt64
  event : ContractEvent
  infoEvidence : InfoEvidence
  eventProof : LeafProof .event
deriving DecidableEq

structure EmittedEvent where
  transactionVersion : UInt64
  eventIndex : UInt64
  event : ContractEvent
deriving DecidableEq

namespace EventEvidence

def format : Format EventEvidence :=
  (Fields.field "transaction_version" .required .word <|
    .field "event_index" .required .word <|
    .field "event" .required ContractEvent.format <|
    .field "transaction_info_with_proof" .required InfoEvidence.format <|
    .last "transaction_info_to_event_proof" .required LeafProof.format).record
    (fun e => (e.transactionVersion, e.eventIndex, e.event, e.infoEvidence, e.eventProof))
    (fun (version, index, event, info, proof) => ⟨version, index, event, info, proof⟩)

def verify (e : EventEvidence) (trusted : LedgerInfo) :
    Except EvidenceError (Proven EmittedEvent) := do
  ofProof (e.eventProof.verify e.eventIndex.toNat e.event.hash e.infoEvidence.info.eventRoot)
  e.infoEvidence.verify trusted e.transactionVersion
  return ⟨⟨e.transactionVersion, e.eventIndex, e.event⟩, trusted⟩

end EventEvidence
end VerifiedLedger
