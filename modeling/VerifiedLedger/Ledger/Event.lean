import VerifiedLedger.Accumulator.Basic
import VerifiedLedger.Format.Hex
import VerifiedLedger.Format.Record
import VerifiedLedger.Format.Variant
/-! # Events

An event belongs to a stream with a key and has a number in it. A transaction commits to the list of
its events by the root of an accumulator over their hashes.
-/
namespace VerifiedLedger

structure EventKey where
  bytes : List UInt8
deriving DecidableEq

def EventKey.format : Format EventKey := Format.bytes.map (⟨·⟩) EventKey.bytes

structure EventHandle where
  count : UInt64
  key : EventKey
deriving DecidableEq

def EventHandle.format : Format EventHandle :=
  (Fields.field "count" .required .word <| .last "key" .required EventKey.format).record
    (fun h => (h.count, h.key)) (fun (count, key) => ⟨count, key⟩)

structure ContractEvent where
  key : EventKey
  sequenceNumber : UInt64
  data : List UInt8
deriving DecidableEq

namespace ContractEvent

/-- The fields of an event in the first, and so far only, version of its format. -/
def fieldsV0 : Format ContractEvent :=
  (Fields.field "key" .required EventKey.format <|
    .field "sequence_number" .required .word <|
    .last "data" .required .bytes).record
    (fun e => (e.key, e.sequenceNumber, e.data)) (fun (key, number, data) => ⟨key, number, data⟩)

def format : Format ContractEvent := (Variants.last "V0" fieldsV0).format id id

def hash (e : ContractEvent) : Digest := format.hash .contractEvent e

end ContractEvent

def eventRoot (events : List ContractEvent) : Except ProofError Digest :=
  Accumulator.root <$>
    (Accumulator.ofLeaves (events.map ContractEvent.hash) :
      Except ProofError (Accumulator .event))

end VerifiedLedger
