import VerifiedLedger.Ledger.StructTag
import VerifiedLedger.Ledger.Event
/-! # Accounts

The state tree stores an account as a blob. The blob is the encoding of a map from access paths to
resources, one of which is the account resource.
-/
namespace VerifiedLedger

structure AccountResource where
  authenticationKey : List UInt8
  balance : UInt64
  receivedEvents : EventHandle
  sentEvents : EventHandle
  sequenceNumber : UInt64
deriving DecidableEq

def AccountResource.format : Format AccountResource :=
  (Fields.field "authentication_key" .required .bytes <|
    .field "balance" .required .word <|
    .field "received_events" .required EventHandle.format <|
    .field "sent_events" .required EventHandle.format <|
    .last "sequence_number" .required .word).record
    (fun r => (r.authenticationKey, r.balance, r.receivedEvents, r.sentEvents, r.sequenceNumber))
    (fun (key, balance, received, sent, number) => ⟨key, balance, received, sent, number⟩)

structure ResourceMap where
  resources : OrderedMap (List UInt8) (List UInt8)
deriving DecidableEq

/-- The encoded resources of an account, as the state tree stores them. -/
structure StateBlob where
  bytes : List UInt8
deriving DecidableEq

namespace ResourceMap

def format : Format ResourceMap :=
  (Fields.last "resources" .required (.orderedMap .bytes .bytes)).record
    ResourceMap.resources (⟨·⟩)

def toBlob (b : ResourceMap) : StateBlob := ⟨format.encode b⟩

def resource? (b : ResourceMap) (path : List UInt8) : Option (List UInt8) := b.resources.get? path

def paths (b : ResourceMap) : List (List UInt8) := b.resources.keys

def accountPath : List UInt8 := StructTag.account.resourcePath

def account? (b : ResourceMap) : Except DecodeError (Option AccountResource) :=
  match b.resource? accountPath with
  | none => .ok none
  | some bytes => some <$> AccountResource.format.ofBytes bytes

end ResourceMap

namespace StateBlob

def format : Format StateBlob := Format.bytes.map (⟨·⟩) StateBlob.bytes

/-- The value that the state tree holds for an account. It covers the blob without a length. -/
def hash (b : StateBlob) : Digest := Domain.accountStateBlob.hash b.bytes

def decode (b : StateBlob) : Except DecodeError ResourceMap := ResourceMap.format.ofBytes b.bytes

def describe (b : StateBlob) : String :=
  "AccountStateBlob(" ++ toString b.bytes.length ++ " bytes, hash: " ++ b.hash.toHex ++ ")"

end StateBlob
end VerifiedLedger
