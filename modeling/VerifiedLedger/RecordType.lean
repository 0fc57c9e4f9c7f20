import VerifiedLedger.Client.LightClient
import VerifiedLedger.Evidence.Account
import VerifiedLedger.Evidence.Event
import VerifiedLedger.Evidence.Transaction
/-! # Record types by name

Every type of record that is written, with its format and, if its digest means something, the hash.
-/
namespace VerifiedLedger

structure RecordType where
  name : String
  Value : Type
  format : Format Value
  hash? : Option (Value → Digest)

namespace RecordType

def plain (name : String) {α : Type} (format : Format α) : RecordType := ⟨name, α, format, none⟩

def hashed (name : String) {α : Type} (format : Format α) (hash : α → Digest) : RecordType :=
  ⟨name, α, format, some hash⟩

def all : List RecordType :=
  [plain "HashValue" Digest.format,
    hashed "AccountAddress" Address.format Address.hash,
    plain "BlsPublicKey" PublicKey.format,
    plain "BlsSignature" Signature.format,
    plain "TypeTag" TypeTag.format,
    hashed "StructTag" StructTag.format StructTag.hash,
    hashed "AccessPath" AccessPath.format AccessPath.hash,
    plain "AccountResource" AccountResource.format,
    hashed "AccountStateBlob" StateBlob.format StateBlob.hash,
    plain "AccountBlob" ResourceMap.format,
    plain "EventKey" EventKey.format,
    plain "EventHandle" EventHandle.format,
    hashed "ContractEvent" ContractEvent.format ContractEvent.hash,
    hashed "LedgerInfo" LedgerInfo.format LedgerInfo.hash,
    plain "LedgerInfoWithSignatures" SignedLedgerInfo.format,
    hashed "TransactionInfo" TransactionInfo.format TransactionInfo.hash,
    plain "TransactionArgument" TransactionArgument.format,
    plain "WriteOp" WriteOp.format,
    plain "Script" Script.format,
    plain "Module" CodeModule.format,
    plain "WriteSetPayload" WriteSet.format,
    plain "TransactionPayload" TransactionPayload.format,
    hashed "RawTransaction" RawTransaction.format RawTransaction.hash,
    hashed "SignedTransaction" SignedTransaction.format SignedTransaction.hash,
    plain "ValidatorInfo" Validator.format,
    plain "ValidatorSet" ValidatorSet.format,
    plain "Waypoint" Waypoint.format,
    plain "TransactionAccumulatorProof" (@LeafProof.format .transaction),
    plain "EventAccumulatorProof" (@LeafProof.format .event),
    plain "TransactionAccumulatorRangeProof" (@RangeProof.format .transaction),
    plain "SparseMerkleLeafNode" SparseLeaf.format,
    plain "SparseMerkleProof" SparseProof.format,
    plain "TransactionInfoWithProof" InfoEvidence.format,
    plain "AccountStateProof" AccountProof.format,
    plain "AccountStateWithProof" AccountEvidence.format,
    plain "EventWithProof" EventEvidence.format,
    plain "TransactionWithProof" TransactionEvidence.format,
    plain "TransactionWithInfo" RunEntry.format,
    plain "TransactionListWithProof" RunEvidence.format,
    plain "ValidatorChangeProof" EpochChain.format,
    plain "LedgerConsistencyProof" ConsistencyProof.format,
    plain "LedgerUpdate" LedgerUpdate.format,
    plain "SyncState" Progress.format,
    plain "ClientState" SavedState.format]

def ofName? (name : String) : Option RecordType := all.find? fun t => t.name == name

end RecordType
end VerifiedLedger
