import VerifiedLedger.Ledger.Validator
/-! # Ledger infos

A checkpoint of the ledger: the root of its accumulator at a version, with what the validators agree
on beside it. The last ledger info of an epoch announces the validators of the next one.
-/
namespace VerifiedLedger

structure LedgerInfo where
  epoch : UInt64
  round : UInt64
  consensusBlockId : Digest
  /-- The root of the transaction accumulator. -/
  accumulatorRoot : Digest
  /-- The index of the last transaction; the accumulator has one leaf more. -/
  version : UInt64
  timestampUsecs : UInt64
  nextValidators : Option ValidatorSet
  consensusDataHash : Digest
deriving DecidableEq

namespace LedgerInfo

def format : Format LedgerInfo :=
  (Fields.field "epoch" .required .word <|
    .field "round" .required .word <|
    .field "consensus_block_id" .required Digest.format <|
    .field "transaction_accumulator_hash" .required Digest.format <|
    .field "version" .required .word <|
    .field "timestamp_usecs" .required .word <|
    .field "next_validator_set" .optional (.option ValidatorSet.format) <|
    .last "consensus_data_hash" .required Digest.format).record
    (fun l => (l.epoch, l.round, l.consensusBlockId, l.accumulatorRoot, l.version, l.timestampUsecs,
      l.nextValidators, l.consensusDataHash))
    (fun (epoch, round, block, root, version, timestamp, next, data) =>
      ⟨epoch, round, block, root, version, timestamp, next, data⟩)

def hash (l : LedgerInfo) : Digest := format.hash .ledgerInfo l

def endsEpoch (l : LedgerInfo) : Bool := l.nextValidators.isSome

end LedgerInfo

structure SignedLedgerInfo where
  ledgerInfo : LedgerInfo
  signatures : OrderedMap Address Signature
deriving DecidableEq

namespace SignedLedgerInfo

/-- The fields in the first, and so far only, version of the format. -/
def fieldsV0 : Format SignedLedgerInfo :=
  (Fields.field "ledger_info" .required LedgerInfo.format <|
    .last "signatures" .required (.orderedMap Address.format Signature.format)).record
    (fun l => (l.ledgerInfo, l.signatures))
    (fun (ledgerInfo, signatures) => ⟨ledgerInfo, signatures⟩)

def format : Format SignedLedgerInfo := (Variants.last "V0" fieldsV0).format id id

end SignedLedgerInfo
end VerifiedLedger
