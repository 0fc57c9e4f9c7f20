import VerifiedLedger.Ledger.StructTag
import VerifiedLedger.Ledger.Event
/-! # Transactions

A sender signs the hash of a raw transaction. Once executed, the transaction is committed through
its info, whose hash is a leaf of the ledger's accumulator.
-/
namespace VerifiedLedger

structure TransactionInfo where
  transactionHash : Digest
  stateRoot : Digest
  eventRoot : Digest
  gasUsed : UInt64
deriving DecidableEq

namespace TransactionInfo

def format : Format TransactionInfo :=
  (Fields.field "transaction_hash" .required Digest.format <|
    .field "state_root_hash" .required Digest.format <|
    .field "event_root_hash" .required Digest.format <|
    .last "gas_used" .required .word).record
    (fun i => (i.transactionHash, i.stateRoot, i.eventRoot, i.gasUsed))
    (fun (transaction, state, event, gas) => ⟨transaction, state, event, gas⟩)

def hash (i : TransactionInfo) : Digest := format.hash .transactionInfo i

end TransactionInfo

inductive TransactionArgument where
  | u64 (value : UInt64)
  | address (value : Address)
  | bytes (value : List UInt8)
  | bool (value : Bool)
deriving DecidableEq

def TransactionArgument.format : Format TransactionArgument :=
  (Variants.data "U64" .word <| .data "Address" Address.format <| .data "Bytes" .bytes <|
    .last "Bool" .bool).format
    (fun
      | .u64 n => .inl n
      | .address a => .inr (.inl a)
      | .bytes b => .inr (.inr (.inl b))
      | .bool b => .inr (.inr (.inr b)))
    (fun
      | .inl n => .u64 n
      | .inr (.inl a) => .address a
      | .inr (.inr (.inl b)) => .bytes b
      | .inr (.inr (.inr b)) => .bool b)

inductive WriteOp where
  | deletion
  | value (bytes : List UInt8)
deriving DecidableEq

def WriteOp.format : Format WriteOp :=
  (Variants.bare "Deletion" <| .last "Value" .bytes).format
    (fun
      | .deletion => .inl ()
      | .value b => .inr b)
    (fun
      | .inl () => .deletion
      | .inr b => .value b)

structure WriteSet where
  writes : List (AccessPath × WriteOp)
  events : List ContractEvent
deriving DecidableEq

def WriteSet.format : Format WriteSet :=
  (Fields.field "write_set" .required (.list (.pair AccessPath.format WriteOp.format)) <|
    .last "events" .required (.list ContractEvent.format)).record
    (fun w => (w.writes, w.events)) (fun (writes, events) => ⟨writes, events⟩)

structure Script where
  code : List UInt8
  args : List TransactionArgument
deriving DecidableEq

def Script.format : Format Script :=
  (Fields.field "code" .required .bytes <|
    .last "args" .required (.list TransactionArgument.format)).record
    (fun s => (s.code, s.args)) (fun (code, args) => ⟨code, args⟩)

structure CodeModule where
  code : List UInt8
deriving DecidableEq

def CodeModule.format : Format CodeModule :=
  (Fields.last "code" .required .bytes).record CodeModule.code (⟨·⟩)

inductive TransactionPayload where
  | writeSet (writes : WriteSet)
  | script (script : Script)
  | codeModule (published : CodeModule)
deriving DecidableEq

def TransactionPayload.format : Format TransactionPayload :=
  (Variants.data "WriteSet" WriteSet.format <| .data "Script" Script.format <|
    .last "Module" CodeModule.format).format
    (fun
      | .writeSet w => .inl w
      | .script s => .inr (.inl s)
      | .codeModule m => .inr (.inr m))
    (fun
      | .inl w => .writeSet w
      | .inr (.inl s) => .script s
      | .inr (.inr m) => .codeModule m)

structure RawTransaction where
  sender : Address
  sequenceNumber : UInt64
  payload : TransactionPayload
  maxGasAmount : UInt64
  gasUnitPrice : UInt64
  expirationTime : UInt64
deriving DecidableEq

namespace RawTransaction

def format : Format RawTransaction :=
  (Fields.field "sender" .required Address.format <|
    .field "sequence_number" .required .word <|
    .field "payload" .required TransactionPayload.format <|
    .field "max_gas_amount" .required .word <|
    .field "gas_unit_price" .required .word <|
    .last "expiration_time" .required .word).record
    (fun t => (t.sender, t.sequenceNumber, t.payload, t.maxGasAmount, t.gasUnitPrice,
      t.expirationTime))
    (fun (sender, number, payload, maxGas, price, expiration) =>
      ⟨sender, number, payload, maxGas, price, expiration⟩)

def hash (t : RawTransaction) : Digest := format.hash .rawTransaction t

end RawTransaction

structure SignedTransaction where
  raw : RawTransaction
  publicKey : PublicKey
  signature : Signature
deriving DecidableEq

namespace SignedTransaction

def format : Format SignedTransaction :=
  (Fields.field "raw_txn" .required RawTransaction.format <|
    .field "public_key" .required PublicKey.format <|
    .last "signature" .required Signature.format).record
    (fun t => (t.raw, t.publicKey, t.signature))
    (fun (raw, publicKey, signature) => ⟨raw, publicKey, signature⟩)

def hash (t : SignedTransaction) : Digest := format.hash .signedTransaction t

def verify (t : SignedTransaction) : Except SignatureError Unit :=
  verifySignature t.publicKey t.raw.hash.toList t.signature

end SignedTransaction
end VerifiedLedger
