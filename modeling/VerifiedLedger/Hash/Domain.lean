import VerifiedLedger.Hash.Digest
import VerifiedLedger.Keccak.Sponge
/-! # Hash domains

Every kind of record and of tree node hashes in a domain of its own: the digest of the domain's tag
goes in front of the data, so that equal bytes of two kinds do not share a digest.
-/
namespace VerifiedLedger

def sha3 (message : List UInt8) : Digest := ⟨Keccak.sha3 message⟩

inductive Domain where
  | accessPath
  | accountAddress
  | ledgerInfo
  | transactionAccumulator
  | eventAccumulator
  | sparseInternal
  | sparseLeaf
  | accountStateBlob
  | transactionInfo
  | rawTransaction
  | signedTransaction
  | contractEvent
  | structTag
  | waypoint
deriving DecidableEq, Repr

namespace Domain

def all : List Domain :=
  [accessPath, accountAddress, ledgerInfo, transactionAccumulator, eventAccumulator, sparseInternal,
    sparseLeaf, accountStateBlob, transactionInfo, rawTransaction, signedTransaction, contractEvent,
    structTag, waypoint]

def tag : Domain → String
  | accessPath => "VM_ACCESS_PATH"
  | accountAddress => "AccountAddress"
  | ledgerInfo => "LedgerInfo"
  | transactionAccumulator => "TransactionAccumulator"
  | eventAccumulator => "EventAccumulator"
  | sparseInternal => "SparseMerkleInternal"
  | sparseLeaf => "SparseMerkleLeaf"
  | accountStateBlob => "AccountStateBlob"
  | transactionInfo => "TransactionInfo"
  | rawTransaction => "RawTransaction"
  | signedTransaction => "SignedTransaction"
  | contractEvent => "ContractEvent"
  | structTag => "StructTag"
  | waypoint => "WaypointLedgerInfo"

def suffix : String := "@@$$LIBRA$$@@"

def seedText (d : Domain) : List UInt8 := Utf8.encode d.tag ++ Utf8.encode suffix

def seed (d : Domain) : Digest := sha3 d.seedText

/-- The bytes whose digest stands for `data` in the domain. -/
def preimage (d : Domain) (data : List UInt8) : List UInt8 := d.seed.toList ++ data

def hash (d : Domain) (data : List UInt8) : Digest := sha3 (d.preimage data)

def hashPair (d : Domain) (left right : Digest) : Digest := d.hash (left.toList ++ right.toList)

end Domain

/-- A hash in progress in one domain. `reset` forgets all data and keeps the seed. -/
structure Hasher where
  seeded : Keccak.Sponge
  current : Keccak.Sponge
deriving DecidableEq

namespace Hasher

def start (d : Domain) : Hasher :=
  let seeded := Keccak.Sponge.start.absorb d.seed.toList
  ⟨seeded, seeded⟩

def update (h : Hasher) (data : List UInt8) : Hasher := { h with current := h.current.absorb data }

def reset (h : Hasher) : Hasher := { h with current := h.seeded }

def finish (h : Hasher) : Digest := ⟨h.current.finish⟩

end Hasher
end VerifiedLedger
