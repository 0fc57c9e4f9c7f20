import VerifiedLedger.Ledger.Address
import VerifiedLedger.Format.Record
import VerifiedLedger.Format.Variant
/-! # Validator sets

The validators of one epoch, each with a key and a weight. A set may list an address twice; the last
entry of an address then counts.
-/
namespace VerifiedLedger

inductive SignatureScheme where
  | bls12381
deriving DecidableEq, Repr

def SignatureScheme.format : Format SignatureScheme :=
  (Variants.lastBare "Bls12381").format (fun .bls12381 => ()) (fun () => .bls12381)

structure Validator where
  address : Address
  publicKey : PublicKey
  votingPower : UInt64
deriving DecidableEq

def Validator.format : Format Validator :=
  (Fields.field "account_address" .required Address.format <|
    .field "consensus_public_key" .required PublicKey.format <|
    .last "consensus_voting_power" .required .word).record
    (fun v => (v.address, v.publicKey, v.votingPower))
    (fun (address, publicKey, power) => ⟨address, publicKey, power⟩)

structure ValidatorSet where
  scheme : SignatureScheme
  validators : List Validator
deriving DecidableEq

namespace ValidatorSet

def format : Format ValidatorSet :=
  (Fields.field "scheme" .required SignatureScheme.format <|
    .last "validators" .required (.list Validator.format)).record
    (fun s => (s.scheme, s.validators)) (fun (scheme, validators) => ⟨scheme, validators⟩)

def empty : ValidatorSet := ⟨.bls12381, []⟩

def powerOf (validators : List Validator) : Nat :=
  validators.foldr (fun v power => v.votingPower.toNat + power) 0

/-- The sum of all weights, those of repeated addresses included. -/
def listedPower (s : ValidatorSet) : Nat := powerOf s.validators

def members (s : ValidatorSet) : OrderedMap Address Validator :=
  .ofList (s.validators.map fun v => (v.address, v))

def totalPower (s : ValidatorSet) : Nat := powerOf s.members.values

/-- The least weight that is more than two thirds of the total. -/
def quorumPower (s : ValidatorSet) : Nat := s.totalPower * 2 / 3 + 1

end ValidatorSet
end VerifiedLedger
