import VerifiedLedger.Trust.Error
/-! # Trust anchors

What a client trusts: the validators of an epoch, one ledger info named by a waypoint, or anything
at all. The validators of an epoch vouch for a ledger info if those who signed it hold more than two
thirds of the voting power.
-/
namespace VerifiedLedger

structure EpochVerifier where
  epoch : UInt64
  validators : ValidatorSet
  hasPower : 0 < validators.totalPower
deriving DecidableEq

namespace EpochVerifier

/-- A set without voting power could never reach a quorum and is refused. -/
def ofSet (validators : ValidatorSet) (epoch : UInt64) : Except TrustError EpochVerifier :=
  if h : 0 < validators.totalPower then .ok ⟨epoch, validators, h⟩
  else .error (.noPower epoch)

/-- The voting power of the signers, if all of them are members and every signature is good. -/
def signedPower (members : OrderedMap Address Validator) (message : List UInt8) :
    List (Address × Signature) → Except TrustError Nat
  | [] => .ok 0
  | (author, signature) :: rest =>
    match members.get? author with
    | none => .error (.unknownSigner author)
    | some v =>
      match verifySignature v.publicKey message signature with
      | .error reason => .error (.badSignature author reason)
      | .ok () => do
        let power ← signedPower members message rest
        return v.votingPower.toNat + power

/-- Checks the signatures of a ledger info of the verifier's epoch. One bad signature spoils all. -/
def verify (v : EpochVerifier) (l : SignedLedgerInfo) : Except TrustError Unit :=
  let members := v.validators.members
  if l.ledgerInfo.epoch ≠ v.epoch then .error (.wrongEpoch v.epoch l.ledgerInfo.epoch)
  else if members.size < l.signatures.size then
    .error (.tooManySigners l.signatures.size members.size)
  else do
    let power ← signedPower members l.ledgerInfo.hash.toList l.signatures.entries
    let quorum := v.validators.quorumPower
    if power < quorum then throw (.tooLittlePower power quorum) else return ()

/-- Whether trust in a ledger info of that epoch needs a validator change first. -/
def needsHandover (v : EpochVerifier) (epoch : UInt64) : Bool := v.epoch < epoch

end EpochVerifier

def Waypoint.verify (w : Waypoint) (l : SignedLedgerInfo) : Except TrustError Unit :=
  let computed := Waypoint.ofLedgerInfo l.ledgerInfo
  if computed.version ≠ w.version then
    .error (.wrongWaypointVersion w.version computed.version)
  else if computed.value ≠ w.value then .error (.wrongWaypoint w computed)
  else .ok ()

inductive TrustAnchor where
  | validators (verifier : EpochVerifier)
  | waypoint (waypoint : Waypoint)
  /-- Trusts every ledger info. -/
  | insecure
deriving DecidableEq

namespace TrustAnchor

def isInsecure : TrustAnchor → Bool
  | insecure => true
  | _ => false

def verify : TrustAnchor → SignedLedgerInfo → Except TrustError Unit
  | validators v, l => v.verify l
  | waypoint w, l => w.verify l
  | insecure, _ => .ok ()

/-- Whether trust in a ledger info of that epoch needs a validator change first. A waypoint vouches
for nothing but its own ledger info. -/
def needsHandover : TrustAnchor → UInt64 → Bool
  | validators v, epoch => v.needsHandover epoch
  | waypoint _, _ => true
  | insecure, _ => false

end TrustAnchor
end VerifiedLedger
