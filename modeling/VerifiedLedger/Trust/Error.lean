import VerifiedLedger.Trust.Waypoint
/-! # Why a ledger info is not trusted

One cause for each check of signatures, waypoints and validator changes.
-/
namespace VerifiedLedger

inductive TrustError where
  | unknownSigner (author : Address)
  | badSignature (author : Address) (reason : SignatureError)
  | tooLittlePower (votingPower quorum : Nat)
  | tooManySigners (got max : Nat)
  | wrongEpoch (expected got : UInt64)
  | wrongWaypoint (expected got : Waypoint)
  | wrongWaypointVersion (expected got : UInt64)
  | noNextValidators (epoch version : UInt64)
  | noPower (epoch : UInt64)
  | emptyChain
  | epochNotLater (previous got : UInt64)
deriving DecidableEq

def TrustError.message : TrustError → String
  | .unknownSigner author => "Signature from unknown author " ++ author.toHex
  | .badSignature author reason =>
    "Invalid signature from " ++ author.toHex ++ ": " ++ reason.message
  | .tooLittlePower votingPower quorum =>
    "Insufficient voting power: " ++ toString votingPower ++ " signed (need at least " ++
      toString quorum ++ ")"
  | .tooManySigners got max =>
    "Too many signatures: " ++ toString got ++ " signers but only " ++ toString max ++ " validators"
  | .wrongEpoch expected got =>
    "Ledger info is from epoch " ++ toString got.toNat ++ " but the verifier is for epoch " ++
      toString expected.toNat
  | .wrongWaypoint expected got =>
    "Ledger info does not match waypoint: expected " ++ expected.toText ++ ", got " ++ got.toText
  | .wrongWaypointVersion expected got =>
    "Ledger info version " ++ toString got.toNat ++ " does not match waypoint version " ++
      toString expected.toNat
  | .noNextValidators epoch version =>
    "Ledger info at epoch " ++ toString epoch.toNat ++ ", version " ++ toString version.toNat ++
      " carries no next validator set"
  | .noPower epoch =>
    "Validator set of epoch " ++ toString epoch.toNat ++ " has no voting power"
  | .emptyChain => "Validator change proof carries no ledger infos"
  | .epochNotLater previous got =>
    "Validator change epoch " ++ toString got.toNat ++ " does not follow epoch " ++
      toString previous.toNat

def Waypoint.ofEpochEnd (l : LedgerInfo) : Except TrustError Waypoint :=
  if l.endsEpoch then .ok (.ofLedgerInfo l)
  else .error (.noNextValidators l.epoch l.version)

end VerifiedLedger
