import VerifiedLedger.Trust.Error
import VerifiedLedger.Tree.Error
/-! # Why a client stays where it is

Causes for which a client refuses an update or a saved state.
-/
namespace VerifiedLedger

inductive StateFault where
  | versionOutOfRange (version : Nat)
  | accumulator (error : ProofError)
  | validators (error : TrustError)
  | waypoint (fault : Waypoint.Fault)
  | noAnchor
  | subtreesWithoutVersion (count : Nat)
deriving DecidableEq

inductive ClientError where
  | invalidState (cause : StateFault)
  | staleLedger (lastVersion ledgerVersion : Nat)
  | needsHandover (epoch : UInt64)
  | trust (error : TrustError)
  | proof (error : ProofError)
  /-- The text is no JSON form of a state. -/
  | json
deriving DecidableEq

def StateFault.message : StateFault → String
  | .versionOutOfRange version => "known version " ++ toString version ++ " is out of range"
  | .accumulator error => error.message
  | .validators error => error.message
  | .waypoint fault => "waypoint: " ++ fault.message
  | .noAnchor => "no waypoint or validator set"
  | .subtreesWithoutVersion count => toString count ++ " subtrees but no known version"

def ClientError.message : ClientError → String
  | .invalidState cause => "Invalid persisted client state: " ++ cause.message
  | .staleLedger lastVersion ledgerVersion =>
    "Ledger version " ++ toString ledgerVersion ++ " is older than the known version " ++
      toString lastVersion
  | .needsHandover epoch =>
    "Ledger info of epoch " ++ toString epoch.toNat ++ " needs a validator change proof"
  | .trust error => error.message
  | .proof error => error.message
  | .json => "Client state JSON error"

end VerifiedLedger
