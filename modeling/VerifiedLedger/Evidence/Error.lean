import VerifiedLedger.Tree.Error
import VerifiedLedger.Format.Basic
import VerifiedLedger.Bls.Signature
/-! # Why evidence is refused

Evidence is what a node serves about a transaction, an event or an account. Each check against a
trusted ledger info has a cause of its own.
-/
namespace VerifiedLedger

inductive ListPart where
  | transactionInfos
  | eventLists
  | firstVersions
deriving DecidableEq, Repr

def ListPart.name : ListPart → String
  | transactionInfos => "transaction infos"
  | eventLists => "event lists"
  | firstVersions => "first versions"

inductive EvidenceError where
  | proof (error : ProofError)
  | beyondLedger (version ledgerVersion : Nat)
  | versionGap (expected got : Nat)
  | transactionMismatch (version : Nat) (computed expected : Digest)
  | eventMismatch (version : Nat) (computed expected : Digest)
  | badSender (version : Nat) (reason : SignatureError)
  | lengthMismatch (what : ListPart) (expected got : Nat)
  | noResource (path : List UInt8)
  | undecodable (error : DecodeError)
deriving DecidableEq

def EvidenceError.message : EvidenceError → String
  | .proof error => error.message
  | .beyondLedger version ledgerVersion =>
    "Version " ++ toString version ++ " is beyond the verified ledger version " ++
      toString ledgerVersion
  | .versionGap expected got =>
    "Transaction versions are not contiguous: expected " ++ toString expected ++ ", got " ++
      toString got
  | .transactionMismatch version computed expected =>
    "Transaction " ++ toString version ++ " hashes to " ++ computed.toHex ++
      " but its info commits to " ++ expected.toHex
  | .eventMismatch version computed expected =>
    "Events of transaction " ++ toString version ++ " have root " ++ computed.toHex ++
      " but its info commits to " ++ expected.toHex
  | .badSender version reason =>
    "Invalid sender signature on transaction " ++ toString version ++ ": " ++ reason.message
  | .lengthMismatch what expected got =>
    "Length mismatch: " ++ toString expected ++ " " ++ what.name ++ " expected, got " ++
      toString got
  | .noResource path => "Resource not found at path " ++ Hex.encode path
  | .undecodable error => error.message

def ofProof {α : Type} (result : Except ProofError α) : Except EvidenceError α :=
  result.mapError .proof

end VerifiedLedger
