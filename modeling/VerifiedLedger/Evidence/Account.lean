import VerifiedLedger.Evidence.Info
import VerifiedLedger.SparseTree.Proof
import VerifiedLedger.Ledger.Account
/-! # Evidence for an account

The state of an account after a transaction, or its absence: a proof in the state tree whose root
the transaction's info names, and the evidence for that info.
-/
namespace VerifiedLedger

structure AccountProof where
  infoEvidence : InfoEvidence
  stateProof : SparseProof
deriving DecidableEq

def AccountProof.format : Format AccountProof :=
  (Fields.field "transaction_info_with_proof" .required InfoEvidence.format <|
    .last "transaction_info_to_account_proof" .required SparseProof.format).record
    (fun p => (p.infoEvidence, p.stateProof)) (fun (info, state) => ⟨info, state⟩)

/-- A state as a node serves it; no blob claims that the account does not exist. -/
structure AccountEvidence where
  version : UInt64
  blob : Option StateBlob
  proof : AccountProof
deriving DecidableEq

structure AccountSnapshot where
  address : Address
  version : UInt64
  blob : Option StateBlob
deriving DecidableEq

namespace AccountEvidence

def format : Format AccountEvidence :=
  (Fields.field "version" .required .word <|
    .field "blob" .optional (.option StateBlob.format) <|
    .last "proof" .required AccountProof.format).record
    (fun s => (s.version, s.blob, s.proof)) (fun (version, blob, proof) => ⟨version, blob, proof⟩)

/-- Checks that the tree with root `stateRoot` holds the blob for the account, or nothing. -/
def verifyState (s : AccountEvidence) (address : Address) (stateRoot : Digest) :
    Except ProofError Unit :=
  match s.blob with
  | some blob => s.proof.stateProof.verifyPresent ⟨address.hash, blob.hash⟩ stateRoot
  | none => s.proof.stateProof.verifyAbsent address.hash stateRoot

/-- Proves the state of an account: first the transaction info, then the state in its tree. -/
def verify (s : AccountEvidence) (address : Address) (trusted : LedgerInfo) :
    Except EvidenceError (Proven AccountSnapshot) := do
  s.proof.infoEvidence.verify trusted s.version
  ofProof (s.verifyState address s.proof.infoEvidence.info.stateRoot)
  return ⟨⟨address, s.version, s.blob⟩, trusted⟩

end AccountEvidence

/-- The resources of a proven state; `none` if the account does not exist. -/
def AccountSnapshot.resources (s : AccountSnapshot) : Except EvidenceError (Option ResourceMap) :=
  match s.blob with
  | none => .ok none
  | some raw => some <$> raw.decode.mapError .undecodable

namespace ResourceMap

def resource (b : ResourceMap) (path : List UInt8) : Except EvidenceError (List UInt8) :=
  match b.resource? path with
  | some bytes => .ok bytes
  | none => .error (.noResource path)

def account (b : ResourceMap) : Except EvidenceError AccountResource :=
  match b.account? with
  | .error e => .error (.undecodable e)
  | .ok none => .error (.noResource accountPath)
  | .ok (some resource) => .ok resource

end ResourceMap
end VerifiedLedger
