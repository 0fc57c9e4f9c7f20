import VerifiedLedger.Evidence.Info
import VerifiedLedger.Accumulator.RangeProof
/-! # Evidence for transactions

One transaction with its events and the evidence for its info, or a run of consecutive transactions
whose infos share one range proof. Every transaction is checked by itself as well: the sender's
signature, its hash in the info, and the root of its events if they were served.
-/
namespace VerifiedLedger

structure TransactionEvidence where
  version : UInt64
  transaction : SignedTransaction
  /-- The events of the transaction, if they were asked for. -/
  events : Option (List ContractEvent)
  proof : InfoEvidence
deriving DecidableEq

structure RunEntry where
  version : UInt64
  transaction : SignedTransaction
  events : Option (List ContractEvent)
  info : TransactionInfo
deriving DecidableEq

structure RunEvidence where
  transactions : List RunEntry
  proof : RangeProof .transaction
deriving DecidableEq

structure CommittedTransaction where
  version : UInt64
  transaction : SignedTransaction
  events : Option (List ContractEvent)
  gasUsed : UInt64
deriving DecidableEq

/-- Checks that need no ledger. -/
def checkContents (version : Nat) (transaction : SignedTransaction)
    (events : Option (List ContractEvent)) (info : TransactionInfo) :
    Except EvidenceError Unit := do
  transaction.verify.mapError (.badSender version)
  let computed := transaction.hash
  if computed ≠ info.transactionHash then
    throw (.transactionMismatch version computed info.transactionHash)
  match events with
  | none => return ()
  | some events =>
    let root ← ofProof (VerifiedLedger.eventRoot events)
    if root ≠ info.eventRoot then throw (.eventMismatch version root info.eventRoot)
    return ()

namespace TransactionEvidence

def format : Format TransactionEvidence :=
  (Fields.field "version" .required .word <|
    .field "signed_transaction" .required SignedTransaction.format <|
    .field "events" .optional (.option (.list ContractEvent.format)) <|
    .last "proof" .required InfoEvidence.format).record
    (fun t => (t.version, t.transaction, t.events, t.proof))
    (fun (version, transaction, events, proof) => ⟨version, transaction, events, proof⟩)

def verify (t : TransactionEvidence) (trusted : LedgerInfo) :
    Except EvidenceError (Proven CommittedTransaction) := do
  checkContents t.version.toNat t.transaction t.events t.proof.info
  t.proof.verify trusted t.version
  return ⟨⟨t.version, t.transaction, t.events, t.proof.info.gasUsed⟩, trusted⟩

end TransactionEvidence

namespace RunEntry

def format : Format RunEntry :=
  (Fields.field "version" .required .word <|
    .field "signed_transaction" .required SignedTransaction.format <|
    .field "events" .optional (.option (.list ContractEvent.format)) <|
    .last "transaction_info" .required TransactionInfo.format).record
    (fun t => (t.version, t.transaction, t.events, t.info))
    (fun (version, transaction, events, info) => ⟨version, transaction, events, info⟩)

def check (t : RunEntry) : Except EvidenceError CommittedTransaction := do
  checkContents t.version.toNat t.transaction t.events t.info
  return ⟨t.version, t.transaction, t.events, t.info.gasUsed⟩

end RunEntry

namespace RunEvidence

def format : Format RunEvidence :=
  (Fields.field "transactions" .required (.list RunEntry.format) <|
    .last "proof" .required RangeProof.format).record
    (fun l => (l.transactions, l.proof)) (fun (transactions, proof) => ⟨transactions, proof⟩)

/-- Pairs transactions, infos and event lists up and numbers them from `version` on; versions stop
at the last one there is. -/
def entries : (version : Nat) → List SignedTransaction → List TransactionInfo →
    Option (List (List ContractEvent)) → List RunEntry
  | version, transaction :: transactions, info :: infos, events =>
    ⟨UInt64.ofNat (min version (UInt64.size - 1)), transaction, events.bind (·.head?), info⟩ ::
      entries (version + 1) transactions infos (events.map (·.drop 1))
  | _, _, _, _ => []

/-- Puts a run together from the lists that a node serves. Only a run without transactions may lack
a first version. -/
def ofParts (firstVersion : Option UInt64) (transactions : List SignedTransaction)
    (infos : List TransactionInfo) (events : Option (List (List ContractEvent)))
    (proof : RangeProof .transaction) :
    Except EvidenceError RunEvidence := do
  if transactions.length ≠ infos.length then
    throw (.lengthMismatch .transactionInfos transactions.length infos.length)
  match events with
  | some lists =>
    if lists.length ≠ transactions.length then
      throw (.lengthMismatch .eventLists transactions.length lists.length)
  | none => pure ()
  match firstVersion with
  | some version => return ⟨entries version.toNat transactions infos events, proof⟩
  | none =>
    if transactions.isEmpty then return ⟨[], proof⟩
    else throw (.lengthMismatch .firstVersions 1 0)

def firstVersion (l : RunEvidence) : Nat :=
  match l.transactions with
  | [] => 0
  | t :: _ => t.version.toNat

def checkContiguous : (expected : Nat) → List RunEntry → Except EvidenceError Unit
  | _, [] => .ok ()
  | expected, t :: rest =>
    if t.version.toNat ≠ expected then
      .error (.versionGap expected t.version.toNat)
    else checkContiguous (expected + 1) rest

def checkLast (transactions : List RunEntry) (trusted : LedgerInfo) :
    Except EvidenceError Unit :=
  match transactions.getLast? with
  | none => .ok ()
  | some t =>
    if trusted.version < t.version then
      .error (.beyondLedger t.version.toNat trusted.version.toNat)
    else .ok ()

/-- Proves every transaction of the run: first the versions, then each entry by itself, then all
infos at once. -/
def verify (l : RunEvidence) (trusted : LedgerInfo) :
    Except EvidenceError (Proven (List CommittedTransaction)) := do
  checkContiguous l.firstVersion l.transactions
  checkLast l.transactions trusted
  let committed ← l.transactions.mapM RunEntry.check
  ofProof (l.proof.verify l.firstVersion (l.transactions.map fun t => t.info.hash)
    trusted.accumulatorRoot)
  return ⟨committed, trusted⟩

end RunEvidence
end VerifiedLedger
