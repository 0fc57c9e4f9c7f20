import VerifiedLedger.Evidence.Error
import VerifiedLedger.Accumulator.LeafProof
import VerifiedLedger.Ledger.Transaction
import VerifiedLedger.Ledger.LedgerInfo
/-! # Evidence for a transaction info

The proof that an info is the leaf at some version of the accumulator of a trusted ledger info. All
other evidence about the ledger ends in one of these.
-/
namespace VerifiedLedger

structure Proven (α : Type) where
  value : α
  ledgerInfo : LedgerInfo

structure InfoEvidence where
  proof : LeafProof .transaction
  info : TransactionInfo
deriving DecidableEq

namespace InfoEvidence

def format : Format InfoEvidence :=
  (Fields.field "ledger_info_to_transaction_info_proof" .required LeafProof.format <|
    .last "transaction_info" .required TransactionInfo.format).record
    (fun t => (t.proof, t.info)) (fun (proof, info) => ⟨proof, info⟩)

def verify (t : InfoEvidence) (trusted : LedgerInfo) (version : UInt64) :
    Except EvidenceError Unit :=
  if trusted.version < version then
    .error (.beyondLedger version.toNat trusted.version.toNat)
  else ofProof (t.proof.verify version.toNat t.info.hash trusted.accumulatorRoot)

end InfoEvidence
end VerifiedLedger
