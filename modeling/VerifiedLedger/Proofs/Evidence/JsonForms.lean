import VerifiedLedger.Evidence.Account
import VerifiedLedger.Evidence.Event
import VerifiedLedger.Evidence.Transaction
import VerifiedLedger.Proofs.Ledger.JsonForms
/-! # JSON forms of proofs and evidence -/
namespace VerifiedLedger
open Format (hasJson_word)
open FieldRule (restores_required restores_optional)
variable {kind : AccumulatorKind} {depth : ℕ}

theorem LeafProof.hasJson (p : LeafProof kind) : LeafProof.format.HasJson (depth + 2) p :=
  .record (by decide) rfl <| .last restores_required (.list fun d _ => d.hasJson)

theorem RangeProof.hasJson (p : RangeProof kind) : RangeProof.format.HasJson (depth + 2) p :=
  .record (by decide) rfl <| .field restores_required (.list fun d _ => d.hasJson) <|
    .last restores_required (.list fun d _ => d.hasJson)

theorem SparseLeaf.hasJson (leaf : SparseLeaf) : SparseLeaf.format.HasJson (depth + 1) leaf :=
  .record (by decide) rfl <| .field restores_required (Digest.hasJson _) <|
    .last restores_required (Digest.hasJson _)

theorem SparseProof.hasJson (p : SparseProof) : SparseProof.format.HasJson (depth + 2) p :=
  .record (by decide) rfl <|
    .field restores_optional (.option rfl fun leaf _ => leaf.hasJson) <|
    .last restores_required (.list fun d _ => d.hasJson)

theorem InfoEvidence.hasJson (t : InfoEvidence) : InfoEvidence.format.HasJson (depth + 3) t :=
  .record (by decide) rfl <| .field restores_required (LeafProof.hasJson _) <|
    .last restores_required (TransactionInfo.hasJson _)

theorem AccountProof.hasJson (p : AccountProof) : AccountProof.format.HasJson (depth + 4) p :=
  .record (by decide) rfl <| .field restores_required (InfoEvidence.hasJson _) <|
    .last restores_required (SparseProof.hasJson _)

theorem AccountEvidence.hasJson (s : AccountEvidence) :
    AccountEvidence.format.HasJson (depth + 5) s :=
  .record (by decide) rfl <| .field restores_required (hasJson_word _) <|
    .field restores_optional (.option rfl fun blob _ => blob.hasJson) <|
    .last restores_required (AccountProof.hasJson _)

theorem EventEvidence.hasJson (e : EventEvidence) : EventEvidence.format.HasJson (depth + 4) e :=
  .record (by decide) rfl <| .field restores_required (hasJson_word _) <|
    .field restores_required (hasJson_word _) <|
    .field restores_required (ContractEvent.hasJson _) <|
    .field restores_required (InfoEvidence.hasJson _) <|
    .last restores_required (LeafProof.hasJson _)

theorem TransactionEvidence.hasJson (t : TransactionEvidence) :
    TransactionEvidence.format.HasJson (depth + 9) t :=
  .record (by decide) rfl <| .field restores_required (hasJson_word _) <|
    .field restores_required (SignedTransaction.hasJson _) <|
    .field restores_optional (.option rfl fun _ _ => .list fun event _ => event.hasJson) <|
    .last restores_required (InfoEvidence.hasJson _)

theorem RunEntry.hasJson (t : RunEntry) : RunEntry.format.HasJson (depth + 9) t :=
  .record (by decide) rfl <| .field restores_required (hasJson_word _) <|
    .field restores_required (SignedTransaction.hasJson _) <|
    .field restores_optional (.option rfl fun _ _ => .list fun event _ => event.hasJson) <|
    .last restores_required (TransactionInfo.hasJson _)

theorem RunEvidence.hasJson (l : RunEvidence) : RunEvidence.format.HasJson (depth + 11) l :=
  .record (by decide) rfl <| .field restores_required (.list fun entry _ => entry.hasJson) <|
    .last restores_required (RangeProof.hasJson _)

end VerifiedLedger
