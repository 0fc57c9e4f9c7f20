import VerifiedLedger.Client.LightClient
import VerifiedLedger.Proofs.Ledger.JsonForms
import VerifiedLedger.Proofs.Trust.Waypoint
/-! # JSON forms of updates and states -/
namespace VerifiedLedger
open Format (hasJson_word hasJson_bool hasJson_text)
open FieldRule (restores_required restores_optional restores_sparse restores_withDefault)
variable {depth : ℕ}

theorem Waypoint.hasJson (w : Waypoint) : Waypoint.format.HasJson depth w := by
  refine .refine ?_ (hasJson_text w.toText)
  simp only [w.ofText_toText]

theorem EpochChain.hasJson (chain : EpochChain) : EpochChain.format.HasJson (depth + 8) chain :=
  .record (by decide) rfl <| .field restores_required (.list fun l _ => l.hasJson) <|
    .last restores_required (hasJson_bool _)

theorem ConsistencyProof.hasJson (p : ConsistencyProof) :
    ConsistencyProof.format.HasJson (depth + 2) p :=
  .record (by decide) rfl <| .last restores_required (.list fun d _ => d.hasJson)

theorem LedgerUpdate.hasJson (u : LedgerUpdate) : LedgerUpdate.format.HasJson (depth + 9) u :=
  .record (by decide) rfl <| .field restores_required (SignedLedgerInfo.hasJson _) <|
    .field restores_optional (.option rfl fun chain _ => chain.hasJson) <|
    .last restores_required (ConsistencyProof.hasJson _)

theorem Progress.hasJson (known : Progress) : Progress.format.HasJson (depth + 2) known :=
  .record (by decide) rfl <| .field restores_required (hasJson_word _) <|
    .last restores_required (.list fun d _ => d.hasJson)

theorem SavedState.hasJson (s : SavedState) : SavedState.format.HasJson (depth + 4) s :=
  .record (by decide) rfl <|
    .field restores_sparse (.option rfl fun waypoint _ => hasJson_text waypoint) <|
    .field restores_sparse (.option rfl fun set _ => set.hasJson) <|
    .field (restores_withDefault 0) (hasJson_word _) <|
    .field restores_sparse (.option rfl fun version _ => hasJson_word version) <|
    .last (restores_withDefault []) (.list fun d _ => d.hasJson)

end VerifiedLedger
