import VerifiedLedger.Ledger.Account
import VerifiedLedger.Ledger.LedgerInfo
import VerifiedLedger.Ledger.Transaction
import VerifiedLedger.Proofs.Format.Fixed
import VerifiedLedger.Proofs.Format.JsonForm
/-! # JSON forms of ledger records

Every record is written as JSON and read back, and its type bounds how deep it is nested. A map with
keys that are bytes has a JSON form only if it is empty.
-/
namespace VerifiedLedger
open Format (hasJson_byte hasJson_word hasJson_bool hasJson_bytes jsonForm_fixed jsonForm_sized)
open FieldRule (restores_required restores_optional)
variable {depth : ℕ}

section Hexadecimal

theorem Digest.hasJson (d : Digest) : Digest.format.HasJson depth d :=
  ⟨_, (jsonForm_fixed d.bytes).map rfl, Nat.zero_le _⟩

theorem Address.jsonForm (a : Address) : Address.format.JsonForm a (.string a.toHex) :=
  (jsonForm_fixed a.bytes).map rfl

theorem Address.hasJson (a : Address) : Address.format.HasJson depth a :=
  ⟨_, a.jsonForm, Nat.zero_le _⟩

theorem PublicKey.hasJson (k : PublicKey) : PublicKey.format.HasJson depth k :=
  ⟨_, (jsonForm_sized k.bytes).map rfl, Nat.zero_le _⟩

theorem Signature.hasJson (s : Signature) : Signature.format.HasJson depth s :=
  ⟨_, (jsonForm_sized s.bytes).map rfl, Nat.zero_le _⟩

end Hexadecimal

theorem AccessPath.hasJson (a : AccessPath) : AccessPath.format.HasJson (depth + 2) a :=
  .record (by decide) rfl <| .field restores_required (Address.hasJson _) <|
    .last restores_required (hasJson_bytes _)

theorem EventKey.hasJson (k : EventKey) : EventKey.format.HasJson (depth + 1) k :=
  .map rfl (hasJson_bytes _)

theorem EventHandle.hasJson (e : EventHandle) : EventHandle.format.HasJson (depth + 2) e :=
  .record (by decide) rfl <| .field restores_required (hasJson_word _) <|
    .last restores_required (EventKey.hasJson _)

theorem ContractEvent.hasJson_fieldsV0 (e : ContractEvent) :
    ContractEvent.fieldsV0.HasJson (depth + 2) e :=
  .record (by decide) rfl <| .field restores_required (EventKey.hasJson _) <|
    .field restores_required (hasJson_word _) <| .last restores_required (hasJson_bytes _)

theorem ContractEvent.hasJson (e : ContractEvent) : ContractEvent.format.HasJson (depth + 3) e :=
  .variants (by decide) rfl .last e.hasJson_fieldsV0

theorem AccountResource.hasJson (r : AccountResource) :
    AccountResource.format.HasJson (depth + 3) r :=
  .record (by decide) rfl <| .field restores_required (hasJson_bytes _) <|
    .field restores_required (hasJson_word _) <|
    .field restores_required (EventHandle.hasJson _) <|
    .field restores_required (EventHandle.hasJson _) <| .last restores_required (hasJson_word _)

theorem StateBlob.hasJson (b : StateBlob) : StateBlob.format.HasJson (depth + 1) b :=
  .map rfl (hasJson_bytes _)

namespace ResourceMap
variable {b : ResourceMap}

theorem hasJson_of_empty (h : b.resources.entries = []) :
    ResourceMap.format.HasJson (depth + 2) b :=
  .record (by decide) rfl <| .last restores_required <|
    .orderedMap (h ▸ nofun) (h ▸ nofun)

/-- The paths of resources are written as arrays, which cannot be names. -/
theorem toJson_eq_none_iff : ResourceMap.format.toJson b = none ↔ b.resources.entries ≠ [] := by
  constructor
  · intro hnone hempty
    obtain ⟨j, hj, -⟩ : format.HasJson 2 b := hasJson_of_empty hempty
    rw [hj.toJson_eq] at hnone
    cases hnone
  · intro hne
    obtain ⟨e, entries, hentries⟩ := List.exists_cons_of_ne_nil hne
    have hmember : Format.memberOf .bytes .bytes e = none := by
      have hbytes : ∀ byte ∈ e.1, Format.byte.HasJson 0 byte := fun byte _ => hasJson_byte byte
      obtain ⟨items, hitems, -⟩ := Format.exists_items hbytes
      have hkey : Format.bytes.toJson e.1 = some (.array items) :=
        congrArg (Json.array <$> ·) hitems
      rw [Format.memberOf, hkey]
    have hmap : (Format.orderedMap .bytes .bytes).toJson b.resources = none := by
      simp only [Format.orderedMap, hentries, List.mapM_cons, hmember]
      rfl
    simp only [format, Fields.record, Fields.last, Fields.fieldMembers, hmap]
    rfl

theorem hasJson_of_toJson {j : Json} (h : ResourceMap.format.toJson b = some j) :
    ResourceMap.format.HasJson (depth + 2) b := by
  refine hasJson_of_empty (Classical.by_contradiction fun hne => ?_)
  rw [toJson_eq_none_iff.2 hne] at h
  cases h

end ResourceMap

theorem TransactionInfo.hasJson (i : TransactionInfo) :
    TransactionInfo.format.HasJson (depth + 1) i :=
  .record (by decide) rfl <| .field restores_required (Digest.hasJson _) <|
    .field restores_required (Digest.hasJson _) <| .field restores_required (Digest.hasJson _) <|
    .last restores_required (hasJson_word _)

theorem TransactionArgument.hasJson (a : TransactionArgument) :
    TransactionArgument.format.HasJson (depth + 2) a := by
  refine .variants (by decide) (by cases a <;> rfl)
    (.orElse .last <| .orElse .last <| .orElse .last .last) ?_
  cases a with
  | u64 n => exact hasJson_word n
  | address a => exact a.hasJson
  | bytes b => exact hasJson_bytes b
  | bool b => exact hasJson_bool b

theorem WriteOp.hasJson (w : WriteOp) : WriteOp.format.HasJson (depth + 2) w := by
  refine .variants (by decide) (by cases w <;> rfl) (.orElse .lastBare .last) ?_
  cases w with
  | deletion => trivial
  | value bytes => exact hasJson_bytes bytes

theorem WriteSet.hasJson (w : WriteSet) : WriteSet.format.HasJson (depth + 5) w :=
  .record (by decide) rfl <|
    .field restores_required (.list fun write _ => .pair write.1.hasJson write.2.hasJson) <|
    .last restores_required (.list fun event _ => event.hasJson)

theorem Script.hasJson (s : Script) : Script.format.HasJson (depth + 4) s :=
  .record (by decide) rfl <| .field restores_required (hasJson_bytes _) <|
    .last restores_required (.list fun arg _ => arg.hasJson)

theorem CodeModule.hasJson (m : CodeModule) : CodeModule.format.HasJson (depth + 2) m :=
  .record (by decide) rfl <| .last restores_required (hasJson_bytes _)

theorem TransactionPayload.hasJson (p : TransactionPayload) :
    TransactionPayload.format.HasJson (depth + 6) p := by
  refine .variants (by decide) (by cases p <;> rfl) (.orElse .last <| .orElse .last .last) ?_
  cases p with
  | writeSet w => exact w.hasJson
  | script s => exact s.hasJson
  | codeModule m => exact m.hasJson

theorem RawTransaction.hasJson (t : RawTransaction) : RawTransaction.format.HasJson (depth + 7) t :=
  .record (by decide) rfl <| .field restores_required (Address.hasJson _) <|
    .field restores_required (hasJson_word _) <|
    .field restores_required (TransactionPayload.hasJson _) <|
    .field restores_required (hasJson_word _) <| .field restores_required (hasJson_word _) <|
    .last restores_required (hasJson_word _)

theorem SignedTransaction.hasJson (t : SignedTransaction) :
    SignedTransaction.format.HasJson (depth + 8) t :=
  .record (by decide) rfl <| .field restores_required (RawTransaction.hasJson _) <|
    .field restores_required (PublicKey.hasJson _) <|
    .last restores_required (Signature.hasJson _)

theorem SignatureScheme.hasJson (s : SignatureScheme) :
    SignatureScheme.format.HasJson (depth + 1) s :=
  .variants (by decide) rfl .lastBare trivial

theorem Validator.hasJson (v : Validator) : Validator.format.HasJson (depth + 1) v :=
  .record (by decide) rfl <| .field restores_required (Address.hasJson _) <|
    .field restores_required (PublicKey.hasJson _) <| .last restores_required (hasJson_word _)

theorem ValidatorSet.hasJson (s : ValidatorSet) : ValidatorSet.format.HasJson (depth + 3) s :=
  .record (by decide) rfl <| .field restores_required (SignatureScheme.hasJson _) <|
    .last restores_required (.list fun v _ => v.hasJson)

theorem LedgerInfo.hasJson (l : LedgerInfo) : LedgerInfo.format.HasJson (depth + 4) l :=
  .record (by decide) rfl <| .field restores_required (hasJson_word _) <|
    .field restores_required (hasJson_word _) <| .field restores_required (Digest.hasJson _) <|
    .field restores_required (Digest.hasJson _) <| .field restores_required (hasJson_word _) <|
    .field restores_required (hasJson_word _) <|
    .field restores_optional (.option rfl fun next _ => next.hasJson) <|
    .last restores_required (Digest.hasJson _)

theorem SignedLedgerInfo.hasJson_fieldsV0 (l : SignedLedgerInfo) :
    SignedLedgerInfo.fieldsV0.HasJson (depth + 5) l :=
  .record (by decide) rfl <| .field restores_required (LedgerInfo.hasJson _) <|
    .last restores_required <|
    .orderedMap (fun entry _ => ⟨_, entry.1.jsonForm⟩) fun entry _ => entry.2.hasJson

theorem SignedLedgerInfo.hasJson (l : SignedLedgerInfo) :
    SignedLedgerInfo.format.HasJson (depth + 6) l :=
  .variants (by decide) rfl .last l.hasJson_fieldsV0

end VerifiedLedger
