import VerifiedLedger.Proofs.Client.JsonForms
import VerifiedLedger.Proofs.Evidence.JsonForms
import VerifiedLedger.Proofs.Ledger.TypeTagJson
import VerifiedLedger.Proofs.RecordType
/-! # Records read back from their text

A record that has a JSON form is read back from its text, in either layout, as long as the text
opens no more arrays and objects at once than a reader allows. Only tags can be nested deeper.
-/
namespace VerifiedLedger
open Format (nestingLimit)

namespace RecordType

/-- The types whose values may be nested too deep, or have no JSON form at all, are named. -/
theorem hasJson_of_mem : ∀ t ∈ all ++ unlisted, (∀ v, t.format.HasJson nestingLimit v) ∨
    t = plain "TypeTag" TypeTag.format ∨ t = hashed "StructTag" StructTag.format StructTag.hash ∨
      t = plain "AccountBlob" ResourceMap.format := by
  simp only [all, unlisted, List.cons_append, List.nil_append, List.forall_mem_cons]
  -- In the order of the tables.
  exact ⟨.inl Digest.hasJson, .inl Address.hasJson, .inl PublicKey.hasJson, .inl Signature.hasJson,
    .inr (.inl trivial), .inr (.inr (.inl trivial)), .inl AccessPath.hasJson,
    .inl AccountResource.hasJson, .inl StateBlob.hasJson, .inr (.inr (.inr trivial)),
    .inl EventKey.hasJson, .inl EventHandle.hasJson, .inl ContractEvent.hasJson,
    .inl LedgerInfo.hasJson, .inl SignedLedgerInfo.hasJson, .inl TransactionInfo.hasJson,
    .inl TransactionArgument.hasJson, .inl WriteOp.hasJson, .inl Script.hasJson,
    .inl CodeModule.hasJson, .inl WriteSet.hasJson, .inl TransactionPayload.hasJson,
    .inl RawTransaction.hasJson, .inl SignedTransaction.hasJson, .inl Validator.hasJson,
    .inl ValidatorSet.hasJson, .inl Waypoint.hasJson, .inl LeafProof.hasJson,
    .inl LeafProof.hasJson, .inl RangeProof.hasJson, .inl SparseLeaf.hasJson,
    .inl SparseProof.hasJson, .inl InfoEvidence.hasJson, .inl AccountProof.hasJson,
    .inl AccountEvidence.hasJson, .inl EventEvidence.hasJson, .inl TransactionEvidence.hasJson,
    .inl RunEntry.hasJson, .inl RunEvidence.hasJson, .inl EpochChain.hasJson,
    .inl ConsistencyProof.hasJson, .inl LedgerUpdate.hasJson, .inl Progress.hasJson,
    .inl SavedState.hasJson, .inl ContractEvent.hasJson_fieldsV0,
    .inl SignedLedgerInfo.hasJson_fieldsV0, .inl SignatureScheme.hasJson, .inl RangeProof.hasJson,
    List.forall_mem_nil _⟩

/-- The types whose values may be nested too deep. -/
def tagNames : List String := ["TypeTag", "StructTag"]

theorem jsonForm_of_mem {t : RecordType} (ht : t ∈ all ++ unlisted) {v : t.Value} {j : Json}
    (hj : t.format.toJson v = some j) :
    t.format.JsonForm v j ∧ (t.name ∉ tagNames → j.nesting ≤ nestingLimit) := by
  obtain h | rfl | rfl | rfl := hasJson_of_mem t ht
  · exact ((h v).of_toJson hj).imp_right fun hdepth _ => hdepth
  · exact ⟨((TypeTag.hasJson v).of_toJson hj).1, absurd (by decide)⟩
  · exact ⟨((StructTag.hasJson v).of_toJson hj).1, absurd (by decide)⟩
  · have h : ResourceMap.format.HasJson nestingLimit v := ResourceMap.hasJson_of_toJson hj
    exact (h.of_toJson hj).imp_right fun hdepth _ => hdepth

theorem exists_toJson {t : RecordType} (ht : t ∈ all ++ unlisted) (hname : t.name ≠ "AccountBlob")
    (v : t.Value) : ∃ j, t.format.toJson v = some j := by
  obtain h | rfl | rfl | rfl := hasJson_of_mem t ht
  · obtain ⟨j, hj, -⟩ := h v
    exact ⟨j, hj.toJson_eq⟩
  · obtain ⟨j, hj, -⟩ := TypeTag.hasJson v
    exact ⟨j, hj.toJson_eq⟩
  · obtain ⟨j, hj, -⟩ := StructTag.hasJson v
    exact ⟨j, hj.toJson_eq⟩
  · exact absurd rfl hname

/-- A record that has a JSON form is read back from its text exactly if the text is not nested too
deep. Only tags can be, and only a map of resources can lack a JSON form. -/
theorem ofJson_parse_render :
    (∀ t ∈ all ++ unlisted, ∀ v j, t.format.toJson v = some j → ∀ layout,
      (Json.parse (j.render layout)).bind (t.format.ofJson nestingLimit) =
        if j.nesting ≤ nestingLimit then some v else none) ∧
      (∀ t ∈ all ++ unlisted, t.name ∉ tagNames → ∀ v j, t.format.toJson v = some j →
        j.nesting ≤ nestingLimit) ∧
      (∀ t ∈ all ++ unlisted, t.name ≠ "AccountBlob" → ∀ v, ∃ j, t.format.toJson v = some j) ∧
      ∀ b, ResourceMap.format.toJson b = none ↔ b.resources.entries ≠ [] := by
  exact ⟨fun t ht v j hj => (jsonForm_of_mem ht hj).1.parse_render,
    fun t ht hname v j hj => (jsonForm_of_mem ht hj).2 hname, fun t ht => exists_toJson ht,
    fun b => ResourceMap.toJson_eq_none_iff⟩

theorem ofJson_parse_render_twoSigners :
    plain "LedgerInfoWithSignatures" SignedLedgerInfo.format ∈ all ++ unlisted ∧
      "LedgerInfoWithSignatures" ∉ tagNames ∧ "LedgerInfoWithSignatures" ≠ "AccountBlob" ∧
      ∃ j, SignedLedgerInfo.format.toJson twoSigners = some j ∧ ∀ layout,
        (Json.parse (j.render layout)).bind (SignedLedgerInfo.format.ofJson nestingLimit) =
          some twoSigners := by
  have hmem : plain "LedgerInfoWithSignatures" SignedLedgerInfo.format ∈ all ++ unlisted :=
    List.mem_append_left _ (List.mem_of_getElem? (i := 14) rfl)
  have htag : "LedgerInfoWithSignatures" ∉ tagNames := by decide
  have hname : "LedgerInfoWithSignatures" ≠ "AccountBlob" := by decide
  obtain ⟨hread, hdepth, hwritten, -⟩ := ofJson_parse_render
  obtain ⟨j, hj⟩ := hwritten _ hmem hname twoSigners
  refine ⟨hmem, htag, hname, j, hj, fun layout => ?_⟩
  exact (hread _ hmem twoSigners j hj layout).trans (if_pos (hdepth _ hmem htag twoSigners j hj))

/-- A vector of vectors, that many deep, of bytes. -/
def nestedVector : ℕ → TypeTag
  | 0 => .u8
  | n + 1 => .vector (nestedVector n)

def nestedVectorJson : ℕ → Json
  | 0 => .string "U8"
  | n + 1 => .record [("Vector", nestedVectorJson n)]

theorem toJson_formatAt_nestedVector (n : ℕ) :
    (TypeTag.formatAt (n + 1)).toJson (nestedVector n) = some (nestedVectorJson n) := by
  induction n with
  | zero => rfl
  | succ n ih => rw [nestedVector, TypeTag.toJson_formatAt_vector, Variants.dataJson, ih]; rfl

theorem depth_nestedVector (n : ℕ) : (nestedVector n).depth = n + 1 := by
  induction n with
  | zero => rfl
  | succ n ih => rw [nestedVector, TypeTag.depth, ih]

theorem toJson_nestedVector (n : ℕ) :
    TypeTag.format.toJson (nestedVector n) = some (nestedVectorJson n) := by
  have hdepth : (nestedVector n).depth ≤ n + 1 := Nat.le_of_eq (depth_nestedVector n)
  exact (TypeTag.toJson_formatAt (Nat.le_refl _) hdepth).trans (toJson_formatAt_nestedVector n)

theorem nesting_nestedVectorJson (n : ℕ) : (nestedVectorJson n).nesting = n := by
  induction n with
  | zero => rfl
  | succ n ih =>
    rw [nestedVectorJson, Json.record, List.map_singleton, Json.nesting, Json.nestingOfMembers, ih,
      Json.nestingOfMembers, Nat.max_zero]

/-- One level more than a reader allows: the text that is written is not read back. -/
theorem ofJson_parse_render_nestedVector :
    plain "TypeTag" TypeTag.format ∈ all ++ unlisted ∧
      TypeTag.format.toJson (nestedVector 128) = some (nestedVectorJson 128) ∧ ∀ layout,
        (Json.parse ((nestedVectorJson 128).render layout)).bind
          (TypeTag.format.ofJson nestingLimit) = none := by
  have hwritten : TypeTag.format.toJson (nestedVector 128) = some (nestedVectorJson 128) :=
    toJson_nestedVector 128
  have hdeep : ¬(nestedVectorJson 128).nesting ≤ nestingLimit := by
    rw [nesting_nestedVectorJson]
    decide
  have hform := ((TypeTag.hasJson (nestedVector 128)).of_toJson hwritten).1
  exact ⟨List.mem_append_left _ (List.mem_of_getElem? (i := 4) rfl), hwritten,
    fun layout => (hform.parse_render layout).trans (if_neg hdeep)⟩

end RecordType
end VerifiedLedger
