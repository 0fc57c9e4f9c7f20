import VerifiedLedger.Proofs.Ledger.JsonForms
import VerifiedLedger.Proofs.Ledger.StructTag
/-! # JSON forms of type tags

A type tag is written alike by the formats of all depths that are not below its own, and the
formats of all depths above a budget read alike within it. So a tag of any depth is read back with
the budget that its text asks for.
-/
namespace VerifiedLedger
open Format (hasJson_text)
open FieldRule (restores_required)
open Variants (dataJson)

namespace StructTag
variable {param param' : Format TypeTag} {tag : StructTag} {budget depth : ℕ}

theorem mapM_toJson_congr {ts : List TypeTag} (h : ∀ t ∈ ts, param.toJson t = param'.toJson t) :
    ts.mapM param.toJson = ts.mapM param'.toJson := by
  induction ts with
  | nil => rfl
  | cons t ts ih =>
    obtain ⟨ht, hts⟩ := List.forall_mem_cons.1 h
    rw [List.mapM_cons, List.mapM_cons, ht, ih hts]

theorem toJson_formatOver_congr (h : ∀ t ∈ tag.typeParams, param.toJson t = param'.toJson t) :
    (formatOver param).toJson tag = (formatOver param').toJson tag := by
  obtain ⟨address, moduleName, name, typeParams⟩ := tag
  have hlist : (Format.list param).toJson typeParams = (Format.list param').toJson typeParams :=
    congrArg (Json.array <$> ·) (mapM_toJson_congr h)
  simp only [formatOver, Fields.record, Fields.field, Fields.last, Fields.fieldMembers, hlist]

theorem ofJson_list_congr (h : ∀ b < budget, param.ofJson b = param'.ofJson b) :
    (Format.list param).ofJson budget = (Format.list param').ofJson budget := by
  funext j
  cases budget with
  | zero => rfl
  | succ b =>
    cases j with
    | array items => exact congrArg (items.mapM ·) (h b b.lt_succ_self)
    | _ => rfl

theorem ofJson_formatOver_congr (h : ∀ b < budget, param.ofJson b = param'.ofJson b) :
    (formatOver param).ofJson budget = (formatOver param').ofJson budget := by
  funext j
  cases budget with
  | zero => rfl
  | succ b =>
    have hlist := ofJson_list_congr fun c hc => h c (Nat.lt_succ_of_lt hc)
    cases j with
    | array items =>
      simp only [formatOver, Fields.record, Fields.field, Fields.last, hlist]
    | object members =>
      simp only [formatOver, Fields.record, Fields.field, Fields.last, Fields.fieldOfMembers, hlist]
    | _ => rfl

theorem hasJson_formatOver (h : ∀ t ∈ tag.typeParams, param.HasJson depth t) :
    (formatOver param).HasJson (depth + 2) tag := by
  obtain ⟨address, moduleName, name, typeParams⟩ := tag
  exact .record (by decide) rfl <| .field restores_required address.hasJson <|
    .field restores_required (hasJson_text _) <| .field restores_required (hasJson_text _) <|
    .last restores_required (.list h)

end StructTag

namespace TypeTag
variable {d d' budget : ℕ} {t : TypeTag}

theorem toJson_formatAt_vector {element : TypeTag} :
    (formatAt (d + 1)).toJson (.vector element) = dataJson "Vector" (formatAt d) element :=
  rfl

theorem toJson_formatAt_struct {tag : StructTag} :
    (formatAt (d + 1)).toJson (.struct tag) =
      dataJson "Struct" (StructTag.formatOver (formatAt d)) tag :=
  rfl

theorem toJson_formatAt (h : t.depth ≤ d) (h' : t.depth ≤ d') :
    (formatAt d).toJson t = (formatAt d').toJson t := by
  induction d generalizing d' t with
  | zero => exact absurd h (Nat.not_le.2 t.depth_pos)
  | succ d ih =>
    cases d' with
    | zero => exact absurd h' (Nat.not_le.2 t.depth_pos)
    | succ d' =>
      cases t with
      | vector element =>
        rw [depth, Nat.add_le_add_iff_right] at h h'
        rw [toJson_formatAt_vector, toJson_formatAt_vector, dataJson, dataJson, ih h h']
      | struct tag =>
        rw [depth, Nat.add_le_add_iff_right, StructTag.depth_le_iff] at h h'
        rw [toJson_formatAt_struct, toJson_formatAt_struct, dataJson, dataJson,
          StructTag.toJson_formatOver_congr fun t ht => ih (h t ht) (h' t ht)]
      | _ => rfl

/-- Each level takes one off the budget at least, so that deeper levels are not reached. -/
theorem ofJson_formatAt (h : budget < d) (h' : budget < d') :
    (formatAt d).ofJson budget = (formatAt d').ofJson budget := by
  -- By induction on the budget, since the data of a variant is read with less.
  induction budget using Nat.strongRecOn generalizing d d' with
  | ind budget ih =>
    obtain ⟨d, rfl⟩ := Nat.exists_eq_succ_of_ne_zero (Nat.ne_zero_of_lt h)
    obtain ⟨d', rfl⟩ := Nat.exists_eq_succ_of_ne_zero (Nat.ne_zero_of_lt h')
    funext j
    match budget, j with
    | b + 1, .object [(some name, payload)] =>
      have hle : ∀ c ≤ b, (formatAt d).ofJson c = (formatAt d').ofJson c := fun c hc =>
        ih c (by omega) (by omega) (by omega)
      have hvector : (Format.delay fun _ => formatAt d).ofJson b =
          (Format.delay fun _ => formatAt d').ofJson b := hle b (Nat.le_refl b)
      have hstruct := @StructTag.ofJson_formatOver_congr (.delay fun _ => formatAt d)
        (.delay fun _ => formatAt d') b fun c hc => hle c (Nat.le_of_lt hc)
      simp only [formatAt, Variants.format, Variants.bare, Variants.data, Variants.orElse,
        Variants.last, hvector, hstruct]
    | 0, .object [(some _, _)] => rfl
    | 0, .object [] | 0, .object ((none, _) :: _) | 0, .object ((some _, _) :: _ :: _) => rfl
    | _ + 1, .object [] | _ + 1, .object ((none, _) :: _) => rfl
    | _ + 1, .object ((some _, _) :: _ :: _) => rfl
    | _, .text none | _, .text (some _) => rfl
    | _, .null | _, .bool _ | _, .nat _ | _, .numeral _ | _, .array _ => rfl

theorem hasJson_formatAt (h : t.depth ≤ d) : (formatAt d).HasJson (3 * d) t := by
  induction d generalizing t with
  | zero => exact absurd h (Nat.not_le.2 t.depth_pos)
  | succ d ih =>
    refine .variants (by decide) (by cases t <;> rfl) (.orElse .lastBare <| .orElse .lastBare <|
      .orElse .lastBare <| .orElse .lastBare <| .orElse .lastBare <| .orElse .last .last) ?_
    cases t with
    | vector element =>
      rw [depth, Nat.add_le_add_iff_right] at h
      exact .delay ((ih h).mono (Nat.le_add_right _ 2))
    | struct tag =>
      rw [depth, Nat.add_le_add_iff_right, StructTag.depth_le_iff] at h
      exact StructTag.hasJson_formatOver fun t ht => .delay (ih (h t ht))
    | _ => trivial

theorem hasJson (t : TypeTag) : TypeTag.format.HasJson (3 * t.depth) t :=
  .of_family (3 * ·) (fun _ h => hasJson_formatAt h) (fun _ h => toJson_formatAt h (Nat.le_refl _))
    fun budget _ h => ofJson_formatAt budget.lt_succ_self h

end TypeTag

theorem StructTag.hasJson (t : StructTag) : StructTag.format.HasJson (3 * t.depth + 2) t := by
  have hjson : ∀ d, t.depth ≤ d → (formatOver (TypeTag.formatAt d)).HasJson (3 * d + 2) t :=
    fun d h => hasJson_formatOver fun param hparam =>
      TypeTag.hasJson_formatAt (depth_le_iff.1 h param hparam)
  have hwritten : ∀ d, t.depth ≤ d → (formatOver (TypeTag.formatAt d)).toJson t =
      (formatOver (TypeTag.formatAt t.depth)).toJson t :=
    fun d h => toJson_formatOver_congr fun param hparam => TypeTag.toJson_formatAt
      (depth_le_iff.1 h param hparam) (depth_le_iff.1 (Nat.le_refl _) param hparam)
  have hread : ∀ budget d, budget < d →
      (formatOver (TypeTag.formatAt (budget + 1))).ofJson budget =
        (formatOver (TypeTag.formatAt d)).ofJson budget :=
    fun budget d h => ofJson_formatOver_congr fun b hb => TypeTag.ofJson_formatAt
      (Nat.lt_succ_of_lt hb) (Nat.lt_trans hb h)
  exact .of_family (3 * · + 2) hjson hwritten hread

end VerifiedLedger
