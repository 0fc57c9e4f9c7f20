import Mathlib.Data.List.Flatten
import VerifiedLedger.Ledger.StructTag
import VerifiedLedger.Proofs.Format.Fixed
/-! # Encodings of type tags

A type tag is written alike by the formats of all depths that are not below its own. Every level of
nesting takes bytes, so the bytes of a tag bound its depth, and reading them goes deep enough.
-/
namespace VerifiedLedger
open Format (canonical_text)
open Variants (readsBack_lastBare canonical_lastBare)

theorem depthOfAll_le_iff {tags : List TypeTag} {d : ℕ} :
    depthOfAll tags ≤ d ↔ ∀ t ∈ tags, t.depth ≤ d := by
  induction tags with
  | nil => simp [depthOfAll]
  | cons t tags ih => rw [depthOfAll, Nat.max_le, ih, List.forall_mem_cons]

namespace StructTag

def moduleName : StructTag → String
  | .mk _ moduleName _ _ => moduleName

def name : StructTag → String
  | .mk _ _ name _ => name

def typeParams : StructTag → List TypeTag
  | .mk _ _ _ typeParams => typeParams

variable {param param' : Format TypeTag} {tag : StructTag} {P Q : TypeTag → Prop} {d : ℕ}

theorem depth_le_iff : tag.depth ≤ d ↔ ∀ t ∈ tag.typeParams, t.depth ≤ d := by
  cases tag
  exact depthOfAll_le_iff

/-- The names and the list of type arguments can be written, and each argument satisfies `P`. -/
structure FitsOver (P : TypeTag → Prop) (tag : StructTag) : Prop where
  moduleName_length : (Utf8.encode tag.moduleName).length < UInt64.size
  name_length : (Utf8.encode tag.name).length < UInt64.size
  typeParams_length : tag.typeParams.length < UInt64.size
  typeParams : ∀ t ∈ tag.typeParams, P t

theorem FitsOver.imp (h : tag.FitsOver P) (himp : ∀ t ∈ tag.typeParams, P t → Q t) :
    tag.FitsOver Q :=
  { h with typeParams := fun t ht => himp t ht (h.typeParams t ht) }

theorem encode_formatOver_congr (h : ∀ t ∈ tag.typeParams, param.encode t = param'.encode t) :
    (formatOver param).encode tag = (formatOver param').encode tag := by
  obtain ⟨address, moduleName, name, typeParams⟩ := tag
  have hparams := List.flatMap_congr h
  exact congrArg (fun params => address.toList ++ (Format.text.encode moduleName ++
    (Format.text.encode name ++ (Format.encodeLength typeParams.length ++ params)))) hparams

theorem depth_le_length (h : ∀ t ∈ tag.typeParams, t.depth ≤ (param.encode t).length) :
    tag.depth ≤ ((formatOver param).encode tag).length := by
  obtain ⟨address, moduleName, name, typeParams⟩ := tag
  have hencode : (formatOver param).encode (.mk address moduleName name typeParams) =
      address.toList ++ (Format.text.encode moduleName ++ (Format.text.encode name ++
        (Format.encodeLength typeParams.length ++ typeParams.flatMap param.encode))) := rfl
  have hparams : depthOfAll typeParams ≤ (typeParams.flatMap param.encode).length := by
    refine depthOfAll_le_iff.2 fun t ht => Nat.le_trans (h t ht) ?_
    have hpart := ((List.singleton_sublist.2 ht).flatMap param.encode).length_le
    rwa [List.flatMap_singleton] at hpart
  rw [hencode, depth]
  simp only [List.length_append]
  omega

theorem FitsOver.readsBack (h : tag.FitsOver param.ReadsBack) :
    (formatOver param).ReadsBack tag := by
  obtain ⟨address, moduleName, name, typeParams⟩ := tag
  exact .record rfl <| .field rfl address.readsBack <|
    .field rfl (Format.readsBack_text h.moduleName_length) <|
    .field rfl (Format.readsBack_text h.name_length) <|
    .last rfl (.list h.typeParams_length h.typeParams)

theorem canonical_formatOver (h : param.Canonical P) :
    (formatOver param).Canonical (FitsOver P) :=
  .record (fun _ => rfl)
      (fun _ ⟨_, hmodule, hname, hlength, hall⟩ => ⟨hmodule, hname, hlength, hall⟩) <|
    .field (fun _ => rfl) Address.canonical <| .field (fun _ => rfl) canonical_text <|
    .field (fun _ => rfl) canonical_text <| .last (fun _ => rfl) h.list

end StructTag

namespace TypeTag
variable {d d' : ℕ} {t : TypeTag}

/-- The struct tags inside can be written, at every depth. -/
inductive Fits : TypeTag → Prop
  | bool : Fits .bool
  | u8 : Fits .u8
  | u64 : Fits .u64
  | u128 : Fits .u128
  | address : Fits .address
  | vector {element : TypeTag} : element.Fits → Fits (.vector element)
  | struct {tag : StructTag} : (Utf8.encode tag.moduleName).length < UInt64.size →
    (Utf8.encode tag.name).length < UInt64.size → tag.typeParams.length < UInt64.size →
    (∀ t ∈ tag.typeParams, t.Fits) → Fits (.struct tag)

theorem depth_pos (t : TypeTag) : 0 < t.depth := by
  cases t <;> exact Nat.succ_pos _

theorem encode_formatAt_vector {element : TypeTag} : (formatAt (d + 1)).encode (.vector element) =
    Variants.encodeIndex 5 ++ (formatAt d).encode element :=
  rfl

theorem encode_formatAt_struct {tag : StructTag} : (formatAt (d + 1)).encode (.struct tag) =
    Variants.encodeIndex 6 ++ (StructTag.formatOver (formatAt d)).encode tag :=
  rfl

theorem encode_formatAt (h : t.depth ≤ d) (h' : t.depth ≤ d') :
    (formatAt d).encode t = (formatAt d').encode t := by
  -- What is inside a tag is one level less deep, and both formats go down one level with it.
  induction d generalizing d' t with
  | zero => exact absurd h (Nat.not_le.2 t.depth_pos)
  | succ d ih =>
    cases d' with
    | zero => exact absurd h' (Nat.not_le.2 t.depth_pos)
    | succ d' =>
      cases t with
      | vector element =>
        rw [depth, Nat.add_le_add_iff_right] at h h'
        rw [encode_formatAt_vector, encode_formatAt_vector, ih h h']
      | struct tag =>
        rw [depth, Nat.add_le_add_iff_right, StructTag.depth_le_iff] at h h'
        rw [encode_formatAt_struct, encode_formatAt_struct,
          StructTag.encode_formatOver_congr fun t ht => ih (h t ht) (h' t ht)]
      | _ => rfl

theorem depth_le_length (h : t.depth ≤ d) : t.depth ≤ ((formatAt d).encode t).length := by
  induction d generalizing t with
  | zero => exact absurd h (Nat.not_le.2 t.depth_pos)
  | succ d ih =>
    cases t with
    | vector element =>
      rw [depth, Nat.add_le_add_iff_right] at h
      have hlength := ih h
      rw [depth, encode_formatAt_vector, List.length_append, Variants.encodeIndex,
        Bytes.length_littleEndian]
      omega
    | struct tag =>
      rw [depth, Nat.add_le_add_iff_right, StructTag.depth_le_iff] at h
      have hlength := StructTag.depth_le_length fun t ht => ih (h t ht)
      rw [depth, encode_formatAt_struct, List.length_append, Variants.encodeIndex,
        Bytes.length_littleEndian]
      omega
    | _ => exact Nat.le_of_ble_eq_true rfl

theorem Fits.readsBack_formatAt (hfits : t.Fits) (h : t.depth ≤ d) :
    (formatAt d).ReadsBack t := by
  have hcount : 7 ≤ UInt32.size := by decide
  induction d generalizing t with
  | zero => exact absurd h (Nat.not_le.2 t.depth_pos)
  | succ d ih =>
    cases hfits with
    | bool => exact .variants hcount rfl (.inl readsBack_lastBare)
    | u8 => exact .variants hcount rfl (.inr (.inl readsBack_lastBare))
    | u64 => exact .variants hcount rfl (.inr (.inr (.inl readsBack_lastBare)))
    | u128 => exact .variants hcount rfl (.inr (.inr (.inr (.inl readsBack_lastBare))))
    | address => exact .variants hcount rfl (.inr (.inr (.inr (.inr (.inl readsBack_lastBare)))))
    | vector helement =>
      rw [depth, Nat.add_le_add_iff_right] at h
      exact .variants hcount rfl
        (.inr (.inr (.inr (.inr (.inr (.inl (.last (.delay (ih helement h)))))))))
    | struct hmodule hname hlength hparams =>
      rw [depth, Nat.add_le_add_iff_right, StructTag.depth_le_iff] at h
      have htag : StructTag.FitsOver (formatAt d).ReadsBack _ :=
        ⟨hmodule, hname, hlength, fun t ht => ih (hparams t ht) (h t ht)⟩
      exact .variants hcount rfl
        (.inr (.inr (.inr (.inr (.inr (.inr (.last htag.readsBack)))))))

/-- What a format of some depth reads is not nested deeper. -/
theorem canonical_formatAt (d : ℕ) : (formatAt d).Canonical fun t => t.depth ≤ d ∧ t.Fits := by
  induction d with
  | zero => nofun
  | succ d ih =>
    -- The seven variants in the order of their indices.
    refine .variants ?_ ?_ <| .orElse canonical_lastBare <| .orElse canonical_lastBare <|
      .orElse canonical_lastBare <| .orElse canonical_lastBare <| .orElse canonical_lastBare <|
      .orElse (.last (.delay ih)) <| .last (StructTag.canonical_formatOver (.delay ih))
    · rintro (_ | _ | _ | _ | _ | _ | _) <;> rfl
    · exact fun
        | .inl _, _ => ⟨Nat.le_add_left 1 d, .bool⟩
        | .inr (.inl _), _ => ⟨Nat.le_add_left 1 d, .u8⟩
        | .inr (.inr (.inl _)), _ => ⟨Nat.le_add_left 1 d, .u64⟩
        | .inr (.inr (.inr (.inl _))), _ => ⟨Nat.le_add_left 1 d, .u128⟩
        | .inr (.inr (.inr (.inr (.inl _)))), _ => ⟨Nat.le_add_left 1 d, .address⟩
        | .inr (.inr (.inr (.inr (.inr (.inl _))))), ⟨hdepth, hfits⟩ =>
          ⟨Nat.succ_le_succ hdepth, .vector hfits⟩
        | .inr (.inr (.inr (.inr (.inr (.inr _))))), ⟨hmodule, hname, hlength, hparams⟩ =>
          ⟨Nat.succ_le_succ (StructTag.depth_le_iff.2 fun t ht => (hparams t ht).1),
            .struct hmodule hname hlength fun t ht => (hparams t ht).2⟩

theorem Fits.readsBack (hfits : t.Fits) : TypeTag.format.ReadsBack t := by
  intro rest
  have hlength : t.depth ≤ (TypeTag.format.encode t).length := depth_le_length (Nat.le_refl _)
  have hdepth : t.depth ≤ (TypeTag.format.encode t ++ rest).length + 1 := by
    rw [List.length_append]
    omega
  have hread := hfits.readsBack_formatAt hdepth rest
  rwa [encode_formatAt hdepth (Nat.le_refl _)] at hread

theorem canonical : TypeTag.format.Canonical TypeTag.Fits := by
  intro bytes t rest hread
  obtain ⟨hbytes, hdepth, hfits⟩ := canonical_formatAt (bytes.length + 1) hread
  rw [encode_formatAt hdepth (Nat.le_refl _)] at hbytes
  exact ⟨hbytes, hfits⟩

end TypeTag

namespace StructTag
variable {tag : StructTag} {d d' : ℕ}

def Fits (tag : StructTag) : Prop := tag.FitsOver TypeTag.Fits

theorem encode_formatAt (h : tag.depth ≤ d) (h' : tag.depth ≤ d') :
    (formatOver (TypeTag.formatAt d)).encode tag = (formatOver (TypeTag.formatAt d')).encode tag :=
  encode_formatOver_congr fun t ht =>
    TypeTag.encode_formatAt (depth_le_iff.1 h t ht) (depth_le_iff.1 h' t ht)

theorem format_encode :
    StructTag.format.encode tag = (formatOver (TypeTag.formatAt tag.depth)).encode tag :=
  rfl

theorem format_decode (bytes : List UInt8) : StructTag.format.decode bytes =
    (formatOver (TypeTag.formatAt (bytes.length + 1))).decode bytes :=
  rfl

theorem Fits.readsBack (hfits : tag.Fits) : StructTag.format.ReadsBack tag := by
  intro rest
  have hlength : tag.depth ≤ (StructTag.format.encode tag).length := by
    rw [format_encode]
    exact depth_le_length fun t ht => TypeTag.depth_le_length (depth_le_iff.1 (Nat.le_refl _) t ht)
  have hdepth : tag.depth ≤ (StructTag.format.encode tag ++ rest).length + 1 := by
    rw [List.length_append]
    omega
  have hover := hfits.imp fun t ht h => h.readsBack_formatAt (depth_le_iff.1 hdepth t ht)
  have hread := hover.readsBack rest
  rwa [encode_formatAt hdepth (Nat.le_refl _), ← format_encode, ← format_decode] at hread

theorem canonical : StructTag.format.Canonical StructTag.Fits := by
  intro bytes tag rest hread
  rw [format_decode] at hread
  obtain ⟨hbytes, hfits⟩ := canonical_formatOver (TypeTag.canonical_formatAt _) hread
  have hdepth : tag.depth ≤ bytes.length + 1 := depth_le_iff.2 fun t ht => (hfits.typeParams t ht).1
  rw [encode_formatAt hdepth (Nat.le_refl _), ← format_encode] at hbytes
  exact ⟨hbytes, hfits.imp fun t ht h => h.2⟩

end StructTag
end VerifiedLedger
