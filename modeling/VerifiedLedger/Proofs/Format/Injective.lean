import VerifiedLedger.Proofs.Format.ReadBack
/-! # Encodings that keep values apart

Reading back tells where a value ends. The last value of a record need not tell it: there it is
enough that no two values are written alike. A list of items of one width keeps to that even if it
is too long for its eight bytes, since its own length gives the number of items away.
-/
namespace VerifiedLedger
open Function (Injective)
variable {α β σ : Type}

namespace Format
variable {f : Format α} {g : Format β}

theorem encode_pair_injective (hf : ∀ a, f.ReadsBack a) (hg : Injective g.encode) :
    Injective (pair f g).encode := by
  rintro ⟨a, b⟩ ⟨a', b'⟩ h
  obtain ⟨rfl, hrest⟩ := (hf a).append_inj (hf a') h
  rw [show b = b' from hg hrest]

theorem encode_option_injective (hf : Injective f.encode) : Injective (option f).encode := by
  rintro (_ | a) (_ | a') h
  · rfl
  · cases h
  · cases h
  · rw [hf (List.cons.inj h).2]

section Width
variable {width : ℕ} (hwidth : ∀ a, (f.encode a).length = width)
include hwidth

theorem length_encode_list (as : List α) :
    ((list f).encode as).length = 8 + as.length * width := by
  simp [list, encodeLength, Bytes.length_littleEndian, List.length_flatMap, hwidth]

theorem encode_list_injective (hpos : 0 < width) (hf : ∀ a, f.ReadsBack a) :
    Injective (list f).encode := by
  intro as as' h
  have hcount : as.length = as'.length := by
    have hbytes := congrArg List.length h
    rw [length_encode_list hwidth, length_encode_list hwidth] at hbytes
    exact Nat.eq_of_mul_eq_mul_right hpos (Nat.add_left_cancel hbytes)
  have hitems : as.flatMap f.encode = as'.flatMap f.encode := by
    have hall : encodeLength as.length ++ as.flatMap f.encode =
      encodeLength as'.length ++ as'.flatMap f.encode := h
    rw [hcount] at hall
    exact List.append_cancel_left hall
  have hread := reads_decodeMany (fun a (_ : a ∈ as) => hf a) []
  rw [hitems, hcount, reads_decodeMany (fun a (_ : a ∈ as') => hf a) []] at hread
  cases hread
  rfl

end Width
end Format

namespace Fields
variable {f : Format α} {rest fields : Fields β} {name : String} {rule : FieldRule α}
  (hrule : ∀ a, rule.skips a = false)
include hrule

theorem encode_last_injective (hf : Injective f.encode) :
    Injective (last name rule f).encode := by
  intro a a' h
  rw [encode_last (hrule a), encode_last (hrule a')] at h
  exact hf h

theorem encode_field_injective (hf : ∀ a, f.ReadsBack a) (hrest : Injective rest.encode) :
    Injective (field name rule f rest).encode := by
  rintro ⟨a, b⟩ ⟨a', b'⟩ h
  rw [encode_field (hrule a), encode_field (hrule a')] at h
  obtain ⟨rfl, hothers⟩ := (hf a).append_inj (hf a') h
  rw [hrest hothers]

end Fields

theorem Format.encode_record_injective {fields : Fields α} {split : σ → α} {join : α → σ}
    (hsplit : Injective split) (h : Injective fields.encode) :
    Injective (fields.record split join).encode := h.comp hsplit

end VerifiedLedger
