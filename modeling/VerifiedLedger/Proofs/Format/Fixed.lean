import VerifiedLedger.Ledger.Address
import VerifiedLedger.Proofs.Format.Canonical
/-! # Encodings of digests, addresses, keys and signatures

Digests and addresses are their bytes alone. Keys and signatures are read as bytes behind a length,
which has to be the right one.
-/
namespace VerifiedLedger

namespace Format
variable {n : ℕ} {lengthFault : String} {input rest : List UInt8} {b : FixedBytes n}

theorem readsBack_fixed (b : FixedBytes n) : (fixed n).ReadsBack b := reads_takeFixed b

theorem canonical_fixed : (fixed n).Canonical fun _ => True :=
  fun _ _ _ h => ⟨append_eq_of_takeFixed h, trivial⟩

/-- Nothing but the right number of bytes is read. -/
theorem decode_sized_eq_ok_iff :
    (sized n lengthFault).decode input = .ok (b, rest) ↔
      bytes.decode input = .ok (b.toList, rest) := by
  simp only [sized, bind_eq_ok_iff]
  constructor
  · rintro ⟨⟨read, tail⟩, hread, h⟩
    split at h
    · rename_i hfixed
      cases h
      rwa [← FixedBytes.ofList?_eq_some_iff.1 hfixed]
    · cases h
  · intro h
    refine ⟨_, h, ?_⟩
    simp only [FixedBytes.ofList?_toList]
    rfl

theorem readsBack_sized (hn : n < UInt64.size) (b : FixedBytes n) :
    (sized n lengthFault).ReadsBack b := by
  have hlength : b.toList.length < UInt64.size := by rwa [b.length_toList]
  intro rest
  exact decode_sized_eq_ok_iff.2 (readsBack_bytes hlength rest)

theorem canonical_sized : (sized n lengthFault).Canonical fun _ => True :=
  fun _ _ _ h => ⟨(canonical_bytes (decode_sized_eq_ok_iff.1 h)).1, trivial⟩

end Format

open Format (readsBack_fixed readsBack_sized canonical_fixed canonical_sized)

theorem Digest.readsBack (d : Digest) : Digest.format.ReadsBack d := (readsBack_fixed _).map rfl

theorem Address.readsBack (a : Address) : Address.format.ReadsBack a := (readsBack_fixed _).map rfl

theorem PublicKey.readsBack (k : PublicKey) : PublicKey.format.ReadsBack k :=
  (readsBack_sized (by decide) _).map rfl

theorem Signature.readsBack (s : Signature) : Signature.format.ReadsBack s :=
  (readsBack_sized (by decide) _).map rfl

theorem Digest.canonical : Digest.format.Canonical fun _ => True :=
  canonical_fixed.map (fun _ => rfl) fun _ _ => trivial

theorem Address.canonical : Address.format.Canonical fun _ => True :=
  canonical_fixed.map (fun _ => rfl) fun _ _ => trivial

theorem PublicKey.canonical : PublicKey.format.Canonical fun _ => True :=
  canonical_sized.map (fun _ => rfl) fun _ _ => trivial

theorem Signature.canonical : Signature.format.Canonical fun _ => True :=
  canonical_sized.map (fun _ => rfl) fun _ _ => trivial

end VerifiedLedger
