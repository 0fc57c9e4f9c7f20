import VerifiedLedger.Proofs.Client.Encoding
import VerifiedLedger.Proofs.Client.Saved
/-! # Saved states as bytes

A field of a saved state that has no value is not written, but a reader of bytes looks for a byte
that says so. It goes on with bytes that stand for something else, and may well come to an end. It
cannot come back to the same state: written with nothing left out, that state has more bytes than
there are.
-/
namespace VerifiedLedger
open Format (readsBack_word readsBack_text canonical_word canonical_text)

/-- A field that is left out saves the byte that would say so. -/
theorem Fields.length_encodeField_sparse {α : Type} (f : Format α) (o : Option α) :
    (encodeField .sparse (.option f) o).length + o.isNone.toNat =
      ((Format.option f).encode o).length := by
  cases o with
  | none => rfl
  | some a => rfl

namespace SavedState
variable {s : SavedState}

structure Fits (s : SavedState) : Prop where
  waypoint : ∀ text ∈ s.waypoint, (Utf8.encode text).length < UInt64.size
  validatorSet : ∀ set ∈ s.validatorSet, set.Fits
  subtrees : s.subtrees.length < UInt64.size

/-- Each field that may be absent has a value. -/
structure Complete (s : SavedState) : Prop where
  waypoint : s.waypoint.isSome
  validatorSet : s.validatorSet.isSome
  lastVersion : s.lastVersion.isSome

/-- What is read for the bytes of the state is an error or another state. -/
def Lost (s : SavedState) : Prop :=
  (∃ e, format.ofBytes (format.encode s) = .error e) ∨
    ∃ read, format.ofBytes (format.encode s) = .ok read ∧ read ≠ s

/-- The same format, but every field is written. -/
def wholeFormat : Format SavedState :=
  (Fields.field "waypoint" .optional (.option .text) <|
    .field "validator_set" .optional (.option ValidatorSet.format) <|
    .field "epoch" (.withDefault 0) .word <|
    .field "known_version" .optional (.option .word) <|
    .last "subtrees" (.withDefault []) (.list Digest.format)).record
    (fun s => (s.waypoint, s.validatorSet, s.epoch, s.lastVersion, s.subtrees))
    (fun (waypoint, validators, epoch, version, subtrees) =>
      ⟨waypoint, validators, epoch, version, subtrees⟩)

/-- A reader takes every field to be written. -/
theorem decode_wholeFormat : wholeFormat.decode = format.decode := rfl

theorem Fits.readsBack_wholeFormat (h : s.Fits) : wholeFormat.ReadsBack s :=
  .record rfl <| .field rfl (.option fun text ht => readsBack_text (h.waypoint text ht)) <|
    .field rfl (.option fun set hs => (h.validatorSet set hs).readsBack) <|
    .field rfl (readsBack_word _) <|
    .field rfl (.option fun version _ => readsBack_word version) <|
    .last rfl (.list h.subtrees fun d _ => d.readsBack)

theorem canonical_wholeFormat : wholeFormat.Canonical Fits :=
  .record (fun _ => rfl) (fun _ ⟨hwaypoint, hset, _, _, hsubtrees, _⟩ =>
      ⟨hwaypoint, hset, hsubtrees⟩) <|
    .field (fun _ => rfl) (.option canonical_text) <|
    .field (fun _ => rfl) (.option ValidatorSet.canonical) <|
    .field (fun _ => rfl) canonical_word <|
    .field (fun _ => rfl) (.option canonical_word) <|
    .last (fun _ => rfl) (.list Digest.canonical)

/-- How many fields are not written. -/
def absent (s : SavedState) : ℕ :=
  s.waypoint.isNone.toNat + s.validatorSet.isNone.toNat + s.lastVersion.isNone.toNat

theorem length_encode (s : SavedState) :
    (format.encode s).length + s.absent = (wholeFormat.encode s).length := by
  have hwaypoint := Fields.length_encodeField_sparse .text s.waypoint
  have hset := Fields.length_encodeField_sparse ValidatorSet.format s.validatorSet
  have hversion := Fields.length_encodeField_sparse .word s.lastVersion
  have hwhole : ∀ {α : Type} (f : Format (Option α)) (o : Option α),
      Fields.encodeField .optional f o = f.encode o := fun _ _ => rfl
  simp only [format, wholeFormat, Fields.record, Fields.field, Fields.last, List.length_append,
    absent, hwhole]
  omega

theorem complete_iff : s.Complete ↔ s.absent = 0 := by
  obtain ⟨waypoint, set, epoch, version, subtrees⟩ := s
  constructor
  · rintro ⟨hwaypoint, hset, hversion⟩
    simp only [absent, Option.isNone_eq_false_iff.2 hwaypoint, Option.isNone_eq_false_iff.2 hset,
      Option.isNone_eq_false_iff.2 hversion, Bool.toNat_false]
  · intro h
    simp only [absent, Nat.add_eq_zero_iff, Bool.toNat_eq_zero, Option.isNone_eq_false_iff] at h
    exact ⟨h.1.1, h.1.2, h.2⟩

theorem Complete.encode_eq (h : s.Complete) : format.encode s = wholeFormat.encode s := by
  obtain ⟨waypoint, set, epoch, version, subtrees⟩ := s
  obtain ⟨hwaypoint, hset, hversion⟩ := h
  obtain ⟨text, rfl⟩ := Option.isSome_iff_exists.1 hwaypoint
  obtain ⟨set, rfl⟩ := Option.isSome_iff_exists.1 hset
  obtain ⟨version, rfl⟩ := Option.isSome_iff_exists.1 hversion
  rfl

theorem Complete.ofBytes_encode (h : s.Complete) (hfits : s.Fits) :
    format.ofBytes (format.encode s) = .ok s := by
  rw [h.encode_eq]
  exact hfits.readsBack_wholeFormat.ofBytes_encode

/-- Where the state is read from its own bytes, they are those of all its fields, and no others. -/
theorem complete_of_ofBytes (h : format.ofBytes (format.encode s) = .ok s) : s.Complete := by
  obtain ⟨rest, hread⟩ := Format.ofBytes_eq_ok_iff.1 h
  rw [← decode_wholeFormat] at hread
  obtain ⟨hbytes, -⟩ := canonical_wholeFormat hread
  have hlength := congrArg List.length hbytes
  rw [List.length_append, ← length_encode] at hlength
  exact complete_iff.2 (by omega)

theorem lost_of_not_complete (h : ¬s.Complete) : s.Lost := by
  cases hread : format.ofBytes (format.encode s) with
  | error e => exact .inl ⟨e, hread⟩
  | ok read =>
    refine .inr ⟨read, hread, ?_⟩
    rintro rfl
    exact h (complete_of_ofBytes hread)

/-- A client trusts validators or it has a waypoint to name, never both. -/
theorem not_complete_save (anchor : TrustAnchor) (a : Accumulator .transaction) :
    ¬(save anchor a).Complete := by
  rintro ⟨hwaypoint, hset, -⟩
  cases anchor with
  | validators v => cases hwaypoint
  | waypoint w => cases hset
  | insecure => cases hset

/-- A state is kept by its bytes exactly if no field is absent. No client saves such a state. -/
theorem ofBytes_encode_iff_complete :
    (∀ s : SavedState, s.Fits → (format.ofBytes (format.encode s) = .ok s ↔ s.Complete)) ∧
      (∀ s : SavedState, ¬s.Complete → s.Lost) ∧ ∀ c : LightClient, c.state.Lost := by
  refine ⟨fun s hfits => ?_, fun s => lost_of_not_complete, fun c => ?_⟩
  · exact ⟨complete_of_ofBytes, fun h => h.ofBytes_encode hfits⟩
  · exact lost_of_not_complete (not_complete_save c.anchor c.accumulator)

/-- The subtree of a ledger of one version, with a version and without it. The number of subtrees is
then read as the byte that announces a version, and the first bytes of the subtree as that version
and the number of no subtrees. -/
theorem ofBytes_encode_iff_complete_named :
    let versionless : SavedState := { LightClient.namedTwice with lastVersion := none }
    LightClient.namedTwice.Fits ∧
      format.ofBytes (format.encode LightClient.namedTwice) = .ok LightClient.namedTwice ∧
      versionless.Lost ∧
      format.ofBytes (format.encode versionless) =
        .ok { LightClient.namedTwice with subtrees := [] } ∧
      (LightClient.start .insecure).state.Lost := by
  intro versionless
  have hfits : LightClient.namedTwice.Fits := by
    refine ⟨?_, ?_, by decide⟩
    · rintro text ⟨⟩
      decide
    · rintro set ⟨⟩
      exact (by decide : 1 < UInt64.size)
  obtain ⟨hkept, hlost, hclient⟩ := ofBytes_encode_iff_complete
  refine ⟨hfits, (hkept _ hfits).2 ⟨rfl, rfl, rfl⟩, hlost versionless ?_, by decide +kernel,
    hclient _⟩
  rintro ⟨-, -, hversion⟩
  cases hversion

end SavedState
end VerifiedLedger
