import VerifiedLedger.Proofs.Format.Injective
import VerifiedLedger.Proofs.Hash.Separation
import VerifiedLedger.Proofs.Ledger.Encoding
import VerifiedLedger.Trust.Anchor
/-! # What a waypoint names

A waypoint is hashed from five of the fields of a ledger info, so it names every ledger info that
has the same in these five and, unless the two hashed strings collide, no other.
-/
namespace VerifiedLedger
open Function (Injective)

theorem Validator.length_encode (v : Validator) : (Validator.format.encode v).length = 96 := by
  have hrecord : Validator.format.encode v = v.address.toList ++
      (Format.bytes.encode v.publicKey.bytes.toList ++ Bytes.littleEndian 8 v.votingPower.toNat) :=
    rfl
  have hbyte : ∀ b, (Format.byte.encode b).length = 1 := fun _ => rfl
  rw [hrecord, List.length_append, List.length_append, Format.bytes,
    Format.length_encode_list hbyte, Bytes.length_littleEndian, v.publicKey.bytes.length_toList,
    Address.toList, v.address.bytes.length_toList]

theorem ValidatorSet.encode_injective : Injective ValidatorSet.format.encode := by
  have hvalidators : Injective (Format.list Validator.format).encode :=
    Format.encode_list_injective Validator.length_encode (by decide) Validator.readsBack
  apply Format.encode_record_injective
  · rintro ⟨scheme, validators⟩ ⟨scheme', validators'⟩ h
    cases h
    rfl
  · exact Fields.encode_field_injective (fun _ => rfl) SignatureScheme.readsBack
      (Fields.encode_last_injective (fun _ => rfl) hvalidators)

namespace Waypoint

theorem encode_commitment_injective : Injective commitment.encode :=
  Format.encode_pair_injective Format.readsBack_word <|
    Format.encode_pair_injective Digest.readsBack <|
    Format.encode_pair_injective Format.readsBack_word <|
    Format.encode_pair_injective Format.readsBack_word <|
    Format.encode_option_injective ValidatorSet.encode_injective

/-- Two ledger infos agree in what a waypoint commits to. -/
structure SameCommitment (a b : LedgerInfo) : Prop where
  epoch : a.epoch = b.epoch
  accumulatorRoot : a.accumulatorRoot = b.accumulatorRoot
  version : a.version = b.version
  timestampUsecs : a.timestampUsecs = b.timestampUsecs
  nextValidators : a.nextValidators = b.nextValidators

/-- The string that is hashed into the waypoint of a ledger info. -/
def commitmentString (l : LedgerInfo) : List UInt8 :=
  Domain.waypoint.preimage (commitment.encode
    (l.epoch, l.accumulatorRoot, l.version, l.timestampUsecs, l.nextValidators))

variable {a b : LedgerInfo}

theorem SameCommitment.ofLedgerInfo_eq (h : SameCommitment a b) :
    ofLedgerInfo a = ofLedgerInfo b := by
  obtain ⟨hepoch, hroot, hversion, htimestamp, hnext⟩ := h
  rw [ofLedgerInfo, ofLedgerInfo, hepoch, hroot, hversion, htimestamp, hnext]

theorem sameCommitment_of_ofLedgerInfo_eq
    (hfree : CollisionFree [commitmentString a, commitmentString b])
    (h : ofLedgerInfo a = ofLedgerInfo b) : SameCommitment a b := by
  have hvalue : sha3 (commitmentString a) = sha3 (commitmentString b) := congrArg value h
  have hstrings := hfree _ (by simp) _ (by simp) hvalue
  have hfields := encode_commitment_injective (Domain.preimage_inj hstrings).2
  simp only [Prod.mk.injEq] at hfields
  obtain ⟨hepoch, hroot, hversion, htimestamp, hnext⟩ := hfields
  exact ⟨hepoch, hroot, hversion, htimestamp, hnext⟩

theorem accepts_iff {w : Waypoint} {l : SignedLedgerInfo} :
    w.verify l = .ok () ↔ ofLedgerInfo l.ledgerInfo = w := by
  simp only [verify, ite_error_eq_ok_iff, ne_eq, Decidable.not_not, and_true]
  constructor
  · rintro ⟨hversion, hvalue⟩
    cases w
    cases hversion
    cases hvalue
    rfl
  · rintro rfl
    exact ⟨rfl, rfl⟩

theorem verify_congr {w : Waypoint} {l l' : SignedLedgerInfo}
    (h : SameCommitment l.ledgerInfo l'.ledgerInfo) : w.verify l = w.verify l' := by
  rw [verify, verify, h.ofLedgerInfo_eq]

/-- The waypoint of a ledger info is good for those that have the five fields of it and for no
others. What else a ledger info says, and who has signed it, changes neither the waypoint nor the
answer of any waypoint. -/
theorem verify_ofLedgerInfo (a : LedgerInfo) (b : SignedLedgerInfo) :
    (CollisionFree [commitmentString a, commitmentString b.ledgerInfo] →
        ((ofLedgerInfo a).verify b = .ok () ↔ SameCommitment a b.ledgerInfo)) ∧
      (∀ a' : LedgerInfo, SameCommitment a a' → ofLedgerInfo a = ofLedgerInfo a') ∧
      ∀ (w : Waypoint) (b' : SignedLedgerInfo), SameCommitment b.ledgerInfo b'.ledgerInfo →
        w.verify b = w.verify b' := by
  refine ⟨fun hfree => ?_, fun a' h => h.ofLedgerInfo_eq, fun w b' h => verify_congr h⟩
  rw [accepts_iff]
  constructor
  · exact fun h => sameCommitment_of_ofLedgerInfo_eq hfree h.symm
  · exact fun h => h.ofLedgerInfo_eq.symm

/-- Another round and another block are the same checkpoint, an epoch change is not. -/
theorem verify_ofLedgerInfo_rounds :
    let plain : LedgerInfo := ⟨1, 0, .zero, .zero, 10, 0, none, .zero⟩
    let later : SignedLedgerInfo :=
      ⟨{ plain with round := 7, consensusBlockId := .accumulatorPlaceholder }, .empty⟩
    let changing : SignedLedgerInfo := ⟨{ plain with nextValidators := some .empty }, .empty⟩
    CollisionFree [commitmentString plain, commitmentString later.ledgerInfo] ∧
      CollisionFree [commitmentString plain, commitmentString changing.ledgerInfo] ∧
      (ofLedgerInfo plain).verify later = .ok () ∧
      (ofLedgerInfo plain).verify changing ≠ .ok () := by
  intro plain later changing
  have hfree : CollisionFree [commitmentString plain, commitmentString later.ledgerInfo] := by
    decide +kernel
  have hfree' : CollisionFree [commitmentString plain, commitmentString changing.ledgerInfo] := by
    decide +kernel
  refine ⟨hfree, hfree', ?_, ?_⟩
  · exact ((verify_ofLedgerInfo plain later).1 hfree).2 ⟨rfl, rfl, rfl, rfl, rfl⟩
  · intro h
    cases (((verify_ofLedgerInfo plain changing).1 hfree').1 h).nextValidators

end Waypoint
end VerifiedLedger
