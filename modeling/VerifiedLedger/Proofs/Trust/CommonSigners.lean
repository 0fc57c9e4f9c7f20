import Mathlib.Data.List.Perm.Subperm
import VerifiedLedger.Proofs.Bytes.OrderedMap
import VerifiedLedger.Proofs.Trust.EpochChain
/-! # Who has signed twice

An address that is listed more than once stands for one validator, the last one listed with it. It
is counted once in the total and once among the signers of a ledger info. So whoever has signed two
accepted ledger infos are different validators with more than a third of the power of all of them.
-/
namespace VerifiedLedger

namespace ValidatorSet
variable {s : ValidatorSet} {v : Validator} {a : Address}

/-- The validator is the last one listed with its address. -/
def Knows (s : ValidatorSet) (v : Validator) : Prop :=
  ∃ before after, s.validators = before ++ v :: after ∧ ∀ u ∈ after, u.address ≠ v.address

theorem get?_members_eq_some_iff :
    s.members.get? a = some v ↔ s.Knows v ∧ v.address = a := by
  rw [members, OrderedMap.get?_ofList_eq_some_iff]
  constructor
  · rintro ⟨before, after, hlist, hafter⟩
    obtain ⟨before, rest, hvalidators, rfl, hrest⟩ := List.map_eq_append_iff.1 hlist
    obtain ⟨u, after, rfl, hu, rfl⟩ := List.map_eq_cons_iff.1 hrest
    obtain ⟨rfl, rfl⟩ := Prod.mk.inj hu
    refine ⟨⟨before, after, hvalidators, fun w hw => ?_⟩, rfl⟩
    exact hafter _ (List.mem_map_of_mem hw)
  · rintro ⟨⟨before, after, hvalidators, hafter⟩, rfl⟩
    refine ⟨before.map fun u => (u.address, u), after.map fun u => (u.address, u), ?_, ?_⟩
    · rw [hvalidators, List.map_append, List.map_cons]
    · intro e he
      obtain ⟨u, hu, rfl⟩ := List.mem_map.1 he
      exact hafter u hu

theorem address_of_mem_entries {m : Address × Validator} (h : m ∈ s.members.entries) :
    m.2.address = m.1 :=
  (get?_members_eq_some_iff.1 (OrderedMap.get?_eq_some_iff.2 h)).2

theorem mem_values_members_iff : v ∈ s.members.values ↔ s.Knows v := by
  rw [OrderedMap.values, List.mem_map]
  constructor
  · rintro ⟨m, hm, rfl⟩
    exact (get?_members_eq_some_iff.1 (OrderedMap.get?_eq_some_iff.2 hm)).1
  · intro hknows
    exact ⟨_, OrderedMap.get?_eq_some_iff.1 (get?_members_eq_some_iff.2 ⟨hknows, rfl⟩), rfl⟩

theorem nodup_address_members (s : ValidatorSet) :
    (s.members.values.map Validator.address).Nodup := by
  have hkeys : s.members.values.map Validator.address = s.members.keys := by
    rw [OrderedMap.values, OrderedMap.keys, List.map_map]
    exact List.map_congr_left fun m hm => address_of_mem_entries hm
  rw [hkeys]
  exact s.members.nodup_keys

theorem powerOf_filter_members (s : ValidatorSet) (p : Address → Bool) :
    powerOf (s.members.values.filter fun v => p v.address) = powerWhere s.members.entries p := by
  have hsame : s.members.entries.filter ((fun v => p v.address) ∘ Prod.snd) =
      s.members.entries.filter fun m => p m.1 := by
    refine List.filter_congr fun m hm => ?_
    rw [Function.comp_apply, address_of_mem_entries hm]
  rw [powerWhere, ← hsame, ← List.filter_map]
  rfl

end ValidatorSet

/-- The ledger info carries a good signature of the validator. -/
def SignedLedgerInfo.SignedBy (l : SignedLedgerInfo) (v : Validator) : Prop :=
  ∃ signature, l.signatures.get? v.address = some signature ∧
    verifySignature v.publicKey l.ledgerInfo.hash.toList signature = .ok ()

namespace EpochVerifier
variable {w : EpochVerifier} {a b l : SignedLedgerInfo} {v : Validator}

theorem signature_of_signedPower {set : OrderedMap Address Validator} {message : List UInt8}
    {signatures : List (Address × Signature)} {power : ℕ}
    (h : signedPower set message signatures = .ok power) {author : Address} {signature : Signature}
    (hmem : (author, signature) ∈ signatures) :
    ∃ v, set.get? author = some v ∧ verifySignature v.publicKey message signature = .ok () := by
  induction signatures generalizing power with
  | nil => cases hmem
  | cons s signatures ih =>
    obtain ⟨first, other⟩ := s
    obtain ⟨v, others, hmember, hsignature, hothers, -⟩ := signedPower_cons_eq_ok_iff.1 h
    rcases List.mem_cons.1 hmem with heq | hmem
    · cases heq
      exact ⟨v, hmember, hsignature⟩
    · exact ih hothers hmem

theorem exists_signedPower {set : OrderedMap Address Validator} {message : List UInt8}
    {signatures : List (Address × Signature)}
    (h : ∀ s ∈ signatures, ∃ v, set.get? s.1 = some v ∧
      verifySignature v.publicKey message s.2 = .ok ()) :
    ∃ power, signedPower set message signatures = .ok power := by
  induction signatures with
  | nil => exact ⟨0, rfl⟩
  | cons s signatures ih =>
    obtain ⟨⟨v, hmember, hsignature⟩, hothers⟩ := List.forall_mem_cons.1 h
    obtain ⟨others, hpower⟩ := ih hothers
    exact ⟨_, signedPower_cons_eq_ok_iff.2 ⟨v, others, hmember, hsignature, hpower, rfl⟩⟩

/-- A quorum of the verifier's validators has signed a ledger info of its epoch, and nobody else
has. -/
structure Endorses (w : EpochVerifier) (l : SignedLedgerInfo) : Prop where
  epoch_eq : l.ledgerInfo.epoch = w.epoch
  signature (s : Address × Signature) (h : s ∈ l.signatures.entries) :
    ∃ v, w.validators.members.get? s.1 = some v ∧
      verifySignature v.publicKey l.ledgerInfo.hash.toList s.2 = .ok ()
  quorum : w.validators.quorumPower ≤ powerWhere w.validators.members.entries l.hasSigner

/-- Signers are different members, so that there are not more of them. -/
theorem size_le_of_signatures {set : OrderedMap Address Validator}
    {signatures : OrderedMap Address Signature}
    (h : ∀ s ∈ signatures.entries, ∃ v, set.get? s.1 = some v) : signatures.size ≤ set.size := by
  have hkeys : signatures.keys ⊆ set.keys := by
    intro address hmem
    obtain ⟨s, hs, rfl⟩ := List.mem_map.1 hmem
    obtain ⟨v, hv⟩ := h s hs
    exact List.mem_map_of_mem (OrderedMap.get?_eq_some_iff.1 hv)
  have hlength := (List.subperm_of_subset signatures.nodup_keys hkeys).length_le
  rwa [OrderedMap.keys, OrderedMap.keys, List.length_map, List.length_map] at hlength

theorem Endorses.size_le (h : w.Endorses l) : l.signatures.size ≤ w.validators.members.size :=
  size_le_of_signatures fun s hs => (h.signature s hs).imp fun _ hv => hv.1

theorem verify_eq_ok_iff_endorses : w.verify l = .ok () ↔ w.Endorses l := by
  constructor
  · intro h
    obtain ⟨hepoch, -, power, hpower, -⟩ := verify_eq_ok_iff.1 h
    exact ⟨hepoch, fun s hs => signature_of_signedPower hpower hs, quorumPower_le_of_verify h⟩
  · intro h
    obtain ⟨power, hpower⟩ := exists_signedPower h.signature
    refine verify_eq_ok_iff.2 ⟨h.epoch_eq, h.size_le, power, hpower, ?_⟩
    rw [signedPower_eq l.signatures.sorted hpower]
    exact h.quorum

/-- What stands under the address of a known validator is its signature. -/
theorem hasSigner_iff_signedBy (h : w.verify l = .ok ()) (hknows : w.validators.Knows v) :
    l.hasSigner v.address = true ↔ l.SignedBy v := by
  obtain ⟨-, -, power, hpower, -⟩ := verify_eq_ok_iff.1 h
  rw [SignedLedgerInfo.hasSigner, decide_eq_true_iff, OrderedMap.keys, List.mem_map]
  constructor
  · rintro ⟨⟨author, signature⟩, hmem, rfl⟩
    obtain ⟨u, hmember, hsignature⟩ := signature_of_signedPower hpower hmem
    have hsame := ValidatorSet.get?_members_eq_some_iff.2 ⟨hknows, rfl⟩
    rw [hmember, Option.some.injEq] at hsame
    exact ⟨signature, OrderedMap.get?_eq_some_iff.2 hmem, hsame ▸ hsignature⟩
  · rintro ⟨signature, hget, -⟩
    exact ⟨_, OrderedMap.get?_eq_some_iff.1 hget, rfl⟩

/-- The validators whose signatures are on both ledger infos. -/
def commonSigners (w : EpochVerifier) (a b : SignedLedgerInfo) : List Validator :=
  w.validators.members.values.filter fun v => a.hasSigner v.address && b.hasSigner v.address

theorem powerOf_commonSigners (w : EpochVerifier) (a b : SignedLedgerInfo) :
    ValidatorSet.powerOf (w.commonSigners a b) = w.commonPower a b :=
  w.validators.powerOf_filter_members fun address => a.hasSigner address && b.hasSigner address

/-- The validators who have signed two accepted ledger infos are different ones, and they hold more
than a third of the power of all that are known. -/
theorem totalPower_lt_commonSigners (ha : w.verify a = .ok ()) (hb : w.verify b = .ok ()) :
    (∀ v, v ∈ w.validators.members.values ↔ w.validators.Knows v) ∧
      (w.validators.members.values.map Validator.address).Nodup ∧
      w.validators.totalPower = ValidatorSet.powerOf w.validators.members.values ∧
      (∀ v, v ∈ w.commonSigners a b ↔ w.validators.Knows v ∧ a.SignedBy v ∧ b.SignedBy v) ∧
      ((w.commonSigners a b).map Validator.address).Nodup ∧
      w.validators.totalPower < 3 * ValidatorSet.powerOf (w.commonSigners a b) := by
  have hnodup := w.validators.nodup_address_members
  refine ⟨fun v => ValidatorSet.mem_values_members_iff, hnodup, rfl, fun v => ?_,
    hnodup.sublist (List.filter_sublist.map _), ?_⟩
  · rw [commonSigners, List.mem_filter, ValidatorSet.mem_values_members_iff, Bool.and_eq_true]
    refine and_congr_right fun hknows => ?_
    rw [hasSigner_iff_signedBy ha hknows, hasSigner_iff_signedBy hb hknows]
  · rw [powerOf_commonSigners]
    exact totalPower_lt_of_verify ha hb

/-! ## A repeated address

The signer of the forked epoch is listed twice. Only the second entry counts, so that it holds
seven votes of eight. -/

namespace Repeated
open EpochChain.Fork (verifier left right verify_left verify_right)

def second : Validator := ⟨.zero, .generator, 7⟩

def validators : ValidatorSet :=
  ⟨.bls12381, [⟨.zero, .generator, 5⟩, ⟨⟨.replicate 32 1⟩, .generator, 1⟩, second]⟩

def repeated : EpochVerifier := ⟨0, validators, by decide +kernel⟩

/-- The signature that the only validator of an epoch gave is good for the second entry too. -/
theorem verify_repeated {next : ValidatorSet} {signature : Signature}
    (h : verifier.verify (EpochChain.Fork.ending next signature) = .ok ()) :
    repeated.verify (EpochChain.Fork.ending next signature) = .ok () := by
  obtain ⟨-, -, power, hpower, -⟩ := verify_eq_ok_iff.1 h
  obtain ⟨v, -, hmember, hsignature, -⟩ := signedPower_cons_eq_ok_iff.1 hpower
  cases hmember
  have hsize : 1 ≤ repeated.validators.members.size := by decide +kernel
  have hquorum : repeated.validators.quorumPower ≤ 7 := by decide +kernel
  refine verify_eq_ok_iff.2 ⟨rfl, hsize, 7, ?_, hquorum⟩
  exact signedPower_cons_eq_ok_iff.2 ⟨second, 0, rfl, hsignature, rfl, rfl⟩

theorem totalPower_lt_commonSigners_repeated :
    repeated.verify left = .ok () ∧ repeated.verify right = .ok () ∧
      repeated.validators.totalPower = 8 ∧ repeated.commonSigners left right = [second] ∧
      8 < 3 * ValidatorSet.powerOf [second] ∧
      (second ∈ repeated.commonSigners left right ↔
        repeated.validators.Knows second ∧ left.SignedBy second ∧ right.SignedBy second) := by
  have hleft : repeated.verify left = .ok () := verify_repeated verify_left
  have hright : repeated.verify right = .ok () := verify_repeated verify_right
  have htotal : repeated.validators.totalPower = 8 := by decide +kernel
  have hcommon : repeated.commonSigners left right = [second] := by decide +kernel
  obtain ⟨-, -, -, hmem, -, hlt⟩ := totalPower_lt_commonSigners hleft hright
  rw [htotal, hcommon] at hlt
  exact ⟨hleft, hright, htotal, hcommon, hlt, hmem second⟩

end Repeated

end EpochVerifier
end VerifiedLedger
