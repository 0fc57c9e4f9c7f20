import VerifiedLedger.Proofs.Trust.CommonSigners
/-! # Why a certificate is refused

The signatures on a ledger info are looked at in the order of their addresses, and the first one
that is not good is the answer. Whether there are more of them than validators is asked before; that
refuses nothing that would have been accepted, as good signatures are of different validators.
-/
namespace VerifiedLedger.EpochVerifier
open ByteKey (keyBytes)
variable {w : EpochVerifier} {l : SignedLedgerInfo} {s : Address × Signature} {e : TrustError}
  {signatures : List (Address × Signature)}

/-- The signature is that of a known validator. -/
def Admits (w : EpochVerifier) (l : SignedLedgerInfo) (s : Address × Signature) : Prop :=
  ∃ v, w.validators.Knows v ∧ v.address = s.1 ∧
    verifySignature v.publicKey l.ledgerInfo.hash.toList s.2 = .ok ()

/-- What is wrong with a signature. -/
inductive Flaw (w : EpochVerifier) (l : SignedLedgerInfo) : Address × Signature → TrustError → Prop
  | unknown {author : Address} {signature : Signature}
      (h : ∀ v, w.validators.Knows v → v.address ≠ author) :
      Flaw w l (author, signature) (.unknownSigner author)
  | bad {v : Validator} {signature : Signature} {reason : SignatureError}
      (hknows : w.validators.Knows v)
      (h : verifySignature v.publicKey l.ledgerInfo.hash.toList signature = .error reason) :
      Flaw w l (v.address, signature) (.badSignature v.address reason)

/-- The known validators under whose addresses there are signatures. -/
def signers (w : EpochVerifier) (l : SignedLedgerInfo) : List Validator :=
  w.validators.members.values.filter fun v => l.hasSigner v.address

/-- The causes for which the ledger info is refused; each presumes that no cause before it holds. -/
inductive Refuses (w : EpochVerifier) (l : SignedLedgerInfo) : TrustError → Prop
  | wrongEpoch (hepoch : l.ledgerInfo.epoch ≠ w.epoch) :
      Refuses w l (.wrongEpoch w.epoch l.ledgerInfo.epoch)
  | tooManySigners (hepoch : l.ledgerInfo.epoch = w.epoch)
      (hsize : w.validators.members.size < l.signatures.size) :
      Refuses w l (.tooManySigners l.signatures.size w.validators.members.size)
  | flaw {s : Address × Signature} {e : TrustError} (hepoch : l.ledgerInfo.epoch = w.epoch)
      (hsize : l.signatures.size ≤ w.validators.members.size) (hmem : s ∈ l.signatures.entries)
      (hbefore : ∀ t ∈ l.signatures.entries, keyBytes t.1 < keyBytes s.1 → w.Admits l t)
      (hflaw : w.Flaw l s e) : Refuses w l e
  | tooLittlePower (hepoch : l.ledgerInfo.epoch = w.epoch)
      (hadmits : ∀ s ∈ l.signatures.entries, w.Admits l s)
      (hpower : ValidatorSet.powerOf (w.signers l) < w.validators.quorumPower) :
      Refuses w l
        (.tooLittlePower (ValidatorSet.powerOf (w.signers l)) w.validators.quorumPower)

section Signatures

theorem admits_iff :
    w.Admits l s ↔ ∃ v, w.validators.members.get? s.1 = some v ∧
      verifySignature v.publicKey l.ledgerInfo.hash.toList s.2 = .ok () := by
  simp only [ValidatorSet.get?_members_eq_some_iff, and_assoc]
  exact Iff.rfl

theorem get?_members_eq_none_iff {author : Address} :
    w.validators.members.get? author = none ↔
      ∀ v, w.validators.Knows v → v.address ≠ author := by
  rw [Option.eq_none_iff_forall_ne_some]
  refine forall_congr' fun v => ?_
  rw [ne_eq, ValidatorSet.get?_members_eq_some_iff, not_and]

theorem admits_or_flaw (w : EpochVerifier) (l : SignedLedgerInfo) (s : Address × Signature) :
    w.Admits l s ∨ ∃ e, w.Flaw l s e := by
  obtain ⟨author, signature⟩ := s
  cases hmember : w.validators.members.get? author with
  | none => exact .inr ⟨_, .unknown (get?_members_eq_none_iff.1 hmember)⟩
  | some v =>
    obtain ⟨hknows, rfl⟩ := ValidatorSet.get?_members_eq_some_iff.1 hmember
    cases hsignature : verifySignature v.publicKey l.ledgerInfo.hash.toList signature with
    | error reason => exact .inr ⟨_, .bad hknows hsignature⟩
    | ok => exact .inl ⟨v, hknows, rfl, hsignature⟩

/-- The voting power of the signers, as the verifier adds it up. -/
def powerSigned (w : EpochVerifier) (l : SignedLedgerInfo)
    (signatures : List (Address × Signature)) : Except TrustError ℕ :=
  signedPower w.validators.members l.ledgerInfo.hash.toList signatures

theorem powerSigned_cons_of_flaw (h : w.Flaw l s e) :
    w.powerSigned l (s :: signatures) = .error e := by
  cases h with
  | unknown h => rw [powerSigned, signedPower, get?_members_eq_none_iff.2 h]
  | @bad v signature reason hknows h =>
    have hmember := ValidatorSet.get?_members_eq_some_iff.2 ⟨hknows, rfl⟩
    rw [powerSigned, signedPower, hmember]
    simp only [h]

theorem powerSigned_cons_of_admits (h : w.Admits l s) :
    w.powerSigned l (s :: signatures) = .error e ↔ w.powerSigned l signatures = .error e := by
  obtain ⟨v, hmember, hsignature⟩ := admits_iff.1 h
  rw [powerSigned, signedPower, hmember]
  simp only [hsignature]
  rw [powerSigned]
  cases signedPower w.validators.members l.ledgerInfo.hash.toList signatures with
  | error e' => exact Iff.rfl
  | ok power =>
    constructor
    · intro hsum
      cases hsum
    · intro hsum
      cases hsum

/-- The sum fails at the first signature with a flaw. -/
theorem powerSigned_eq_error_iff :
    w.powerSigned l signatures = .error e ↔
      ∃ before s after, signatures = before ++ s :: after ∧ (∀ t ∈ before, w.Admits l t) ∧
        w.Flaw l s e := by
  constructor
  · intro h
    induction signatures with
    | nil => cases h
    | cons s signatures ih =>
      rcases admits_or_flaw w l s with hadmits | ⟨e', hflaw⟩
      · obtain ⟨before, t, after, rfl, hbefore, hflaw⟩ :=
          ih ((powerSigned_cons_of_admits hadmits).1 h)
        exact ⟨s :: before, t, after, rfl, List.forall_mem_cons.2 ⟨hadmits, hbefore⟩, hflaw⟩
      · rw [powerSigned_cons_of_flaw hflaw, Except.error.injEq] at h
        exact ⟨[], s, signatures, rfl, nofun, h ▸ hflaw⟩
  · rintro ⟨before, s, after, rfl, hbefore, hflaw⟩
    induction before with
    | nil => exact powerSigned_cons_of_flaw hflaw
    | cons t before ih =>
      obtain ⟨hadmits, hbefore⟩ := List.forall_mem_cons.1 hbefore
      exact (powerSigned_cons_of_admits hadmits).2 (ih hbefore)

theorem powerSigned_eq_ok_iff {power : ℕ} :
    w.powerSigned l l.signatures.entries = .ok power ↔
      (∀ s ∈ l.signatures.entries, w.Admits l s) ∧ ValidatorSet.powerOf (w.signers l) = power := by
  have hsum {power : ℕ} (h : w.powerSigned l l.signatures.entries = .ok power) :
      ValidatorSet.powerOf (w.signers l) = power :=
    (w.validators.powerOf_filter_members l.hasSigner).trans
      (signedPower_eq l.signatures.sorted h).symm
  constructor
  · intro h
    exact ⟨fun s hs => admits_iff.2 (signature_of_signedPower h hs), hsum h⟩
  · rintro ⟨hadmits, rfl⟩
    obtain ⟨power, h⟩ := exists_signedPower fun s hs => admits_iff.1 (hadmits s hs)
    exact h.trans (congrArg Except.ok (hsum h).symm)

end Signatures

section Verify

/-- In the order of addresses, what comes before a signature is what has a smaller address. -/
theorem forall_mem_before_iff {p : Address × Signature → Prop} {m : OrderedMap Address Signature}
    {before after : List (Address × Signature)} (h : m.entries = before ++ s :: after) :
    (∀ t ∈ before, p t) ↔ ∀ t ∈ m.entries, keyBytes t.1 < keyBytes s.1 → p t := by
  have hsorted := m.sorted
  rw [h] at hsorted
  obtain ⟨-, hrest, hlt⟩ := List.pairwise_append.1 hsorted
  rw [h]
  constructor
  · intro hbefore t ht hless
    rcases List.mem_append.1 ht with ht | ht
    · exact hbefore t ht
    · rcases List.mem_cons.1 ht with rfl | ht
      · exact absurd hless (List.lt_irrefl _)
      · exact absurd hless (List.lt_asymm ((List.pairwise_cons.1 hrest).1 t ht))
  · intro hless t ht
    exact hless t (List.mem_append_left _ ht) (hlt t ht s List.mem_cons_self)

theorem verify_of_wrongEpoch (hepoch : l.ledgerInfo.epoch ≠ w.epoch) :
    w.verify l = .error (.wrongEpoch w.epoch l.ledgerInfo.epoch) := if_pos hepoch

theorem verify_of_tooManySigners (hepoch : l.ledgerInfo.epoch = w.epoch)
    (hsize : w.validators.members.size < l.signatures.size) :
    w.verify l = .error (.tooManySigners l.signatures.size w.validators.members.size) :=
  (if_neg (not_not_intro hepoch)).trans (if_pos hsize)

theorem verify_of_size (hepoch : l.ledgerInfo.epoch = w.epoch)
    (hsize : l.signatures.size ≤ w.validators.members.size) :
    w.verify l = w.powerSigned l l.signatures.entries >>= fun power =>
      if power < w.validators.quorumPower then
        .error (.tooLittlePower power w.validators.quorumPower)
      else .ok () :=
  (if_neg (not_not_intro hepoch)).trans (if_neg (Nat.not_lt.2 hsize))

theorem size_le_of_admits (h : ∀ s ∈ l.signatures.entries, w.Admits l s) :
    l.signatures.size ≤ w.validators.members.size :=
  size_le_of_signatures fun s hs => (admits_iff.1 (h s hs)).imp fun _ hv => hv.1

theorem verify_eq_ok_iff_admits :
    w.verify l = .ok () ↔
      l.ledgerInfo.epoch = w.epoch ∧ (∀ s ∈ l.signatures.entries, w.Admits l s) ∧
        w.validators.quorumPower ≤ ValidatorSet.powerOf (w.signers l) := by
  rw [verify_eq_ok_iff]
  refine and_congr_right fun _ => ?_
  constructor
  · rintro ⟨-, power, hpower, hquorum⟩
    obtain ⟨hadmits, rfl⟩ := powerSigned_eq_ok_iff.1 hpower
    exact ⟨hadmits, hquorum⟩
  · rintro ⟨hadmits, hquorum⟩
    exact ⟨size_le_of_admits hadmits, _, powerSigned_eq_ok_iff.2 ⟨hadmits, rfl⟩, hquorum⟩

theorem refuses_of_verify (h : w.verify l = .error e) : w.Refuses l e := by
  by_cases hepoch : l.ledgerInfo.epoch = w.epoch
  · rcases Nat.lt_or_ge w.validators.members.size l.signatures.size with hsize | hsize
    · rw [verify_of_tooManySigners hepoch hsize] at h
      cases h
      exact .tooManySigners hepoch hsize
    · rw [verify_of_size hepoch hsize] at h
      cases hsum : w.powerSigned l l.signatures.entries with
      | error e' =>
        rw [hsum] at h
        cases h
        obtain ⟨before, s, after, hsplit, hbefore, hflaw⟩ := powerSigned_eq_error_iff.1 hsum
        have hmem : s ∈ l.signatures.entries := hsplit ▸ List.mem_append_right _ List.mem_cons_self
        exact .flaw hepoch hsize hmem ((forall_mem_before_iff hsplit).1 hbefore) hflaw
      | ok power =>
        obtain ⟨hadmits, rfl⟩ := powerSigned_eq_ok_iff.1 hsum
        rw [hsum, ok_bind] at h
        split at h
        · next hpower =>
          cases h
          exact .tooLittlePower hepoch hadmits hpower
        · cases h
  · rw [verify_of_wrongEpoch hepoch] at h
    cases h
    exact .wrongEpoch hepoch

theorem verify_of_refuses (h : w.Refuses l e) : w.verify l = .error e := by
  cases h with
  | wrongEpoch hepoch => exact verify_of_wrongEpoch hepoch
  | tooManySigners hepoch hsize => exact verify_of_tooManySigners hepoch hsize
  | @flaw s e hepoch hsize hmem hbefore hflaw =>
    obtain ⟨before, after, hsplit⟩ := List.append_of_mem hmem
    have hadmits := (forall_mem_before_iff hsplit).2 hbefore
    rw [verify_of_size hepoch hsize,
      powerSigned_eq_error_iff.2 ⟨before, s, after, hsplit, hadmits, hflaw⟩]
    rfl
  | tooLittlePower hepoch hadmits hpower =>
    rw [verify_of_size hepoch (size_le_of_admits hadmits),
      powerSigned_eq_ok_iff.2 ⟨hadmits, rfl⟩, ok_bind, if_pos hpower]

/-- When a ledger info is accepted, and why it is refused otherwise. Counting the signers first does
not refuse what is good otherwise. -/
theorem verify_answers (w : EpochVerifier) (l : SignedLedgerInfo) :
    (w.verify l = .ok () ↔
      l.ledgerInfo.epoch = w.epoch ∧ (∀ s ∈ l.signatures.entries, w.Admits l s) ∧
        w.validators.quorumPower ≤ ValidatorSet.powerOf (w.signers l)) ∧
    ((∀ s ∈ l.signatures.entries, w.Admits l s) →
      l.signatures.size ≤ w.validators.members.size) ∧
    ∀ e, w.verify l = .error e ↔ w.Refuses l e :=
  ⟨verify_eq_ok_iff_admits, size_le_of_admits, fun _ => ⟨refuses_of_verify, verify_of_refuses⟩⟩

end Verify

end VerifiedLedger.EpochVerifier
