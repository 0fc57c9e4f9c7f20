import VerifiedLedger.Trust.Anchor
import VerifiedLedger.Proofs.Bytes.OrderedMap
import VerifiedLedger.Proofs.Checks
/-! # Quorums intersect

The members of a set and the signatures of a ledger info are two maps with one kind of key. What the
verifier adds up signature by signature is the power of the members who signed; so two ledger infos
that reach the quorum share signers with more than a third of the power.
-/
namespace VerifiedLedger
open ByteKey (keyBytes)
variable {members : List (Address × Validator)} {p q : Address → Bool}

/-- The voting power of the members with these addresses. -/
def powerWhere (members : List (Address × Validator)) (p : Address → Bool) : ℕ :=
  ValidatorSet.powerOf ((members.filter fun m => p m.1).map Prod.snd)

theorem powerWhere_cons (m : Address × Validator) (members : List (Address × Validator))
    (p : Address → Bool) :
    powerWhere (m :: members) p =
      (if p m.1 then m.2.votingPower.toNat else 0) + powerWhere members p := by
  cases h : p m.1 with
  | false => simp [powerWhere, h]
  | true => simp [powerWhere, h, ValidatorSet.powerOf]

theorem powerWhere_and_add_or (members : List (Address × Validator)) (p q : Address → Bool) :
    powerWhere members (fun a => p a && q a) + powerWhere members (fun a => p a || q a) =
      powerWhere members p + powerWhere members q := by
  induction members with
  | nil => rfl
  | cons m members ih =>
    simp only [powerWhere_cons]
    cases p m.1 with
    | false =>
      cases q m.1 with
      | false => simpa using ih
      | true => simp; omega
    | true =>
      cases q m.1 with
      | false => simp; omega
      | true => simp; omega

theorem powerWhere_le (members : List (Address × Validator)) (p : Address → Bool) :
    powerWhere members p ≤ ValidatorSet.powerOf (members.map Prod.snd) := by
  induction members with
  | nil => exact Nat.le_refl _
  | cons m members ih =>
    rw [powerWhere_cons, List.map_cons, ValidatorSet.powerOf, List.foldr_cons]
    rw [ValidatorSet.powerOf] at ih
    split
    · omega
    · omega

theorem powerWhere_congr (h : ∀ m ∈ members, p m.1 = q m.1) :
    powerWhere members p = powerWhere members q := by
  rw [powerWhere, powerWhere, List.filter_congr h]

theorem powerWhere_of_false (h : ∀ m ∈ members, p m.1 = false) : powerWhere members p = 0 := by
  rw [powerWhere_congr (q := fun _ => false) h, powerWhere, List.filter_false]
  rfl

/-- A member is found under its own address and under no other one. -/
theorem powerWhere_of_lookup {a : Address} {v : Validator}
    (hsorted : members.Pairwise fun m n => keyBytes m.1 < keyBytes n.1)
    (h : OrderedMap.lookup a members = some v) :
    powerWhere members (fun b => decide (b = a)) = v.votingPower.toNat := by
  induction members with
  | nil => cases h
  | cons m members ih =>
    obtain ⟨hfirst, hrest⟩ := List.pairwise_cons.1 hsorted
    obtain ⟨b, w⟩ := m
    rw [powerWhere_cons]
    by_cases hkey : keyBytes a = keyBytes b
    · obtain rfl := ByteKey.keyBytes_inj a b hkey
      rw [OrderedMap.lookup, if_pos hkey] at h
      have hothers : ∀ n ∈ members, decide (n.1 = a) = false := fun n hn =>
        decide_eq_false (OrderedMap.ne_of_keyBytes_lt (hfirst n hn)).symm
      rw [if_pos (decide_eq_true rfl), powerWhere_of_false hothers, Option.some.inj h, Nat.add_zero]
    · have hba : ¬b = a := fun hba => hkey (congrArg keyBytes hba.symm)
      rw [OrderedMap.lookup, if_neg hkey] at h
      rw [if_neg (by rwa [decide_eq_true_iff]), ih hrest h, Nat.zero_add]

theorem not_mem_signers {author : Address} {signatures : List (Address × Signature)}
    (h : ∀ s ∈ signatures, keyBytes author < keyBytes s.1) :
    author ∉ signatures.map Prod.fst := by
  intro hmem
  obtain ⟨s, hs, hkey⟩ := List.mem_map.1 hmem
  exact OrderedMap.ne_of_keyBytes_lt (h s hs) hkey.symm

/-- A member who is not among the others adds to their power. -/
theorem powerWhere_mem_cons {set : OrderedMap Address Validator} {signers : List Address}
    {author : Address} {v : Validator} (hmember : set.get? author = some v)
    (hother : author ∉ signers) :
    powerWhere set.entries (fun a => decide (a ∈ author :: signers)) =
      v.votingPower.toNat + powerWhere set.entries fun a => decide (a ∈ signers) := by
  have hboth : powerWhere set.entries
      (fun a => decide (a = author) && decide (a ∈ signers)) = 0 := by
    refine powerWhere_of_false fun m _ => ?_
    rw [Bool.and_eq_false_iff, decide_eq_false_iff_not, decide_eq_false_iff_not]
    by_cases hm : m.1 = author
    · exact .inr fun hmem => hother (hm ▸ hmem)
    · exact .inl hm
  have hsum := powerWhere_and_add_or set.entries (fun a => decide (a = author))
    (fun a => decide (a ∈ signers))
  rw [hboth, Nat.zero_add, powerWhere_of_lookup set.sorted hmember] at hsum
  rw [← hsum]
  refine powerWhere_congr fun m _ => ?_
  rw [← Bool.decide_or]
  exact decide_eq_decide.2 List.mem_cons

def SignedLedgerInfo.hasSigner (l : SignedLedgerInfo) (a : Address) : Bool :=
  decide (a ∈ l.signatures.keys)

namespace EpochVerifier
variable {w : EpochVerifier} {a b l : SignedLedgerInfo}

theorem signedPower_cons_eq_ok_iff {set : OrderedMap Address Validator} {message : List UInt8}
    {author : Address} {signature : Signature} {signatures : List (Address × Signature)}
    {power : ℕ} :
    signedPower set message ((author, signature) :: signatures) = .ok power ↔
      ∃ v others, set.get? author = some v ∧
        verifySignature v.publicKey message signature = .ok () ∧
        signedPower set message signatures = .ok others ∧ v.votingPower.toNat + others = power := by
  rw [signedPower]
  cases set.get? author with
  | none => simp
  | some v =>
    cases hsignature : verifySignature v.publicKey message signature with
    | error e => simp [hsignature]
    | ok => simp [hsignature]

/-- Signers are added up one by one, and no one twice. -/
theorem signedPower_eq {set : OrderedMap Address Validator} {message : List UInt8}
    {signatures : List (Address × Signature)} {power : ℕ}
    (hsorted : signatures.Pairwise fun s t => keyBytes s.1 < keyBytes t.1)
    (h : signedPower set message signatures = .ok power) :
    power = powerWhere set.entries fun a => decide (a ∈ signatures.map Prod.fst) := by
  induction signatures generalizing power with
  | nil =>
    cases h
    exact (powerWhere_of_false fun _ _ => decide_eq_false List.not_mem_nil).symm
  | cons s signatures ih =>
    obtain ⟨author, signature⟩ := s
    obtain ⟨hfirst, hrest⟩ := List.pairwise_cons.1 hsorted
    obtain ⟨v, others, hmember, -, hothers, rfl⟩ := signedPower_cons_eq_ok_iff.1 h
    -- The first signer is not among the others, which have later addresses.
    have hother := not_mem_signers hfirst
    rw [List.map_cons, powerWhere_mem_cons hmember hother, ← ih hrest hothers]

theorem verify_eq_ok_iff :
    w.verify l = .ok () ↔
      l.ledgerInfo.epoch = w.epoch ∧ l.signatures.size ≤ w.validators.members.size ∧
        ∃ power, signedPower w.validators.members l.ledgerInfo.hash.toList l.signatures.entries =
          .ok power ∧ w.validators.quorumPower ≤ power := by
  simp only [verify, ite_error_eq_ok_iff, bind_eq_ok_iff, ne_eq, Decidable.not_not, Nat.not_lt]
  refine and_congr_right fun _ => and_congr_right fun _ => exists_congr fun power => ?_
  refine and_congr_right fun _ => ?_
  by_cases h : power < w.validators.quorumPower
  · simp [h]
  · simp [h, Nat.le_of_not_lt h]

theorem epoch_eq_of_verify (h : w.verify l = .ok ()) : l.ledgerInfo.epoch = w.epoch :=
  (verify_eq_ok_iff.1 h).1

theorem quorumPower_le_of_verify (h : w.verify l = .ok ()) :
    w.validators.quorumPower ≤ powerWhere w.validators.members.entries l.hasSigner := by
  obtain ⟨-, -, power, hpower, hquorum⟩ := verify_eq_ok_iff.1 h
  rwa [signedPower_eq l.signatures.sorted hpower] at hquorum

/-- The voting power of the validators whose signatures are on both ledger infos. -/
def commonPower (w : EpochVerifier) (a b : SignedLedgerInfo) : ℕ :=
  powerWhere w.validators.members.entries fun address => a.hasSigner address && b.hasSigner address

/-- Two quorums of more than two thirds have more than one third in common. -/
theorem totalPower_lt_of_verify (ha : w.verify a = .ok ()) (hb : w.verify b = .ok ()) :
    w.validators.totalPower < 3 * w.commonPower a b := by
  have hqa := quorumPower_le_of_verify ha
  have hqb := quorumPower_le_of_verify hb
  have hsum := powerWhere_and_add_or w.validators.members.entries a.hasSigner b.hasSigner
  have hall : powerWhere w.validators.members.entries
      (fun address => a.hasSigner address || b.hasSigner address) ≤ w.validators.totalPower :=
    powerWhere_le _ _
  rw [ValidatorSet.quorumPower] at hqa hqb
  rw [commonPower]
  omega

end EpochVerifier
end VerifiedLedger
