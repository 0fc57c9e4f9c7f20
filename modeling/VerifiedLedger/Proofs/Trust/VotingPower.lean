import Mathlib.Algebra.BigOperators.Group.Finset.Basic
import Mathlib.Algebra.GroupWithZero.Nat
import Mathlib.Algebra.Order.BigOperators.Group.Finset
import VerifiedLedger.Proofs.Trust.Certificates
import VerifiedLedger.Proofs.Words
/-! # Voting power

An address counts once in the total, with the power of the last entry that has it. The quorum is the
least number that is more than two thirds of the total. Powers are added up in words of 128 bits,
where a sum or product fails if it is no word; for fewer than `2 ^ 63` entries none does, whatever
signatures there are.
-/
namespace VerifiedLedger
open ByteKey (keyBytes)

namespace ValidatorSet
variable {s : ValidatorSet} {v : Validator} {a : Address}

/-- The last entry with that address. -/
def lastWith (s : ValidatorSet) (a : Address) : Option Validator :=
  s.validators.reverse.find? fun v => v.address = a

def lastPower (s : ValidatorSet) (a : Address) : ℕ :=
  ((s.lastWith a).map fun v => v.votingPower.toNat).getD 0

/-- The addresses that are listed, each of them once. -/
def addresses (s : ValidatorSet) : Finset Address := (s.validators.map Validator.address).toFinset

theorem lastWith_eq_some_iff : s.lastWith a = some v ↔ s.Knows v ∧ v.address = a := by
  rw [lastWith, List.find?_eq_some_iff_append, decide_eq_true_iff, and_comm]
  refine and_congr_left ?_
  rintro rfl
  constructor
  · rintro ⟨after, before, hlist, hafter⟩
    refine ⟨before.reverse, after.reverse, ?_, fun u hu => ?_⟩
    · rw [← List.reverse_reverse s.validators, hlist, List.reverse_append, List.reverse_cons,
        List.append_assoc]
      rfl
    · simpa using hafter u (List.mem_reverse.1 hu)
  · rintro ⟨before, after, hlist, hafter⟩
    refine ⟨after.reverse, before.reverse, ?_, fun u hu => ?_⟩
    · rw [hlist, List.reverse_append, List.reverse_cons, List.append_assoc]
      rfl
    · simpa using hafter u (List.mem_reverse.1 hu)

theorem get?_members (s : ValidatorSet) (a : Address) : s.members.get? a = s.lastWith a :=
  Option.ext fun _ => get?_members_eq_some_iff.trans lastWith_eq_some_iff.symm

theorem toFinset_keys_members (s : ValidatorSet) : s.members.keys.toFinset = s.addresses := by
  ext a
  have hlisted : a ∈ s.validators.map Validator.address ↔ (s.lastWith a).isSome := by
    simp [lastWith, List.find?_isSome]
  have hmember : a ∈ s.members.keys ↔ (s.members.get? a).isSome := by
    rw [OrderedMap.keys, List.mem_map, Option.isSome_iff_exists]
    constructor
    · rintro ⟨m, hm, rfl⟩
      exact ⟨m.2, OrderedMap.get?_eq_some_iff.2 hm⟩
    · rintro ⟨v, hv⟩
      exact ⟨_, OrderedMap.get?_eq_some_iff.1 hv, rfl⟩
  rw [addresses, List.mem_toFinset, List.mem_toFinset, hmember, hlisted, get?_members]

theorem powerOf_eq_sum (vs : List Validator) :
    powerOf vs = (vs.map fun v => v.votingPower.toNat).sum := by
  rw [powerOf, List.sum_eq_foldr, List.foldr_map]

theorem totalPower_eq_sum (s : ValidatorSet) :
    s.totalPower = ∑ a ∈ s.addresses, s.lastPower a := by
  have hpowers : s.members.values.map (fun v => v.votingPower.toNat) =
      s.members.keys.map s.lastPower := by
    rw [OrderedMap.values, OrderedMap.keys, List.map_map, List.map_map]
    refine List.map_congr_left fun m hm => ?_
    have hlast : s.lastWith m.1 = some m.2 := by
      rw [← get?_members]
      exact OrderedMap.get?_eq_some_iff.2 hm
    rw [Function.comp_apply, Function.comp_apply, lastPower, hlast]
    rfl
  rw [totalPower, powerOf_eq_sum, hpowers, ← toFinset_keys_members,
    List.sum_toFinset _ s.members.nodup_keys]

theorem lastPower_le (s : ValidatorSet) (a : Address) : s.lastPower a ≤ 2 ^ 64 - 1 := by
  rw [lastPower]
  cases s.lastWith a with
  | none => exact Nat.zero_le _
  | some v => exact Nat.le_sub_one_of_lt v.votingPower.toNat_lt

theorem totalPower_lt (h : s.validators.length < 2 ^ 63) : s.totalPower < 2 ^ 127 := by
  have hcard : s.addresses.card ≤ s.validators.length :=
    (List.toFinset_card_le _).trans_eq (List.length_map _)
  have hsum := Finset.sum_le_card_nsmul s.addresses s.lastPower (2 ^ 64 - 1)
    fun a _ => s.lastPower_le a
  rw [← totalPower_eq_sum, Nat.nsmul_eq_mul] at hsum
  omega

theorem isLeast_quorumPower (s : ValidatorSet) :
    IsLeast {q | 2 * s.totalPower < 3 * q} s.quorumPower := by
  rw [quorumPower]
  constructor
  · change 2 * s.totalPower < 3 * (s.totalPower * 2 / 3 + 1)
    omega
  · intro q hq
    change 2 * s.totalPower < 3 * q at hq
    omega

theorem quorumPower_le (h : 0 < s.totalPower) : s.quorumPower ≤ s.totalPower := by
  rw [quorumPower]
  omega

end ValidatorSet

namespace Wide

def exact (value : ℕ) : Except (WordFault TrustError) (BitVec 128) :=
  if value < 2 ^ 128 then .ok (.ofNat 128 value) else .error .overflow

def addPower (sum : BitVec 128) (v : Validator) : Except (WordFault TrustError) (BitVec 128) :=
  exact (sum.toNat + v.votingPower.toNat)

theorem exact_of_lt {value : ℕ} (h : value < 2 ^ 128) : exact value = .ok (.ofNat 128 value) :=
  if_pos h

theorem toNat_ofNat {value : ℕ} (h : value < 2 ^ 128) : (BitVec.ofNat 128 value).toNat = value :=
  (BitVec.toNat_ofNat value 128).trans (Nat.mod_eq_of_lt h)

theorem addPower_ofNat {sum : ℕ} {v : Validator} (h : sum + v.votingPower.toNat < 2 ^ 128) :
    addPower (.ofNat 128 sum) v = .ok (.ofNat 128 (sum + v.votingPower.toNat)) := by
  rw [addPower, toNat_ofNat (Nat.lt_of_add_right_lt h), exact_of_lt h]

theorem foldlM_addPower {vs : List Validator} {sum : ℕ}
    (h : sum + ValidatorSet.powerOf vs < 2 ^ 128) :
    vs.foldlM addPower (.ofNat 128 sum) = .ok (.ofNat 128 (sum + ValidatorSet.powerOf vs)) := by
  induction vs generalizing sum with
  | nil => rfl
  | cons v vs ih =>
    have hpower : ValidatorSet.powerOf (v :: vs) =
        v.votingPower.toNat + ValidatorSet.powerOf vs := rfl
    rw [hpower, ← Nat.add_assoc] at h ⊢
    rw [List.foldlM_cons, addPower_ofNat (Nat.lt_of_add_right_lt h), ok_bind, ih h]

end Wide

structure WideVerifier where
  epoch : UInt64
  validators : ValidatorSet
  totalPower : BitVec 128
  quorumPower : BitVec 128

namespace WideVerifier

def ofSet (validators : ValidatorSet) (epoch : UInt64) :
    Except (WordFault TrustError) WideVerifier := do
  let total ← validators.members.values.foldlM Wide.addPower 0
  if total = 0 then throw (.refused (.noPower epoch))
  else
    let doubled ← Wide.exact (total.toNat * 2)
    let quorum ← Wide.exact ((doubled / 3).toNat + 1)
    return ⟨epoch, validators, total, quorum⟩

/-- Adds the power of one signer after the other to the sum. -/
def addSigned (members : OrderedMap Address Validator) (message : List UInt8) :
    (sum : BitVec 128) → List (Address × Signature) → Except (WordFault TrustError) (BitVec 128)
  | sum, [] => .ok sum
  | sum, (author, signature) :: rest =>
    match members.get? author with
    | none => .error (.refused (.unknownSigner author))
    | some v =>
      match verifySignature v.publicKey message signature with
      | .error reason => .error (.refused (.badSignature author reason))
      | .ok () => do
        let sum ← Wide.addPower sum v
        addSigned members message sum rest

def verify (w : WideVerifier) (l : SignedLedgerInfo) : Except (WordFault TrustError) Unit :=
  let members := w.validators.members
  if l.ledgerInfo.epoch ≠ w.epoch then .error (.refused (.wrongEpoch w.epoch l.ledgerInfo.epoch))
  else if members.size < l.signatures.size then
    .error (.refused (.tooManySigners l.signatures.size members.size))
  else do
    let power ← addSigned members l.ledgerInfo.hash.toList 0 l.signatures.entries
    if power < w.quorumPower then
      throw (.refused (.tooLittlePower power.toNat w.quorumPower.toNat))
    else return ()

end WideVerifier

namespace EpochVerifier
variable {w : EpochVerifier} {l : SignedLedgerInfo} {signatures : List (Address × Signature)}

/-- The verifier with its powers in words. -/
def wide (w : EpochVerifier) : WideVerifier :=
  ⟨w.epoch, w.validators, .ofNat 128 w.validators.totalPower, .ofNat 128 w.validators.quorumPower⟩

theorem ofSet_wide {s : ValidatorSet} (h : s.validators.length < 2 ^ 63) (epoch : UInt64) :
    WideVerifier.ofSet s epoch = Word.answer wide (ofSet s epoch) := by
  have htotal := ValidatorSet.totalPower_lt h
  have hsum : s.members.values.foldlM Wide.addPower 0 = .ok (.ofNat 128 s.totalPower) := by
    have hall : 0 + s.totalPower < 2 ^ 128 := by omega
    have hfold := Wide.foldlM_addPower hall
    rw [Nat.zero_add] at hfold
    exact hfold
  have hword : (BitVec.ofNat 128 s.totalPower).toNat = s.totalPower :=
    Wide.toNat_ofNat (by omega)
  have hzero : BitVec.ofNat 128 s.totalPower = 0 ↔ s.totalPower = 0 := by
    rw [← BitVec.toNat_inj, hword]
    exact Iff.rfl
  rw [WideVerifier.ofSet, hsum, ok_bind, ofSet]
  by_cases hpower : 0 < s.totalPower
  · have hdoubled : Wide.exact (s.totalPower * 2) = .ok (.ofNat 128 (s.totalPower * 2)) :=
      Wide.exact_of_lt (by omega)
    have hthird : (BitVec.ofNat 128 (s.totalPower * 2) / 3).toNat + 1 = s.quorumPower := by
      rw [BitVec.toNat_udiv, Wide.toNat_ofNat (by omega)]
      rfl
    have hquorum : Wide.exact s.quorumPower = .ok (.ofNat 128 s.quorumPower) := by
      refine Wide.exact_of_lt ?_
      rw [ValidatorSet.quorumPower]
      omega
    rw [if_neg (mt hzero.1 hpower.ne'), dif_pos hpower, hword, hdoubled, ok_bind, hthird, hquorum]
    rfl
  · rw [if_pos (hzero.2 (Nat.eq_zero_of_not_pos hpower)), dif_neg hpower]
    rfl

/-- As long as the power of all the signers who are left fits in a word with the sum, the sum stays
a word, also where a signature further on is refused. -/
theorem addSigned_wide {members : OrderedMap Address Validator} (message : List UInt8) {sum : ℕ}
    (hsorted : signatures.Pairwise fun s t => keyBytes s.1 < keyBytes t.1)
    (h : sum + powerWhere members.entries (fun a => decide (a ∈ signatures.map Prod.fst)) <
      2 ^ 128) :
    WideVerifier.addSigned members message (.ofNat 128 sum) signatures =
      Word.answer (fun power => .ofNat 128 (sum + power))
        (signedPower members message signatures) := by
  induction signatures generalizing sum with
  | nil => rfl
  | cons s signatures ih =>
    obtain ⟨author, signature⟩ := s
    obtain ⟨hfirst, hrest⟩ := List.pairwise_cons.1 hsorted
    rw [WideVerifier.addSigned, signedPower]
    cases hmember : members.get? author with
    | none => rfl
    | some v =>
      cases hsignature : verifySignature v.publicKey message signature with
      | error reason =>
        simp only [hsignature]
        rfl
      | ok =>
        have hother := not_mem_signers hfirst
        rw [List.map_cons, powerWhere_mem_cons hmember hother, ← Nat.add_assoc] at h
        simp only [hsignature]
        rw [Wide.addPower_ofNat (Nat.lt_of_add_right_lt h), ok_bind, ih hrest h]
        cases signedPower members message signatures with
        | error e => rfl
        | ok power =>
          have hsum := Nat.add_assoc sum v.votingPower.toNat power
          exact congrArg (fun n => Except.ok (BitVec.ofNat 128 n)) hsum

theorem powerWhere_members_le (w : EpochVerifier) (p : Address → Bool) :
    powerWhere w.validators.members.entries p ≤ w.validators.totalPower := powerWhere_le _ _

/-- The sum never exceeds the total, wherever it stops. -/
theorem powerSigned_le {power : ℕ} (hinitial : signatures <+: l.signatures.entries)
    (h : w.powerSigned l signatures = .ok power) : power ≤ w.validators.totalPower := by
  rw [signedPower_eq (l.signatures.sorted.sublist hinitial.sublist) h]
  exact w.powerWhere_members_le _

theorem addSigned_signatures (h : w.validators.validators.length < 2 ^ 63) (l : SignedLedgerInfo) :
    WideVerifier.addSigned w.validators.members l.ledgerInfo.hash.toList 0 l.signatures.entries =
      Word.answer (BitVec.ofNat 128) (w.powerSigned l l.signatures.entries) := by
  have htotal := ValidatorSet.totalPower_lt h
  have hall : 0 + powerWhere w.validators.members.entries
      (fun a => decide (a ∈ l.signatures.entries.map Prod.fst)) < 2 ^ 128 := by
    rw [Nat.zero_add]
    exact (w.powerWhere_members_le _).trans_lt (by omega)
  have hsum := addSigned_wide l.ledgerInfo.hash.toList l.signatures.sorted hall
  simp only [Nat.zero_add] at hsum
  exact hsum

theorem verify_wide (h : w.validators.validators.length < 2 ^ 63) (l : SignedLedgerInfo) :
    w.wide.verify l = Word.answer id (w.verify l) := by
  by_cases hepoch : l.ledgerInfo.epoch = w.epoch
  · rcases Nat.lt_or_ge w.validators.members.size l.signatures.size with hsize | hsize
    · rw [verify_of_tooManySigners hepoch hsize]
      exact (if_neg (not_not_intro hepoch)).trans (if_pos hsize)
    · have hverify : w.wide.verify l = WideVerifier.addSigned w.validators.members
          l.ledgerInfo.hash.toList 0 l.signatures.entries >>= fun power =>
            if power < w.wide.quorumPower then
              .error (.refused (.tooLittlePower power.toNat w.wide.quorumPower.toNat))
            else .ok () :=
        (if_neg (not_not_intro hepoch)).trans (if_neg (Nat.not_lt.2 hsize))
      rw [hverify, addSigned_signatures h, verify_of_size hepoch hsize]
      cases hpower : w.powerSigned l l.signatures.entries with
      | error e => rfl
      | ok power =>
        have hle := powerSigned_le List.prefix_rfl hpower
        have hquorum := ValidatorSet.quorumPower_le w.hasPower
        have htotal := ValidatorSet.totalPower_lt h
        have hpowerWord : (BitVec.ofNat 128 power).toNat = power := Wide.toNat_ofNat (by omega)
        have hquorumWord : w.wide.quorumPower.toNat = w.validators.quorumPower :=
          Wide.toNat_ofNat (by omega)
        have hless : BitVec.ofNat 128 power < w.wide.quorumPower ↔
            power < w.validators.quorumPower := by
          rw [BitVec.lt_def, hpowerWord, hquorumWord]
        rw [Word.answer, ok_bind, ok_bind, hpowerWord, hquorumWord]
        by_cases hfew : power < w.validators.quorumPower
        · rw [if_pos (hless.2 hfew), if_pos hfew]
          rfl
        · rw [if_neg (mt hless.1 hfew), if_neg hfew]
          rfl
  · rw [verify_of_wrongEpoch hepoch]
    exact if_pos hepoch

/-- Everything the verifier counts and compares stays within the total. -/
structure CountsTo (w : EpochVerifier) (total : ℕ) : Prop where
  totalPower_eq : w.validators.totalPower = total
  isLeast_quorumPower : IsLeast {q | 2 * total < 3 * q} w.validators.quorumPower
  one_le_quorumPower : 1 ≤ w.validators.quorumPower
  quorumPower_le : w.validators.quorumPower ≤ total
  powerSigned_le : ∀ l signatures power, signatures <+: l.signatures.entries →
    w.powerSigned l signatures = .ok power → power ≤ total
  verify_wide : ∀ l, w.wide.verify l = Word.answer id (w.verify l)

theorem countsTo (w : EpochVerifier) (h : w.validators.validators.length < 2 ^ 63) :
    w.CountsTo w.validators.totalPower where
  totalPower_eq := rfl
  isLeast_quorumPower := w.validators.isLeast_quorumPower
  one_le_quorumPower := Nat.succ_pos _
  quorumPower_le := ValidatorSet.quorumPower_le w.hasPower
  powerSigned_le := fun _ _ _ => powerSigned_le
  verify_wide := verify_wide h

theorem ofSet_eq_error_iff {s : ValidatorSet} {epoch : UInt64} {e : TrustError} :
    ofSet s epoch = .error e ↔ s.totalPower = 0 ∧ e = .noPower epoch := by
  rw [ofSet]
  by_cases h : 0 < s.totalPower
  · rw [dif_pos h]
    refine ⟨fun he => ?_, fun hzero => absurd hzero.1 h.ne'⟩
    cases he
  · rw [dif_neg h, Except.error.injEq]
    exact ⟨fun he => ⟨Nat.eq_zero_of_not_pos h, he.symm⟩, fun he => he.2.symm⟩

/-- What the validators of a set hold together, and what follows for a verifier with that set. -/
theorem countsTo_of_ofSet {s : ValidatorSet} (h : s.validators.length < 2 ^ 63) (epoch : UInt64) :
    (ofSet s epoch = .error (.noPower epoch) ↔ ∑ a ∈ s.addresses, s.lastPower a = 0) ∧
    (∑ a ∈ s.addresses, s.lastPower a ≠ 0 →
      ∃ w, ofSet s epoch = .ok w ∧ w.epoch = epoch ∧ w.validators = s ∧
        w.CountsTo (∑ a ∈ s.addresses, s.lastPower a)) ∧
    WideVerifier.ofSet s epoch = Word.answer wide (ofSet s epoch) := by
  rw [← ValidatorSet.totalPower_eq_sum]
  refine ⟨ofSet_eq_error_iff.trans (and_iff_left rfl), fun hpower => ?_, ofSet_wide h epoch⟩
  let w : EpochVerifier := ⟨epoch, s, Nat.pos_of_ne_zero hpower⟩
  exact ⟨w, ofSet_eq_ok_iff.2 ⟨rfl, rfl⟩, rfl, rfl, w.countsTo h⟩

/-- Of an address that is listed twice, only the second entry counts. -/
def greatest : ValidatorSet :=
  ⟨.bls12381, [⟨.zero, .generator, 1⟩, ⟨⟨.replicate 32 1⟩, .generator, .ofNat (2 ^ 64 - 1)⟩,
    ⟨.zero, .generator, .ofNat (2 ^ 64 - 1)⟩]⟩

theorem countsTo_of_ofSet_greatest :
    greatest.validators.length < 2 ^ 63 ∧ greatest.totalPower = 2 ^ 65 - 2 ∧
      ∃ w, ofSet greatest 3 = .ok w ∧ w.CountsTo (2 ^ 65 - 2) := by
  have hlength : greatest.validators.length < 2 ^ 63 := by decide
  have htotal : greatest.totalPower = 2 ^ 65 - 2 := by decide +kernel
  obtain ⟨-, haccepted, -⟩ := countsTo_of_ofSet hlength 3
  rw [← ValidatorSet.totalPower_eq_sum, htotal] at haccepted
  obtain ⟨w, hw, -, -, hcounts⟩ := haccepted (by decide)
  exact ⟨hlength, htotal, w, hw, hcounts⟩

end EpochVerifier
end VerifiedLedger
