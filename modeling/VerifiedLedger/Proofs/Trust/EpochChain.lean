import VerifiedLedger.Trust.EpochChain
import VerifiedLedger.Proofs.Bls.Evaluation
import VerifiedLedger.Proofs.Trust.Quorum
/-! # Chains that part

Two chains from one verifier stay together as long as they announce the same validators. Where they
part, one verifier has accepted two ledger infos of its epoch, so that more than a third of its
voting power has signed both.
-/
namespace VerifiedLedger
variable {v w u u' : EpochVerifier} {ls ms : List SignedLedgerInfo} {a b l : SignedLedgerInfo}

theorem EpochVerifier.ofSet_eq_ok_iff {set : ValidatorSet} {epoch : UInt64} :
    ofSet set epoch = .ok w ↔ w.epoch = epoch ∧ w.validators = set := by
  rw [ofSet]
  by_cases h : 0 < set.totalPower
  · rw [dif_pos h, Except.ok.injEq]
    constructor
    · rintro rfl
      exact ⟨rfl, rfl⟩
    · rintro ⟨rfl, rfl⟩
      rfl
  · rw [dif_neg h]
    constructor
    · intro hw
      cases hw
    · rintro ⟨-, rfl⟩
      exact absurd w.hasPower h

theorem toNat_nextEpoch (epoch : UInt64) :
    (nextEpoch epoch).toNat = min (epoch.toNat + 1) (UInt64.size - 1) := by
  have hepoch : epoch.toNat < UInt64.size := epoch.toNat_lt
  rw [nextEpoch]
  split
  · next h =>
    rw [UInt64.toNat_add, UInt64.toNat_one, Nat.mod_eq_of_lt h,
      Nat.min_eq_left (Nat.le_sub_one_of_lt h)]
  · next h =>
    omega

namespace Handover

/-- The second verifier takes over from the first one by that ledger info. -/
structure Succeeds (v : EpochVerifier) (l : SignedLedgerInfo) (w : EpochVerifier) : Prop where
  accepts : v.verify l = .ok ()
  announces : l.ledgerInfo.nextValidators = some w.validators
  epoch_eq : w.epoch = nextEpoch l.ledgerInfo.epoch

/-- Trust goes from the first verifier over to the last one by these ledger infos. -/
inductive Leads : EpochVerifier → List SignedLedgerInfo → EpochVerifier → Prop
  | done (v : EpochVerifier) : Leads v [] v
  | next {v w u : EpochVerifier} {l : SignedLedgerInfo} {ls : List SignedLedgerInfo} :
      Succeeds v l w → Leads w ls u → Leads v (l :: ls) u

/-- A step asks the anchor, and takes the verifier of the set that is announced. -/
theorem step_eq_ok_iff_ofSet {anchor : TrustAnchor} {change : Handover} :
    step anchor l = .ok change ↔
      anchor.verify l = .ok () ∧
        (∃ set, l.ledgerInfo.nextValidators = some set ∧
          EpochVerifier.ofSet set (nextEpoch l.ledgerInfo.epoch) = .ok change.verifier) ∧
        change.ledgerInfo = l.ledgerInfo := by
  simp only [step, bind_eq_ok_iff]
  constructor
  · rintro ⟨_, haccepts, hnext⟩
    cases hset : l.ledgerInfo.nextValidators with
    | none =>
      rw [hset] at hnext
      exact absurd hnext throw_ne_ok
    | some set =>
      simp only [hset, bind_eq_ok_iff, pure_eq_ok_iff] at hnext
      obtain ⟨w, hw, rfl⟩ := hnext
      exact ⟨haccepts, ⟨set, rfl, hw⟩, rfl⟩
  · rintro ⟨haccepts, ⟨set, hset, hw⟩, hinfo⟩
    refine ⟨(), haccepts, ?_⟩
    simp only [hset, bind_eq_ok_iff, pure_eq_ok_iff]
    refine ⟨change.verifier, hw, ?_⟩
    rw [← hinfo]

theorem step_eq_ok_iff {change : Handover} :
    step (.validators v) l = .ok change ↔
      Succeeds v l change.verifier ∧ change.ledgerInfo = l.ledgerInfo := by
  rw [step_eq_ok_iff_ofSet]
  constructor
  · rintro ⟨haccepts, ⟨set, hset, hw⟩, hinfo⟩
    obtain ⟨hepoch, rfl⟩ := EpochVerifier.ofSet_eq_ok_iff.1 hw
    exact ⟨⟨haccepts, hset, hepoch⟩, hinfo⟩
  · rintro ⟨⟨haccepts, hset, hepoch⟩, hinfo⟩
    exact ⟨haccepts, ⟨_, hset, EpochVerifier.ofSet_eq_ok_iff.2 ⟨hepoch, rfl⟩⟩, hinfo⟩

theorem leads_of_follow {reached change : Handover} (h : reached.follow ls = .ok change) :
    Leads reached.verifier ls change.verifier := by
  induction ls generalizing reached with
  | nil =>
    cases h
    exact .done _
  | cons l ls ih =>
    simp only [follow, ite_error_eq_ok_iff, bind_eq_ok_iff] at h
    obtain ⟨-, next, hstep, hrest⟩ := h
    exact .next (step_eq_ok_iff.1 hstep).1 (ih hrest)

theorem Succeeds.epoch_eq_of_accepts (h : Succeeds v l w) : w.epoch = nextEpoch v.epoch := by
  rw [h.epoch_eq, EpochVerifier.epoch_eq_of_verify h.accepts]

/-- Two verifiers that take over from one by the same announcement are the same. -/
theorem Succeeds.eq_of_announces {w' : EpochVerifier} (ha : Succeeds v a w) (hb : Succeeds v b w')
    (h : a.ledgerInfo.nextValidators = b.ledgerInfo.nextValidators) : w = w' := by
  have hvalidators : w.validators = w'.validators := by
    rw [ha.announces, hb.announces] at h
    exact Option.some.inj h
  have hepoch : w.epoch = w'.epoch := by
    rw [ha.epoch_eq_of_accepts, hb.epoch_eq_of_accepts]
  cases w
  cases w'
  cases hvalidators
  cases hepoch
  rfl

/-- Below the last epoch there is, every ledger info leads on by one epoch. -/
theorem Leads.epoch_add_length (h : Leads v ls u) (hlast : u.epoch.toNat < UInt64.size - 1) :
    v.epoch.toNat + ls.length = u.epoch.toNat := by
  induction h with
  | done v => rfl
  | next hs _ ih =>
    have hrest := ih hlast
    have hepoch := congrArg UInt64.toNat hs.epoch_eq_of_accepts
    -- The chain ends below the last epoch, so that no epoch on the way is the last one.
    rw [toNat_nextEpoch] at hepoch
    rw [List.length_cons]
    omega

/-- Both chains announce one set at that position, and the verifier is made of it. -/
structure Announced (ls ms : List SignedLedgerInfo) (i : ℕ) (l m : SignedLedgerInfo)
    (w : EpochVerifier) : Prop where
  left : ls[i]? = some l
  right : ms[i]? = some m
  left_announces : l.ledgerInfo.nextValidators = some w.validators
  right_announces : m.ledgerInfo.nextValidators = some w.validators
  ofSet_eq : EpochVerifier.ofSet w.validators (nextEpoch l.ledgerInfo.epoch) = .ok w

/-- At that position the chains announce different validators, and one verifier accepts both. -/
structure Parts (v : EpochVerifier) (ls ms : List SignedLedgerInfo) (i : ℕ)
    (a b : SignedLedgerInfo) (w : EpochVerifier) : Prop where
  left : ls[i]? = some a
  right : ms[i]? = some b
  epoch_eq : a.ledgerInfo.epoch = b.ledgerInfo.epoch
  next_ne : a.ledgerInfo.nextValidators ≠ b.ledgerInfo.nextValidators
  accepts_left : w.verify a = .ok ()
  accepts_right : w.verify b = .ok ()
  /-- The verifier is the first one, or it is made of the set that both announced just before. -/
  origin : i = 0 ∧ w = v ∨ ∃ j l m, i = j + 1 ∧ Announced ls ms j l m w

theorem Parts.cons {i : ℕ} {l m : SignedLedgerInfo} {v' : EpochVerifier}
    (h : Parts w ls ms i a b u) (hl : Succeeds v l w) (hm : Succeeds v' m w) :
    Parts v (l :: ls) (m :: ms) (i + 1) a b u := by
  refine ⟨h.left, h.right, h.epoch_eq, h.next_ne, h.accepts_left, h.accepts_right, .inr ?_⟩
  rcases h.origin with ⟨rfl, rfl⟩ | ⟨j, l', m', rfl, hannounced⟩
  · exact ⟨0, l, m, rfl, rfl, rfl, hl.announces, hm.announces,
      EpochVerifier.ofSet_eq_ok_iff.2 ⟨hl.epoch_eq, rfl⟩⟩
  · exact ⟨j + 1, l', m', rfl, hannounced.left, hannounced.right, hannounced.left_announces,
      hannounced.right_announces, hannounced.ofSet_eq⟩

/-- Two chains of one length lead to one verifier, or they part. -/
theorem Leads.eq_or_parts (h : Leads v ls u) (h' : Leads v ms u')
    (hlength : ls.length = ms.length) : u = u' ∨ ∃ i a b w, Parts v ls ms i a b w := by
  induction h generalizing ms with
  | done v =>
    obtain rfl := List.eq_nil_of_length_eq_zero hlength.symm
    cases h'
    exact .inl rfl
  | @next v w u l ls hs hrest ih =>
    cases h' with
    | done => cases hlength
    | @next _ w' _ m ms hs' hrest' =>
      by_cases hsame : l.ledgerInfo.nextValidators = m.ledgerInfo.nextValidators
      · obtain rfl := hs.eq_of_announces hs' hsame
        rcases ih hrest' (Nat.succ.inj hlength) with heq | ⟨i, a, b, w', hparts⟩
        · exact .inl heq
        · exact .inr ⟨i + 1, a, b, w', hparts.cons hs hs'⟩
      · have hepoch : l.ledgerInfo.epoch = m.ledgerInfo.epoch := by
          rw [EpochVerifier.epoch_eq_of_verify hs.accepts,
            EpochVerifier.epoch_eq_of_verify hs'.accepts]
        exact .inr ⟨0, l, m, v, rfl, rfl, hepoch, hsame, hs.accepts, hs'.accepts, .inl ⟨rfl, rfl⟩⟩

end Handover

namespace EpochChain
variable {p q : EpochChain} {change change' : Handover}

theorem verify_cons_eq_ok_iff {more : Bool} {anchor : TrustAnchor} :
    verify ⟨l :: ls, more⟩ anchor = .ok change ↔
      ∃ reached, Handover.step anchor l = .ok reached ∧ reached.follow ls = .ok change :=
  bind_eq_ok_iff

theorem leads_of_verify (h : p.verify (.validators v) = .ok change) :
    Handover.Leads v p.ledgerInfos change.verifier := by
  obtain ⟨ledgerInfos, more⟩ := p
  cases ledgerInfos with
  | nil => cases h
  | cons first rest =>
    obtain ⟨reached, hstep, hfollow⟩ := verify_cons_eq_ok_iff.1 h
    exact .next (Handover.step_eq_ok_iff.1 hstep).1 (Handover.leads_of_follow hfollow)

/-- Two chains that one verifier vouches for lead to the same validators, unless more than a third
of the voting power of one epoch has signed twice. -/
theorem eq_or_signed_twice (hp : p.verify (.validators v) = .ok change)
    (hq : q.verify (.validators v) = .ok change')
    (hepoch : change.verifier.epoch = change'.verifier.epoch)
    (hlast : change.verifier.epoch.toNat < UInt64.size - 1) :
    change.verifier = change'.verifier ∨
      ∃ i a b w, Handover.Parts v p.ledgerInfos q.ledgerInfos i a b w ∧
        w.validators.totalPower < 3 * w.commonPower a b := by
  have hleads := leads_of_verify hp
  have hleads' := leads_of_verify hq
  have hlength := hleads.epoch_add_length hlast
  have hlength' := hleads'.epoch_add_length (hepoch ▸ hlast)
  rw [← hepoch, ← hlength, Nat.add_left_cancel_iff] at hlength'
  rcases hleads.eq_or_parts hleads' hlength'.symm with heq | ⟨i, a, b, w, hparts⟩
  · exact .inl heq
  · exact .inr ⟨i, a, b, w, hparts,
      EpochVerifier.totalPower_lt_of_verify hparts.accepts_left hparts.accepts_right⟩

/-! ## A fork

The only validator of an epoch, whose secret is one, ends it with two different announcements. -/

namespace Fork

def validators (power : UInt64) : ValidatorSet := ⟨.bls12381, [⟨.zero, .generator, power⟩]⟩

def verifier : EpochVerifier := ⟨0, validators 1, by decide +kernel⟩

def signed (l : LedgerInfo) (signature : Signature) : SignedLedgerInfo :=
  ⟨l, OrderedMap.empty.insert .zero signature⟩

def ending (next : ValidatorSet) (signature : Signature) : SignedLedgerInfo :=
  ⟨⟨0, 0, .zero, .zero, 0, 0, some next, .zero⟩, OrderedMap.empty.insert .zero signature⟩

/-- That validator's signature alone is enough. -/
theorem verify_signed {l : LedgerInfo} {signature : Signature}
    (hvalidators : v.validators = validators 1) (hepoch : l.epoch = v.epoch)
    (h : signatureHolds .generator l.hash.toList signature) :
    v.verify (signed l signature) = .ok () := by
  obtain ⟨epoch, validators, hpower⟩ := v
  dsimp only at hvalidators hepoch
  subst hvalidators
  have hquorum : (Fork.validators 1).quorumPower ≤ 1 := by decide +kernel
  refine EpochVerifier.verify_eq_ok_iff.2 ⟨hepoch, Nat.le_refl _, 1, ?_, hquorum⟩
  exact EpochVerifier.signedPower_cons_eq_ok_iff.2
    ⟨⟨.zero, .generator, 1⟩, 0, rfl, verifySignature_of_signatureHolds h, rfl, rfl⟩

theorem verify_ending {next : ValidatorSet} {signature : Signature}
    (h : signatureHolds .generator (ending next signature).ledgerInfo.hash.toList signature) :
    verifier.verify (ending next signature) = .ok () := verify_signed rfl rfl h

def left : SignedLedgerInfo := ending (validators 1) <| .ofParts
  0xa841d7ec2a9eb2edbabe9129f3d2db9a8996368e5b28c2d9e8e6e3df48bb6a77dafeb745af800662292480d272df3bdb
  0x0267c6b9cec1114b74103b3c32c9d655ae3e8d7760b4ec5b8844b3910a9f8010e3a20e29b0a07d3fe0c9b9e35152da74

def right : SignedLedgerInfo := ending (validators 2) <| .ofParts
  0xaef5a679e1cf4d7284d583cf99994cfb5d37e45aa1dca1c20522e6edeea37a9f169c640677f82c2f40063b384c95fbf5
  0x1025b7049b59ae430053f4220a91a2c23bd1f203cdc808300b9faa197d6f337d160867336b7e80d58f798e43d1a4c193

theorem verify_left : verifier.verify left = .ok () := verify_ending (by decide +kernel)

theorem verify_right : verifier.verify right = .ok () := verify_ending (by decide +kernel)

/-- The verifier after that announcement. -/
def successor (power : UInt64) (hpower : 0 < (validators power).totalPower) : EpochVerifier :=
  ⟨1, validators power, hpower⟩

theorem verify_chain {power : UInt64} {signature : Signature}
    (hpower : 0 < (validators power).totalPower)
    (h : verifier.verify (ending (validators power) signature) = .ok ()) :
    verify ⟨[ending (validators power) signature], false⟩ (.validators verifier) =
      .ok ⟨(ending (validators power) signature).ledgerInfo, successor power hpower⟩ :=
  verify_cons_eq_ok_iff.2 ⟨_, Handover.step_eq_ok_iff.2 ⟨⟨h, rfl, rfl⟩, rfl⟩, rfl⟩

theorem eq_or_signed_twice_fork :
    ∃ change change', verify ⟨[left], false⟩ (.validators verifier) = .ok change ∧
      verify ⟨[right], false⟩ (.validators verifier) = .ok change' ∧
      change.verifier.epoch = change'.verifier.epoch ∧
      change.verifier.epoch.toNat < UInt64.size - 1 ∧ change.verifier ≠ change'.verifier ∧
      ∃ i a b w, Handover.Parts verifier [left] [right] i a b w ∧
        w.validators.totalPower < 3 * w.commonPower a b := by
  have hleft := verify_chain (by decide +kernel) verify_left
  have hright := verify_chain (by decide +kernel) verify_right
  have hne : successor 1 (by decide +kernel) ≠ successor 2 (by decide +kernel) := by
    decide +kernel
  exact ⟨_, _, hleft, hright, rfl, by decide +kernel, hne,
    (eq_or_signed_twice hleft hright rfl (by decide +kernel)).resolve_left hne⟩

end Fork
end EpochChain
end VerifiedLedger
