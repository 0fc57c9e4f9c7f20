import VerifiedLedger.Proofs.Trust.EpochChain
/-! # When a chain is accepted

The code asks that epochs increase, that each verifier is of the epoch of what it accepts, and adds
one to an epoch if there is a later one. Together that means that each ledger info is of the epoch
just after the one before it.
-/
namespace VerifiedLedger
variable {anchor : TrustAnchor} {a b l : SignedLedgerInfo} {ls ms : List SignedLedgerInfo}
  {w : EpochVerifier}

namespace SignedLedgerInfo

/-- The verifier of the validators that the ledger info announces, from the next epoch on. -/
def HandsOverTo (l : SignedLedgerInfo) (w : EpochVerifier) : Prop :=
  ∃ next, l.ledgerInfo.nextValidators = some next ∧
    EpochVerifier.ofSet next (nextEpoch l.ledgerInfo.epoch) = .ok w

/-- The validators that the ledger info announces have voting power. -/
def AnnouncesPower (l : SignedLedgerInfo) : Prop :=
  ∃ next, l.ledgerInfo.nextValidators = some next ∧ 0 < next.totalPower

/-- The second ledger info is of the next epoch, and the validators that the first one announces
accept it. -/
def Vouches (a b : SignedLedgerInfo) : Prop :=
  b.ledgerInfo.epoch.toNat = a.ledgerInfo.epoch.toNat + 1 ∧
    ∃ w, a.HandsOverTo w ∧ w.verify b = .ok ()

theorem HandsOverTo.epoch_eq (h : l.HandsOverTo w) : w.epoch = nextEpoch l.ledgerInfo.epoch := by
  obtain ⟨next, -, hset⟩ := h
  exact (EpochVerifier.ofSet_eq_ok_iff.1 hset).1

theorem HandsOverTo.eq {w' : EpochVerifier} (h : l.HandsOverTo w) (h' : l.HandsOverTo w') :
    w = w' := by
  obtain ⟨next, hnext, hset⟩ := h
  obtain ⟨next', hnext', hset'⟩ := h'
  obtain rfl := Option.some.inj (hnext.symm.trans hnext')
  exact Except.ok.inj (hset.symm.trans hset')

theorem announcesPower_iff : l.AnnouncesPower ↔ ∃ w, l.HandsOverTo w := by
  constructor
  · rintro ⟨next, hnext, hpower⟩
    exact ⟨⟨_, next, hpower⟩, next, hnext, EpochVerifier.ofSet_eq_ok_iff.2 ⟨rfl, rfl⟩⟩
  · rintro ⟨w, next, hnext, hset⟩
    obtain ⟨-, rfl⟩ := EpochVerifier.ofSet_eq_ok_iff.1 hset
    exact ⟨w.validators, hnext, w.hasPower⟩

/-- A later epoch that the verifier accepts is the next one, and there is a next one then. -/
theorem HandsOverTo.vouches_iff (h : a.HandsOverTo w) :
    a.Vouches b ↔ ¬b.ledgerInfo.epoch ≤ a.ledgerInfo.epoch ∧ w.verify b = .ok () := by
  have hbound : b.ledgerInfo.epoch.toNat < UInt64.size := b.ledgerInfo.epoch.toNat_lt
  rw [UInt64.le_iff_toNat_le, Nat.not_le]
  constructor
  · rintro ⟨hepoch, w', hw', haccepts⟩
    rw [h.eq hw']
    exact ⟨by omega, haccepts⟩
  · rintro ⟨hlater, haccepts⟩
    have hepoch := congrArg UInt64.toNat (EpochVerifier.epoch_eq_of_verify haccepts)
    rw [h.epoch_eq, toNat_nextEpoch] at hepoch
    exact ⟨by omega, w, h, haccepts⟩

end SignedLedgerInfo

namespace Handover
open SignedLedgerInfo
variable {reached change : Handover} {e : TrustError}

/-- How far the chain got with that ledger info. -/
structure At (reached : Handover) (l : SignedLedgerInfo) : Prop where
  ledgerInfo_eq : reached.ledgerInfo = l.ledgerInfo
  handsOver : l.HandsOverTo reached.verifier

theorem step_eq_ok_iff_at :
    step anchor l = .ok change ↔ anchor.verify l = .ok () ∧ change.At l := by
  rw [step_eq_ok_iff_ofSet]
  constructor
  · rintro ⟨haccepts, hover, hinfo⟩
    exact ⟨haccepts, hinfo, hover⟩
  · rintro ⟨haccepts, hinfo, hover⟩
    exact ⟨haccepts, hover, hinfo⟩

theorem follow_cons_eq_ok_iff (h : reached.At a) :
    reached.follow (b :: ls) = .ok change ↔
      a.Vouches b ∧ ∃ next, At next b ∧ next.follow ls = .ok change := by
  simp only [follow, ite_error_eq_ok_iff, bind_eq_ok_iff, step_eq_ok_iff_at, TrustAnchor.verify,
    h.handsOver.vouches_iff, h.ledgerInfo_eq]
  constructor
  · rintro ⟨hlater, next, ⟨haccepts, hnext⟩, hrest⟩
    exact ⟨⟨hlater, haccepts⟩, next, hnext, hrest⟩
  · rintro ⟨⟨hlater, haccepts⟩, next, hnext, hrest⟩
    exact ⟨hlater, next, ⟨haccepts, hnext⟩, hrest⟩

theorem exists_at_iff : (∃ reached : Handover, reached.At l) ↔ l.AnnouncesPower := by
  rw [announcesPower_iff]
  constructor
  · rintro ⟨reached, -, h⟩
    exact ⟨reached.verifier, h⟩
  · rintro ⟨w, h⟩
    exact ⟨⟨l.ledgerInfo, w⟩, rfl, h⟩

theorem exists_follow_eq_ok_iff (h : reached.At a) :
    (∃ change, reached.follow ls = .ok change) ↔
      (∀ l ∈ ls, l.AnnouncesPower) ∧ (a :: ls).IsChain Vouches := by
  induction ls generalizing reached a with
  | nil => exact iff_of_true ⟨reached, rfl⟩ ⟨nofun, .singleton a⟩
  | cons b ls ih =>
    simp only [follow_cons_eq_ok_iff h, List.isChain_cons_cons, List.forall_mem_cons]
    constructor
    · rintro ⟨change, hvouches, next, hnext, hrest⟩
      obtain ⟨hpower, hchain⟩ := (ih hnext).1 ⟨change, hrest⟩
      exact ⟨⟨exists_at_iff.1 ⟨next, hnext⟩, hpower⟩, hvouches, hchain⟩
    · rintro ⟨⟨hb, hpower⟩, hvouches, hchain⟩
      obtain ⟨next, hnext⟩ := exists_at_iff.2 hb
      obtain ⟨change, hrest⟩ := (ih hnext).2 ⟨hpower, hchain⟩
      exact ⟨change, hvouches, next, hnext, hrest⟩

theorem at_of_follow (h : reached.At a) (hfollow : reached.follow ls = .ok change) :
    ∃ last, (a :: ls).getLast? = some last ∧ change.At last := by
  induction ls generalizing reached a with
  | nil =>
    cases hfollow
    exact ⟨a, rfl, h⟩
  | cons b ls ih =>
    obtain ⟨-, next, hnext, hrest⟩ := (follow_cons_eq_ok_iff h).1 hfollow
    exact ih hnext hrest

theorem follow_append (reached : Handover) (ls ms : List SignedLedgerInfo) :
    reached.follow (ls ++ ms) = reached.follow ls >>= fun next => next.follow ms := by
  induction ls generalizing reached with
  | nil => rfl
  | cons l ls ih =>
    rw [List.cons_append, follow, follow]
    split
    · rfl
    · simp only [ih, bind_assoc]

/-- Why the next ledger info is refused if it is not of the next epoch. -/
theorem follow_of_epoch (h : reached.At a) (b : SignedLedgerInfo) (ls : List SignedLedgerInfo) :
    (b.ledgerInfo.epoch ≤ a.ledgerInfo.epoch →
      reached.follow (b :: ls) =
        .error (.epochNotLater a.ledgerInfo.epoch b.ledgerInfo.epoch)) ∧
    (a.ledgerInfo.epoch.toNat + 1 < b.ledgerInfo.epoch.toNat →
      reached.follow (b :: ls) =
        .error (.wrongEpoch (a.ledgerInfo.epoch + 1) b.ledgerInfo.epoch)) := by
  rw [follow, h.ledgerInfo_eq]
  refine ⟨fun hle => if_pos hle, fun hskips => ?_⟩
  have hlater : ¬b.ledgerInfo.epoch ≤ a.ledgerInfo.epoch := by
    rw [UInt64.le_iff_toNat_le]
    omega
  have hbound : b.ledgerInfo.epoch.toNat < UInt64.size := b.ledgerInfo.epoch.toNat_lt
  have hepoch : reached.verifier.epoch = a.ledgerInfo.epoch + 1 :=
    h.handsOver.epoch_eq.trans (if_pos (by omega))
  have hne : b.ledgerInfo.epoch ≠ a.ledgerInfo.epoch + 1 := by
    intro heq
    rw [← hepoch, h.handsOver.epoch_eq] at heq
    have hnat := congrArg UInt64.toNat heq
    rw [toNat_nextEpoch] at hnat
    omega
  have hverify : reached.verifier.verify b =
      .error (.wrongEpoch (a.ledgerInfo.epoch + 1) b.ledgerInfo.epoch) := by
    rw [EpochVerifier.verify, hepoch]
    exact if_pos hne
  rw [if_neg hlater, step, TrustAnchor.verify, hverify]
  rfl

end Handover

namespace EpochChain
open SignedLedgerInfo
variable {more : Bool} {change : Handover}

theorem exists_verify_eq_ok_iff :
    (∃ change, verify ⟨ls, more⟩ anchor = .ok change) ↔
      (∃ first, ls.head? = some first ∧ anchor.verify first = .ok ()) ∧
        (∀ l ∈ ls, l.AnnouncesPower) ∧ ls.IsChain Vouches := by
  cases ls with
  | nil =>
    constructor
    · rintro ⟨change, h⟩
      cases h
    · rintro ⟨⟨first, h, -⟩, -⟩
      cases h
  | cons a ls =>
    simp only [verify_cons_eq_ok_iff, Handover.step_eq_ok_iff_at, List.head?_cons,
      Option.some.injEq, exists_eq_left', List.forall_mem_cons]
    constructor
    · rintro ⟨change, reached, ⟨haccepts, hreached⟩, hfollow⟩
      obtain ⟨hpower, hchain⟩ := (Handover.exists_follow_eq_ok_iff hreached).1 ⟨change, hfollow⟩
      exact ⟨haccepts, ⟨Handover.exists_at_iff.1 ⟨reached, hreached⟩, hpower⟩, hchain⟩
    · rintro ⟨haccepts, ⟨ha, hpower⟩, hchain⟩
      obtain ⟨reached, hreached⟩ := Handover.exists_at_iff.2 ha
      obtain ⟨change, hfollow⟩ :=
        (Handover.exists_follow_eq_ok_iff hreached).2 ⟨hpower, hchain⟩
      exact ⟨change, reached, ⟨haccepts, hreached⟩, hfollow⟩

theorem at_of_verify (h : verify ⟨ls, more⟩ anchor = .ok change) :
    ∃ last, ls.getLast? = some last ∧ change.At last := by
  cases ls with
  | nil => cases h
  | cons a ls =>
    obtain ⟨reached, hstep, hfollow⟩ := verify_cons_eq_ok_iff.1 h
    exact Handover.at_of_follow (Handover.step_eq_ok_iff_at.1 hstep).2 hfollow

/-- What comes later is looked at only after what comes first has been accepted. -/
theorem verify_append (anchor : TrustAnchor) (hne : ls ≠ []) (ms : List SignedLedgerInfo) :
    verify ⟨ls ++ ms, more⟩ anchor =
      verify ⟨ls, more⟩ anchor >>= fun reached => reached.follow ms := by
  cases ls with
  | nil => exact absurd rfl hne
  | cons a ls =>
    rw [List.cons_append]
    simp only [verify, Handover.follow_append, bind_assoc]

/-- When a chain is accepted, where it then leads, and what is said of an epoch that is not the next
one, unless something was wrong before. -/
theorem verify_conditions (anchor : TrustAnchor) (ls : List SignedLedgerInfo) (more : Bool) :
    ((∃ change, verify ⟨ls, more⟩ anchor = .ok change) ↔
      (∃ first, ls.head? = some first ∧ anchor.verify first = .ok ()) ∧
        (∀ l ∈ ls, l.AnnouncesPower) ∧ ls.IsChain Vouches) ∧
    (∀ change, verify ⟨ls, more⟩ anchor = .ok change →
      ∃ last, ls.getLast? = some last ∧ change.ledgerInfo = last.ledgerInfo ∧
        last.HandsOverTo change.verifier ∧
        change.verifier.epoch.toNat =
          min (last.ledgerInfo.epoch.toNat + 1) (UInt64.size - 1)) ∧
    (∀ before a b after reached, ls = before ++ a :: b :: after →
      verify ⟨before ++ [a], more⟩ anchor = .ok reached →
      (b.ledgerInfo.epoch ≤ a.ledgerInfo.epoch →
        verify ⟨ls, more⟩ anchor =
          .error (.epochNotLater a.ledgerInfo.epoch b.ledgerInfo.epoch)) ∧
      (a.ledgerInfo.epoch.toNat + 1 < b.ledgerInfo.epoch.toNat →
        verify ⟨ls, more⟩ anchor =
          .error (.wrongEpoch (a.ledgerInfo.epoch + 1) b.ledgerInfo.epoch))) ∧
    ∀ before after e, ls = before ++ after → before ≠ [] →
      verify ⟨before, more⟩ anchor = .error e → verify ⟨ls, more⟩ anchor = .error e := by
  refine ⟨exists_verify_eq_ok_iff, fun change h => ?_, ?_, ?_⟩
  · obtain ⟨last, hlast, hinfo, hover⟩ := at_of_verify h
    refine ⟨last, hlast, hinfo, hover, ?_⟩
    rw [hover.epoch_eq, toNat_nextEpoch]
  · rintro before a b after reached rfl hreached
    obtain ⟨last, hlast, hat⟩ := at_of_verify hreached
    rw [List.getLast?_concat, Option.some.injEq] at hlast
    subst hlast
    have hsplit : before ++ a :: b :: after = (before ++ [a]) ++ b :: after :=
      List.append_cons before a (b :: after)
    have hne : before ++ [a] ≠ [] := List.append_ne_nil_of_right_ne_nil before nofun
    rw [hsplit, verify_append anchor hne, hreached]
    exact Handover.follow_of_epoch hat b after
  · rintro before after e rfl hne hfailed
    rw [verify_append anchor hne, hfailed]
    rfl

/-! ## After the left side of the fork -/

namespace Fork

/-- A ledger info of the epoch after the next one. -/
def skipping : SignedLedgerInfo := ⟨⟨2, 0, .zero, .zero, 0, 0, none, .zero⟩, .empty⟩

theorem verify_conditions_left :
    (∃ change, verify ⟨[left], false⟩ (.validators verifier) = .ok change ∧
      change.ledgerInfo = left.ledgerInfo ∧ change.verifier.epoch.toNat = 1) ∧
    verify ⟨[left, left], false⟩ (.validators verifier) = .error (.epochNotLater 0 0) ∧
    verify ⟨[left, skipping], false⟩ (.validators verifier) = .error (.wrongEpoch 1 2) ∧
    verify ⟨[left, left, skipping], false⟩ (.validators verifier) =
      .error (.epochNotLater 0 0) := by
  obtain ⟨hiff, hresult, -⟩ := verify_conditions (.validators verifier) [left] false
  have hpower : ∀ l ∈ [left], l.AnnouncesPower :=
    List.forall_mem_singleton.2 ⟨_, rfl, verifier.hasPower⟩
  obtain ⟨change, hchange⟩ := hiff.2 ⟨⟨left, rfl, verify_left⟩, hpower, .singleton left⟩
  obtain ⟨last, hlast, hinfo, -, hepoch⟩ := hresult change hchange
  obtain rfl := Option.some.inj hlast
  obtain ⟨-, -, hlater, -⟩ := verify_conditions (.validators verifier) [left, left] false
  have hagain := (hlater [] left left [] change rfl hchange).1 (UInt64.le_refl _)
  obtain ⟨-, -, hskips, -⟩ := verify_conditions (.validators verifier) [left, skipping] false
  have hgap := (hskips [] left skipping [] change rfl hchange).2 (by decide)
  obtain ⟨-, -, -, hprefix⟩ := verify_conditions (.validators verifier) [left, left, skipping] false
  exact ⟨⟨change, hchange, hinfo, hepoch⟩, hagain, hgap,
    hprefix [left, left] [skipping] _ rfl (List.cons_ne_nil _ _) hagain⟩

end Fork
end EpochChain
end VerifiedLedger
