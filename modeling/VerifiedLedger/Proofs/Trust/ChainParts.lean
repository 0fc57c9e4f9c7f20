import VerifiedLedger.Proofs.Trust.ChainConditions
/-! # Chains in parts

A chain that was cut off is taken up again from the verifier it ended in. The first ledger info of a
part is not asked to be of a later epoch, which every other one is. Nothing is lost at the joint:
as long as there is a later epoch, its verifier accepts ledger infos of no other one.
-/
namespace VerifiedLedger
variable {a b : SignedLedgerInfo} {ls : List SignedLedgerInfo}

namespace Handover
variable {reached change : Handover}

/-- Whatever the verifier accepts next is of a later epoch than the ledger info it comes from. -/
theorem At.not_le_of_accepts (h : reached.At a)
    (hlast : a.ledgerInfo.epoch.toNat < UInt64.size - 1)
    (haccepts : reached.verifier.verify b = .ok ()) :
    ¬b.ledgerInfo.epoch ≤ reached.ledgerInfo.epoch := by
  have hepoch := congrArg UInt64.toNat
    ((EpochVerifier.epoch_eq_of_verify haccepts).trans h.handsOver.epoch_eq)
  rw [toNat_nextEpoch] at hepoch
  rw [h.ledgerInfo_eq, UInt64.le_iff_toNat_le]
  omega

/-- Going on along a chain is beginning a new one with the verifier that was reached. -/
theorem At.follow_eq_ok_iff (h : reached.At a)
    (hlast : a.ledgerInfo.epoch.toNat < UInt64.size - 1) (hne : ls ≠ []) (more : Bool) :
    reached.follow ls = .ok change ↔
      EpochChain.verify ⟨ls, more⟩ (.validators reached.verifier) = .ok change := by
  cases ls with
  | nil => exact absurd rfl hne
  | cons b ls =>
    simp only [follow, ite_error_eq_ok_iff, bind_eq_ok_iff, EpochChain.verify_cons_eq_ok_iff]
    refine and_iff_right_of_imp ?_
    rintro ⟨next, hstep, -⟩
    exact h.not_le_of_accepts hlast (step_eq_ok_iff_at.1 hstep).1

end Handover

namespace EpochChain
variable {first second : List SignedLedgerInfo}

/-- A chain is accepted as a whole exactly if it is accepted in two parts, and leads to the same
place. -/
theorem verify_append_eq_ok_iff (anchor : TrustAnchor) (hfirst : first ≠ []) (hsecond : second ≠ [])
    (hlast : (first.getLast hfirst).ledgerInfo.epoch.toNat < UInt64.size - 1)
    (more more₁ more₂ : Bool) (change : Handover) :
    verify ⟨first ++ second, more⟩ anchor = .ok change ↔
      ∃ reached, verify ⟨first, more₁⟩ anchor = .ok reached ∧
        verify ⟨second, more₂⟩ (.validators reached.verifier) = .ok change := by
  rw [verify_append anchor hfirst, bind_eq_ok_iff]
  refine exists_congr fun reached => and_congr_right fun hreached => ?_
  obtain ⟨last, hgetLast, hat⟩ := at_of_verify hreached
  rw [List.getLast?_eq_some_getLast hfirst, Option.some.injEq] at hgetLast
  exact hat.follow_eq_ok_iff (hgetLast ▸ hlast) hsecond more₂

/-! ## After the left side of the fork, an epoch later -/

namespace Fork

/-- The ledger info that ends the next epoch. -/
def later : SignedLedgerInfo :=
  signed ⟨1, 0, .zero, .zero, 0, 0, some (validators 2), .zero⟩ <| .ofParts
    0xa6c50b9eb353869f3ae5eae71f38401c82a70279a1ea0172b4b6364b691bff0f85624bd54524f1a8b1acdb4c13f16af4
    0x00eeac2636b80a20f540dbbfa382286f22ef29ec4911fd6823e06d1793eeea47d781ceebfa93454283c696e36d8cb1671

theorem verify_later : (successor 1 verifier.hasPower).verify later = .ok () :=
  verify_signed rfl rfl (by decide +kernel)

theorem verify_append_eq_ok_iff_later :
    [left] ≠ [] ∧ [later] ≠ [] ∧ left.ledgerInfo.epoch.toNat < UInt64.size - 1 ∧
      ∃ change : Handover, change.ledgerInfo = later.ledgerInfo ∧ change.verifier.epoch = 2 ∧
        verify ⟨[left] ++ [later], false⟩ (.validators verifier) = .ok change ∧
        ∃ reached, verify ⟨[left], true⟩ (.validators verifier) = .ok reached ∧
          verify ⟨[later], false⟩ (.validators reached.verifier) = .ok change := by
  have hpower : 0 < (validators 2).totalPower := by decide +kernel
  have hfirst : verify ⟨[left], true⟩ (.validators verifier) =
      .ok ⟨left.ledgerInfo, successor 1 verifier.hasPower⟩ := verify_chain _ verify_left
  have hsecond : verify ⟨[later], false⟩ (.validators (successor 1 verifier.hasPower)) =
      .ok ⟨later.ledgerInfo, ⟨2, validators 2, hpower⟩⟩ :=
    verify_cons_eq_ok_iff.2 ⟨_, Handover.step_eq_ok_iff.2 ⟨⟨verify_later, rfl, rfl⟩, rfl⟩, rfl⟩
  have hboth : ∃ reached, verify ⟨[left], true⟩ (.validators verifier) = .ok reached ∧
      verify ⟨[later], false⟩ (.validators reached.verifier) =
        .ok ⟨later.ledgerInfo, ⟨2, validators 2, hpower⟩⟩ := ⟨_, hfirst, hsecond⟩
  have hwhole := (verify_append_eq_ok_iff (.validators verifier) (List.cons_ne_nil left [])
    (List.cons_ne_nil later []) (by decide) false true false _).2 hboth
  exact ⟨List.cons_ne_nil _ _, List.cons_ne_nil _ _, by decide, _, rfl, rfl, hwhole, hboth⟩

end Fork
end EpochChain
end VerifiedLedger
