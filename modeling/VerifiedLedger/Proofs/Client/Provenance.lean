import VerifiedLedger.Proofs.Client.Runs
import VerifiedLedger.Proofs.Trust.EpochChain
/-! # Where trust comes from

A client that began with the validators of an epoch trusts later ones because of a chain of ledger
infos, each accepted by the validators before. No operation makes the client forget that chain: an
update adds to it or leaves it, and what fails or only asks leaves it as well.
-/
namespace VerifiedLedger

namespace Handover
variable {v w u : EpochVerifier} {ls ms : List SignedLedgerInfo}

theorem Leads.trans (h : Leads v ls w) (h' : Leads w ms u) : Leads v (ls ++ ms) u := by
  induction h with
  | done v => exact h'
  | next hs _ ih => exact .next hs (ih h')

/-- Below the last epoch there is, the ledger infos of a chain end one epoch after the other. -/
theorem Leads.epoch_getElem (h : Leads v ls u) (hlast : u.epoch.toNat < UInt64.size - 1) {i : ℕ}
    (hi : i < ls.length) : ls[i].ledgerInfo.epoch.toNat = v.epoch.toNat + i := by
  induction h generalizing i with
  | done v => cases hi
  | @next v w u l ls hs hrest ih =>
    have haccepts := congrArg UInt64.toNat (EpochVerifier.epoch_eq_of_verify hs.accepts)
    cases i with
    | zero => exact haccepts
    | succ i =>
      have hnext := ih hlast (Nat.lt_of_succ_lt_succ hi)
      have hlength := hrest.epoch_add_length hlast
      have hepoch := congrArg UInt64.toNat hs.epoch_eq_of_accepts
      -- The verifiers on the way are below the last epoch, so that each is of the next one.
      rw [toNat_nextEpoch] at hepoch
      rw [List.getElem_cons_succ, hnext]
      omega

end Handover

namespace LightClient
variable {c next : LightClient} {u : LedgerUpdate} {l : LedgerInfo} {v : EpochVerifier}

/-- The client trusts the verifier that a chain from the first one leads to. -/
def TrustsBy (v : EpochVerifier) (c : LightClient) : Prop :=
  ∃ ls w, Handover.Leads v ls w ∧ c.anchor = .validators w

theorem trustsBy_of_update (hc : TrustsBy v c) (h : c.update u = .ok (next, l)) :
    TrustsBy v next := by
  obtain ⟨ls, w, hleads, hw⟩ := hc
  obtain ⟨-, hanchor, -⟩ := update_eq_ok_iff.1 h
  rcases anchorFor_eq_ok_iff.1 hanchor with ⟨-, hsame⟩ | ⟨-, chain, change, -, hverify, hchange⟩
  · exact ⟨ls, w, hleads, hsame.trans hw⟩
  · rw [hw] at hverify
    exact ⟨ls ++ chain.ledgerInfos, change.verifier,
      hleads.trans (EpochChain.leads_of_verify hverify), hchange⟩

theorem Step.trustsBy (h : Step c next) (hc : TrustsBy v c) : TrustsBy v next := by
  cases h with
  | stays => exact hc
  | updated h => exact trustsBy_of_update hc h
  | adopted h =>
    obtain ⟨ls, w, hleads, hw⟩ := hc
    exact ⟨ls, w, hleads, (adopt_eq_ok_iff.1 h).2.trans hw⟩

/-- A chain of epochs in a row from the first verifier to the one that accepts the ledger info. -/
structure Vouched (v : EpochVerifier) (ls : List SignedLedgerInfo) (w : EpochVerifier)
    (l : SignedLedgerInfo) : Prop where
  leads : Handover.Leads v ls w
  epoch_getElem (i : ℕ) (hi : i < ls.length) :
    ls[i].ledgerInfo.epoch.toNat = v.epoch.toNat + i
  epoch_eq : l.ledgerInfo.epoch.toNat = v.epoch.toNat + ls.length
  accepts : w.verify l = .ok ()

/-- Whatever a client goes through from the validators of an epoch on, what it accepts comes with a
chain from them, and the end of the chain is what it trusts next. -/
theorem exists_vouched_of_accepted {ops : List Operation} (hc : c.anchor = .validators v)
    (hops : ∀ op ∈ ops, op.keepsClient = true) (h : (c.after ops).update u = .ok (next, l))
    (hlast : l.epoch.toNat < UInt64.size - 1) :
    l = u.ledgerInfo.ledgerInfo ∧
      ∃ ls w, Vouched v ls w u.ledgerInfo ∧ next.anchor = .validators w := by
  have hbefore : TrustsBy v (c.after ops) :=
    after_steps Step.trustsBy hops ⟨[], v, .done v, hc⟩
  obtain ⟨ls, w, hleads, hnext⟩ := trustsBy_of_update hbefore h
  obtain ⟨rfl, -, hverify, -⟩ := update_eq_ok_iff.1 h
  rw [hnext] at hverify
  have hepoch : u.ledgerInfo.ledgerInfo.epoch = w.epoch := EpochVerifier.epoch_eq_of_verify hverify
  rw [hepoch] at hlast
  have hlength : v.epoch.toNat + ls.length = u.ledgerInfo.ledgerInfo.epoch.toNat := by
    rw [hepoch]
    exact hleads.epoch_add_length hlast
  refine ⟨rfl, ls, w, ⟨hleads, ?_, hlength.symm, hverify⟩, hnext⟩
  intro i hi
  exact hleads.epoch_getElem hlast hi

/-! ## Two epochs

A client follows the left side of the fork into the next epoch. -/

namespace TwoEpochs
open EpochChain

/-- The ledger info that ends the first epoch, with the only transaction there is. -/
def first : LedgerUpdate := ⟨Fork.left, none, ⟨[.zero]⟩⟩

/-- The next epoch, still at that transaction. -/
def second : LedgerUpdate where
  ledgerInfo := Fork.signed ⟨1, 0, .zero, .zero, 0, 0, none, .zero⟩ <| .ofParts
    0xac76afc2f59ecca55cb09eb121e01a04e733815e6438eb818bef8db5dc3870d676128839a8700473ab7e6dcd646d59a3
    0x18aba050d369c69764040df4537fe74247e332c331358592ba9e3b95826ff7f972997abb90e06b18fad6583d4213dc19
  epochChain := some ⟨[Fork.left], false⟩
  consistency := ⟨[]⟩

def successor : EpochVerifier := Fork.successor 1 Fork.verifier.hasPower

theorem verify_second : successor.verify second.ledgerInfo = .ok () :=
  Fork.verify_signed rfl rfl (by decide +kernel)

def atFirst (anchor : EpochVerifier) : LightClient := ⟨.validators anchor, ⟨⟨[.zero], 1⟩⟩⟩

/-- Then it is saved, and fails to adopt the last version that there is. -/
def operations : List Operation := [.update first, .save, .adopt 0xFFFFFFFFFFFFFFFF []]

theorem update_first :
    (start (.validators Fork.verifier)).update first =
      .ok (atFirst Fork.verifier, first.ledgerInfo.ledgerInfo) := by
  have hextend : first.consistency.extend .empty first.ledgerInfo.ledgerInfo =
      .ok (atFirst Fork.verifier).accumulator := by decide +kernel
  exact update_eq_ok_iff.2 ⟨rfl, rfl, Fork.verify_left, rfl, hextend⟩

theorem after_operations :
    (start (.validators Fork.verifier)).after operations = atFirst Fork.verifier := by
  have hadopt : (atFirst Fork.verifier).run (.adopt 0xFFFFFFFFFFFFFFFF []) = .error _ := rfl
  have hperform := perform_of_ok (run_update_eq_ok_iff.2 ⟨_, update_first, rfl⟩)
  rw [operations, after, List.foldl_cons, hperform, List.foldl_cons, List.foldl_cons, List.foldl_nil]
  exact congrArg Prod.fst (perform_of_error hadopt)

theorem update_second :
    (atFirst Fork.verifier).update second =
      .ok (atFirst successor, second.ledgerInfo.ledgerInfo) := by
  have hchain := Fork.verify_chain Fork.verifier.hasPower Fork.verify_left
  have hanchor : (atFirst Fork.verifier).anchorFor second = .ok (.validators successor) :=
    anchorFor_eq_ok_iff.2 (.inr ⟨rfl, _, _, rfl, hchain, rfl⟩)
  exact update_eq_ok_iff.2 ⟨rfl, hanchor, verify_second, rfl, by decide +kernel⟩

theorem exists_vouched_of_accepted_second :
    (start (.validators Fork.verifier)).anchor = .validators Fork.verifier ∧
      (∀ op ∈ operations, op.keepsClient = true) ∧
      ((start (.validators Fork.verifier)).after operations).update second =
        .ok (atFirst successor, second.ledgerInfo.ledgerInfo) ∧
      second.ledgerInfo.ledgerInfo.epoch.toNat < UInt64.size - 1 ∧
      ∃ ls w, Vouched Fork.verifier ls w second.ledgerInfo ∧
        (atFirst successor).anchor = .validators w := by
  have hops : ∀ op ∈ operations, op.keepsClient = true := by
    simp [operations, Operation.keepsClient]
  have hsecond : ((start (.validators Fork.verifier)).after operations).update second =
      .ok (atFirst successor, second.ledgerInfo.ledgerInfo) := by
    rw [after_operations]
    exact update_second
  exact ⟨rfl, hops, hsecond, by decide,
    (exists_vouched_of_accepted rfl hops hsecond (by decide)).2⟩

end TwoEpochs
end LightClient
end VerifiedLedger
