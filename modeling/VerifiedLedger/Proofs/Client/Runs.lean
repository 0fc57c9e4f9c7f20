import VerifiedLedger.Proofs.Accumulator.Built
import VerifiedLedger.Proofs.Client.Update
import VerifiedLedger.Proofs.Trust.Quorum
/-! # Runs of a client

What each operation may do to a client, and what a run of them may: which anchor can come of which,
and what is left where an operation fails. Operations read and write one client; here they are also
given write by write, so that nothing is put back after a failure.
-/
namespace VerifiedLedger

/-- Whether the operation goes on with the same client. The others make a new one of a state. -/
def Operation.keepsClient : Operation → Bool
  | reload => false
  | restore _ => false
  | _ => true

/-- Which anchor a client may have after which: validators of an epoch that is not earlier, and
those of any epoch after a waypoint. -/
inductive TrustAnchor.LeadsTo : TrustAnchor → TrustAnchor → Prop
  | insecure : LeadsTo .insecure .insecure
  | validators {v w : EpochVerifier} (h : v.epoch ≤ w.epoch) :
      LeadsTo (.validators v) (.validators w)
  | waypoint (w : Waypoint) : LeadsTo (.waypoint w) (.waypoint w)
  | handedOver (w : Waypoint) (v : EpochVerifier) : LeadsTo (.waypoint w) (.validators v)

namespace TrustAnchor.LeadsTo
variable {a b c : TrustAnchor}

theorem refl (a : TrustAnchor) : LeadsTo a a := by
  cases a with
  | validators v => exact .validators (UInt64.le_refl v.epoch)
  | waypoint w => exact .waypoint w
  | insecure => exact .insecure

theorem trans (h : LeadsTo a b) (h' : LeadsTo b c) : LeadsTo a c := by
  cases h with
  | insecure => exact h'
  | validators hab =>
    cases h' with
    | validators hbc => exact .validators (UInt64.le_trans hab hbc)
  | waypoint w => exact h'
  | handedOver w v =>
    cases h' with
    | validators hbc => exact .handedOver w _

end TrustAnchor.LeadsTo

namespace LightClient
variable {c next : LightClient} {u : LedgerUpdate} {l : LedgerInfo} {op : Operation}

section Steps

/-- What an operation may leave, unless it makes a new client. -/
inductive Step (c : LightClient) : LightClient → Prop
  | stays : Step c c
  | updated {next : LightClient} {u : LedgerUpdate} {l : LedgerInfo}
      (h : c.update u = .ok (next, l)) : Step c next
  | adopted {next : LightClient} {version : UInt64} {subtrees : List Digest}
      (h : c.adopt version subtrees = .ok next) : Step c next

theorem run_adopt_eq_ok_iff {version : UInt64} {subtrees : List Digest} {outcome : Outcome} :
    c.run (.adopt version subtrees) = .ok (next, outcome) ↔
      c.adopt version subtrees = .ok next ∧ outcome = .done := by
  simp only [run, bind_eq_ok_iff, pure_eq_ok_iff, Prod.mk.injEq]
  constructor
  · rintro ⟨d, h, rfl, rfl⟩
    exact ⟨h, rfl⟩
  · rintro ⟨h, rfl⟩
    exact ⟨next, h, rfl, rfl⟩

theorem adopt_eq_ok_iff {version : UInt64} {subtrees : List Digest} :
    c.adopt version subtrees = .ok next ↔
      (Progress.mk version subtrees).toAccumulator = .ok next.accumulator ∧
        next.anchor = c.anchor := by
  simp only [adopt, bind_eq_ok_iff, pure_eq_ok_iff]
  constructor
  · rintro ⟨accumulator, h, rfl⟩
    exact ⟨h, rfl⟩
  · rintro ⟨h, hanchor⟩
    refine ⟨next.accumulator, h, ?_⟩
    rw [← hanchor]

theorem step_perform (c : LightClient) (hop : op.keepsClient = true) :
    Step c (c.perform op).1 := by
  cases hrun : c.run op with
  | error e =>
    rw [perform_of_error hrun]
    exact .stays
  | ok result =>
    obtain ⟨next, outcome⟩ := result
    rw [perform_of_ok hrun]
    cases op with
    | update u =>
      obtain ⟨l, h, -⟩ := run_update_eq_ok_iff.1 hrun
      exact .updated h
    | adopt version subtrees => exact .adopted (run_adopt_eq_ok_iff.1 hrun).1
    | save =>
      cases hrun
      exact .stays
    | report =>
      cases hrun
      exact .stays
    | reload => cases hop
    | restore text => cases hop

/-- What every step keeps, a run keeps that makes no new client. -/
theorem after_steps {P : LightClient → Prop} {ops : List Operation}
    (hstep : ∀ {c next}, Step c next → P c → P next) (hops : ∀ op ∈ ops, op.keepsClient = true)
    (hc : P c) : P (c.after ops) := by
  apply after_induction _ hc
  intro d op hop hd
  exact hstep (step_perform d (hops op hop)) hd

end Steps

section Anchors

theorem anchorFor_eq_ok_iff {anchor : TrustAnchor} :
    c.anchorFor u = .ok anchor ↔
      (c.anchor.needsHandover u.ledgerInfo.ledgerInfo.epoch = false ∧ anchor = c.anchor) ∨
        c.anchor.needsHandover u.ledgerInfo.ledgerInfo.epoch = true ∧
          ∃ chain change, u.epochChain = some chain ∧ chain.verify c.anchor = .ok change ∧
            anchor = .validators change.verifier := by
  unfold anchorFor
  cases hneeds : c.anchor.needsHandover u.ledgerInfo.ledgerInfo.epoch with
  | false =>
    simp only [hneeds, Bool.false_eq_true, if_false, Except.ok.injEq, true_and, false_and, or_false]
    exact eq_comm
  | true =>
    simp only [hneeds, Bool.true_eq_false, if_true, true_and, false_and, false_or]
    cases u.epochChain with
    | none =>
      constructor
      · exact nofun
      · rintro ⟨chain, change, hchain, -⟩
        cases hchain
    | some chain =>
      cases hverify : chain.verify c.anchor with
      | error e =>
        simp only [hverify]
        constructor
        · exact nofun
        · rintro ⟨chain', change, ⟨⟩, h, -⟩
          rw [hverify] at h
          cases h
      | ok change =>
        simp only [hverify, Except.ok.injEq]
        constructor
        · rintro rfl
          exact ⟨chain, change, rfl, hverify, rfl⟩
        · rintro ⟨chain', change', ⟨⟩, h, rfl⟩
          rw [hverify] at h
          cases h
          rfl

/-- An update leaves the anchor, or hands over to validators of the epoch of its ledger info. -/
theorem anchor_of_update (h : c.update u = .ok (next, l)) :
    next.anchor = c.anchor ∨
      c.anchor.needsHandover l.epoch = true ∧
        ∃ v, next.anchor = .validators v ∧ v.epoch = l.epoch := by
  obtain ⟨rfl, hanchor, hverify, -, -⟩ := update_eq_ok_iff.1 h
  rcases anchorFor_eq_ok_iff.1 hanchor with ⟨-, hsame⟩ | ⟨hneeds, -, change, -, -, hchange⟩
  · exact .inl hsame
  · rw [hchange] at hverify
    exact .inr ⟨hneeds, change.verifier, hchange, (EpochVerifier.epoch_eq_of_verify hverify).symm⟩

theorem leadsTo_of_update (h : c.update u = .ok (next, l)) : c.anchor.LeadsTo next.anchor := by
  rcases anchor_of_update h with hsame | ⟨hneeds, v, hnext, hepoch⟩
  · rw [hsame]
    exact .refl c.anchor
  · rw [hnext]
    cases hanchor : c.anchor with
    | validators w =>
      rw [hanchor] at hneeds
      have hlater : w.epoch < l.epoch := of_decide_eq_true hneeds
      rw [← hepoch] at hlater
      exact .validators (UInt64.le_of_lt hlater)
    | waypoint w => exact .handedOver w v
    | insecure =>
      rw [hanchor] at hneeds
      cases hneeds

theorem Step.leadsTo (h : Step c next) : c.anchor.LeadsTo next.anchor := by
  cases h with
  | stays => exact .refl c.anchor
  | updated h => exact leadsTo_of_update h
  | adopted h =>
    rw [(adopt_eq_ok_iff.1 h).2]
    exact .refl c.anchor

theorem leadsTo_after {ops : List Operation} (hops : ∀ op ∈ ops, op.keepsClient = true) :
    c.anchor.LeadsTo (c.after ops).anchor :=
  after_steps (P := fun d => c.anchor.LeadsTo d.anchor) (fun h hd => hd.trans h.leadsTo) hops
    (.refl c.anchor)

end Anchors

section InPlace

/-- The verifier that an update hands over to, where it has to. -/
def changeFor (c : LightClient) (u : LedgerUpdate) : Except ClientError (Option EpochVerifier) :=
  let epoch := u.ledgerInfo.ledgerInfo.epoch
  if c.anchor.needsHandover epoch then
    match u.epochChain with
    | none => .error (.needsHandover epoch)
    | some chain =>
      match chain.verify c.anchor with
      | .ok handover => .ok (some handover.verifier)
      | .error e => .error (.trust e)
  else .ok none

theorem anchorFor_eq (c : LightClient) (u : LedgerUpdate) :
    c.anchorFor u = (c.changeFor u).map fun change => change.elim c.anchor .validators := by
  unfold anchorFor changeFor
  by_cases hneeds : c.anchor.needsHandover u.ledgerInfo.ledgerInfo.epoch = true
  · simp only [if_pos hneeds]
    cases u.epochChain with
    | none => rfl
    | some chain =>
      cases hverify : chain.verify c.anchor with
      | error e =>
        simp only [hverify]
        rfl
      | ok change =>
        simp only [hverify]
        rfl
  · simp only [if_neg hneeds]
    rfl

/-- Writes go to the client itself and stay there when a later check fails. -/
abbrev InPlace (α : Type) : Type := ExceptT ClientError (StateM LightClient) α

namespace InPlace

def check {α : Type} (x : Except ClientError α) : InPlace α := ExceptT.mk (pure x)

def writeAccumulator (a : Accumulator .transaction) : InPlace Unit :=
  modify fun c => { c with accumulator := a }

def writeAnchor (v : EpochVerifier) : InPlace Unit :=
  modify fun c => { c with anchor := .validators v }

def replace (text : String) : InPlace Outcome := do
  let state ← check (SavedState.ofText text)
  set (← check (ofState state))
  return .done

/-- The operations, write by write. -/
def perform : Operation → InPlace Outcome
  | .update u => do
    let c ← get
    let ledgerInfo := u.ledgerInfo.ledgerInfo
    let change ← check (c.changeFor u)
    check (((change.elim c.anchor .validators).verify u.ledgerInfo).mapError .trust)
    check (c.checkNotStale ledgerInfo)
    let accumulator ← check ((u.consistency.extend c.accumulator ledgerInfo).mapError .proof)
    writeAccumulator accumulator
    match change with
    | some v => writeAnchor v
    | none => pure ()
    return .advanced ledgerInfo
  | .adopt version subtrees => do
    let accumulator ← check (Progress.mk version subtrees).toAccumulator
    writeAccumulator accumulator
    return .done
  | .save => do
    let c ← get
    return .saved c.state
  | .report => do
    let c ← get
    return .reached c.progress?
  | .reload => do
    let c ← get
    replace c.state.toText
  | .restore text => replace text

/-- What it answers on a client, and the client that it leaves. -/
def runOn {α : Type} (x : InPlace α) (c : LightClient) : Except ClientError α × LightClient :=
  x.run.run c

theorem runOn_get_bind {β : Type} (c : LightClient) (f : LightClient → InPlace β) :
    runOn (get >>= f) c = runOn (f c) c := rfl

theorem runOn_check_bind_ok {α β : Type} (c : LightClient) (a : α) (f : α → InPlace β) :
    runOn (check (.ok a) >>= f) c = runOn (f a) c := rfl

theorem perform_update (c : LightClient) (u : LedgerUpdate) :
    runOn (perform (.update u)) c = (c.perform (.update u)).swap := by
  rw [perform, runOn_get_bind, LightClient.perform, run, update, anchorFor_eq]
  cases c.changeFor u with
  | error e => rfl
  | ok change =>
    dsimp only
    rw [runOn_check_bind_ok, Except.map, ok_bind]
    cases ((change.elim c.anchor .validators).verify u.ledgerInfo).mapError ClientError.trust with
    | error e => rfl
    | ok _ =>
      rw [runOn_check_bind_ok, ok_bind]
      cases c.checkNotStale u.ledgerInfo.ledgerInfo with
      | error e => rfl
      | ok _ =>
        rw [runOn_check_bind_ok, ok_bind]
        cases (u.consistency.extend c.accumulator u.ledgerInfo.ledgerInfo).mapError
            ClientError.proof with
        | error e => rfl
        | ok accumulator =>
          rw [runOn_check_bind_ok, ok_bind]
          cases change with
          | none => rfl
          | some v => rfl

theorem perform_adopt (c : LightClient) (version : UInt64) (subtrees : List Digest) :
    runOn (perform (.adopt version subtrees)) c = (c.perform (.adopt version subtrees)).swap := by
  rw [perform, LightClient.perform, run, adopt]
  cases (Progress.mk version subtrees).toAccumulator with
  | error e => rfl
  | ok accumulator => rfl

theorem runOn_replace (c : LightClient) (text : String) :
    runOn (replace text) c = (c.perform (.restore text)).swap := by
  rw [replace, LightClient.perform, run]
  cases SavedState.ofText text with
  | error e => rfl
  | ok state =>
    rw [runOn_check_bind_ok, ok_bind]
    cases ofState state with
    | error e => rfl
    | ok next => rfl

/-- Every operation writes after all its checks, so that one that fails has written nothing. -/
theorem runOn_perform (c : LightClient) (op : Operation) :
    runOn (perform op) c = (c.perform op).swap := by
  cases op with
  | update u => exact perform_update c u
  | adopt version subtrees => exact perform_adopt c version subtrees
  | save => rfl
  | report => rfl
  | reload =>
    rw [perform, runOn_get_bind, runOn_replace, LightClient.perform, LightClient.perform, run, run]
  | restore text => exact runOn_replace c text

end InPlace
end InPlace

section Reachable

/-- The clients that operations arrive at. -/
inductive Reachable : LightClient → Prop
  | start (anchor : TrustAnchor) : Reachable (start anchor)
  | restored {c : LightClient} {s : SavedState} (h : ofState s = .ok c) : Reachable c
  | performed {c : LightClient} (hc : Reachable c) (op : Operation) : Reachable (c.perform op).1

theorem built_of_ofState {s : SavedState} (h : ofState s = .ok c) : c.accumulator.Built := by
  simp only [ofState, bind_eq_ok_iff, pure_eq_ok_iff] at h
  obtain ⟨anchor, -, accumulator, haccumulator, rfl⟩ := h
  exact .restored haccumulator

theorem Step.built (h : Step c next) (hc : c.accumulator.Built) : next.accumulator.Built := by
  cases h with
  | stays => exact hc
  | updated h =>
    obtain ⟨-, -, -, -, hextend⟩ := update_eq_ok_iff.1 h
    exact .extend hc hextend
  | adopted h => exact .resumed (adopt_eq_ok_iff.1 h).1

theorem exists_ofState_of_run {outcome : Outcome} (hop : op.keepsClient = false)
    (h : c.run op = .ok (next, outcome)) : ∃ s, ofState s = .ok next := by
  cases op with
  | reload =>
    simp only [run, bind_eq_ok_iff, pure_eq_ok_iff, Prod.mk.injEq] at h
    obtain ⟨s, -, d, hd, rfl, -⟩ := h
    exact ⟨s, hd⟩
  | restore text =>
    simp only [run, bind_eq_ok_iff, pure_eq_ok_iff, Prod.mk.injEq] at h
    obtain ⟨s, -, d, hd, rfl, -⟩ := h
    exact ⟨s, hd⟩
  | _ => cases hop

theorem built_perform (hc : c.accumulator.Built) (op : Operation) :
    (c.perform op).1.accumulator.Built := by
  cases hkeeps : op.keepsClient with
  | true => exact (step_perform c hkeeps).built hc
  | false =>
    cases hrun : c.run op with
    | error e =>
      rw [perform_of_error hrun]
      exact hc
    | ok result =>
      obtain ⟨next, outcome⟩ := result
      obtain ⟨s, hs⟩ := exists_ofState_of_run hkeeps hrun
      rw [perform_of_ok hrun]
      exact built_of_ofState hs

theorem Reachable.built (h : Reachable c) : c.accumulator.Built := by
  induction h with
  | start anchor => exact .empty
  | restored h => exact built_of_ofState h
  | performed _ op ih => exact built_perform ih op

/-- What a successful update answers and leaves. -/
structure Advances (c : LightClient) (u : LedgerUpdate) (next : LightClient) (outcome : Outcome) :
    Prop where
  outcome_eq : outcome = .advanced u.ledgerInfo.ledgerInfo
  leafCount_eq : next.accumulator.leafCount = u.ledgerInfo.ledgerInfo.version.toNat + 1
  root_eq : next.accumulator.root = u.ledgerInfo.ledgerInfo.accumulatorRoot
  lastVersion_le (version : ℕ) (h : c.lastVersion? = some version) :
    ∃ later, next.lastVersion? = some later ∧ version ≤ later
  anchor_eq : next.anchor = c.anchor ∨
    ∃ v, next.anchor = .validators v ∧ v.epoch = u.ledgerInfo.ledgerInfo.epoch

theorem lastVersion?_eq_some_iff {version : ℕ} :
    c.lastVersion? = some version ↔ c.accumulator.leafCount = version + 1 := by
  unfold lastVersion? Accumulator.lastVersion?
  split
  · next h => simp [h]
  · next h =>
    rw [Option.some.injEq]
    omega

theorem advances_of_update {outcome : Outcome} (hc : c.accumulator.Valid)
    (h : c.perform (.update u) = (next, .ok outcome)) : Advances c u next outcome := by
  obtain ⟨l, hupdate, rfl⟩ := run_update_eq_ok_iff.1 (perform_eq_ok_iff.1 h)
  obtain ⟨-, hcount, hle⟩ := update_valid hc hupdate
  have hanchor := anchor_of_update hupdate
  obtain ⟨rfl, -, -, -, hextend⟩ := update_eq_ok_iff.1 hupdate
  obtain ⟨-, -, -, hroot⟩ := ConsistencyProof.extend_eq_ok_iff.1 hextend
  refine ⟨rfl, hcount, hroot, ?_, ?_⟩
  · intro version hversion
    rw [lastVersion?_eq_some_iff] at hversion
    refine ⟨u.ledgerInfo.ledgerInfo.version.toNat, lastVersion?_eq_some_iff.2 hcount, ?_⟩
    omega
  · rcases hanchor with hsame | ⟨-, hchange⟩
    · exact .inl hsame
    · exact .inr hchange

/-- What can be relied on when a client is used. -/
structure Contract (c : LightClient) : Prop where
  /-- Run write by write, an operation answers the same and leaves the same client. -/
  runOn_perform (op : Operation) : InPlace.runOn (InPlace.perform op) c = (c.perform op).swap
  unchanged_of_error (op : Operation) (e : ClientError) (h : (c.perform op).2 = .error e) :
    (c.perform op).1 = c
  save_eq : c.perform .save = (c, .ok (.saved c.state))
  report_eq : c.perform .report = (c, .ok (.reached c.progress?))
  advances (u : LedgerUpdate) (next : LightClient) (outcome : Outcome)
    (h : c.perform (.update u) = (next, .ok outcome)) : Advances c u next outcome
  /-- A version that is adopted replaces the accumulator and nothing else. -/
  adopts (version : UInt64) (subtrees : List Digest) (next : LightClient) (outcome : Outcome)
    (h : c.perform (.adopt version subtrees) = (next, .ok outcome)) :
    next.anchor = c.anchor ∧
      (Progress.mk version subtrees).toAccumulator = .ok next.accumulator
  leadsTo (ops : List Operation) (h : ∀ op ∈ ops, op.keepsClient = true) :
    c.anchor.LeadsTo (c.after ops).anchor

theorem perform_unchanged_of_error {e : ClientError} (h : (c.perform op).2 = .error e) :
    (c.perform op).1 = c := by
  cases hrun : c.run op with
  | error e => rw [perform_of_error hrun]
  | ok result =>
    obtain ⟨next, outcome⟩ := result
    rw [perform_of_ok hrun] at h
    cases h

/-- The contract holds of every client, new, restored or led on by operations. -/
theorem contract_of_reachable (h : Reachable c) : Contract c := by
  have hvalid := h.built.valid
  refine ⟨InPlace.runOn_perform c, ?_, rfl, rfl, ?_, ?_, ?_⟩
  · intro op e hfailed
    exact perform_unchanged_of_error hfailed
  · intro u next outcome hperform
    exact advances_of_update hvalid hperform
  · intro version subtrees next outcome hperform
    obtain ⟨hadopt, -⟩ := run_adopt_eq_ok_iff.1 (perform_eq_ok_iff.1 hperform)
    obtain ⟨haccumulator, hanchor⟩ := adopt_eq_ok_iff.1 hadopt
    exact ⟨hanchor, haccumulator⟩
  · intro ops hops
    exact leadsTo_after hops

/-- A ledger of one transaction, for a client that trusts everything. -/
def firstUpdate : LedgerUpdate :=
  ⟨⟨ConsistencyProof.checkpoint 0 0 .zero, .empty⟩, none, ⟨[.zero]⟩⟩

def atFirst : LightClient := ⟨.insecure, ⟨⟨[.zero], 1⟩⟩⟩

/-- A new client takes the update and advances as the contract says; the client that is left keeps
the contract in turn. -/
theorem contract_of_reachable_first :
    Reachable (start .insecure) ∧
      (start .insecure).perform (.update firstUpdate) =
        (atFirst, .ok (.advanced firstUpdate.ledgerInfo.ledgerInfo)) ∧
      Advances (start .insecure) firstUpdate atFirst
        (.advanced firstUpdate.ledgerInfo.ledgerInfo) ∧
      Reachable atFirst ∧ Contract atFirst := by
  have hextend : firstUpdate.consistency.extend .empty firstUpdate.ledgerInfo.ledgerInfo =
      .ok atFirst.accumulator := by decide +kernel
  have hupdate : (start .insecure).update firstUpdate =
      .ok (atFirst, firstUpdate.ledgerInfo.ledgerInfo) :=
    update_eq_ok_iff.2 ⟨rfl, rfl, rfl, rfl, hextend⟩
  have hperform := perform_of_ok (run_update_eq_ok_iff.2 ⟨_, hupdate, rfl⟩)
  have hstart : Reachable (start .insecure) := .start .insecure
  have hreachable := hstart.performed (.update firstUpdate)
  rw [hperform] at hreachable
  have hadvances := (contract_of_reachable hstart).advances firstUpdate _ _ hperform
  exact ⟨hstart, hperform, hadvances, hreachable, contract_of_reachable hreachable⟩

end Reachable
end LightClient
end VerifiedLedger
