import VerifiedLedger.Client.LightClient
import VerifiedLedger.Proofs.Client.Consistency
/-! # Updates of a client

What an update can do, once; and runs of updates, where the ones that are refused change nothing.
-/
namespace VerifiedLedger.LightClient
variable {c next : LightClient} {u : LedgerUpdate} {us vs : List LedgerUpdate} {l : LedgerInfo}
  {e : ClientError}

theorem update_eq_ok_iff :
    c.update u = .ok (next, l) ↔
      l = u.ledgerInfo.ledgerInfo ∧ c.anchorFor u = .ok next.anchor ∧
        next.anchor.verify u.ledgerInfo = .ok () ∧ c.checkNotStale l = .ok () ∧
        u.consistency.extend c.accumulator l = .ok next.accumulator := by
  simp only [update, bind_eq_ok_iff, mapError_eq_ok_iff, pure_eq_ok_iff, Prod.mk.injEq]
  constructor
  · rintro ⟨anchor, ha, ⟨⟩, hv, ⟨⟩, hs, accumulator, hx, rfl, rfl⟩
    exact ⟨rfl, ha, hv, hs, hx⟩
  · rintro ⟨rfl, ha, hv, hs, hx⟩
    exact ⟨next.anchor, ha, (), hv, (), hs, next.accumulator, hx, rfl, rfl⟩

section Perform
variable {op : Operation} {ops : List Operation} {outcome : Outcome}

theorem perform_of_ok (h : c.run op = .ok (next, outcome)) :
    c.perform op = (next, .ok outcome) := by
  rw [perform, h]

theorem perform_of_error {e : ClientError} (h : c.run op = .error e) :
    c.perform op = (c, .error e) := by
  rw [perform, h]

theorem perform_eq_ok_iff :
    c.perform op = (next, .ok outcome) ↔ c.run op = .ok (next, outcome) := by
  constructor
  · intro h
    cases hrun : c.run op with
    | error e =>
      rw [perform_of_error hrun] at h
      cases h
    | ok result =>
      rw [perform_of_ok hrun] at h
      cases h
      rfl
  · exact perform_of_ok

theorem run_update_eq_ok_iff :
    c.run (.update u) = .ok (next, outcome) ↔
      ∃ l, c.update u = .ok (next, l) ∧ outcome = .advanced l := by
  simp only [run, bind_eq_ok_iff, pure_eq_ok_iff, Prod.exists, Prod.mk.injEq]
  constructor
  · rintro ⟨d, l, h, rfl, rfl⟩
    exact ⟨l, h, rfl⟩
  · rintro ⟨l, h, rfl⟩
    exact ⟨next, l, h, rfl, rfl⟩

/-- What the operations of a run answer, one after the other. -/
def answers (c : LightClient) : List Operation → List (Except ClientError Outcome)
  | [] => []
  | op :: ops => (c.perform op).2 :: (c.perform op).1.answers ops

/-- What every operation of a run keeps, the run keeps. -/
theorem after_induction {P : LightClient → Prop}
    (hstep : ∀ {c}, ∀ op ∈ ops, P c → P (c.perform op).1) (hc : P c) : P (c.after ops) := by
  induction ops generalizing c with
  | nil => exact hc
  | cons op ops ih =>
    apply ih
    · intro d later hlater
      exact hstep later (List.mem_cons_of_mem op hlater)
    · exact hstep op List.mem_cons_self hc

end Perform

/-- The client after some updates, whether they are accepted or not. -/
def follow (c : LightClient) (us : List LedgerUpdate) : LightClient := c.after (us.map .update)

@[simp] theorem follow_nil : c.follow [] = c := rfl

theorem perform_update_of_ok (h : c.update u = .ok (next, l)) :
    (c.perform (.update u)).1 = next := by
  rw [perform_of_ok (run_update_eq_ok_iff.2 ⟨l, h, rfl⟩)]

theorem perform_update_of_error (h : c.update u = .error e) :
    (c.perform (.update u)).1 = c := by
  have hrun : c.run (.update u) = .error e := by
    rw [run, h]
    rfl
  rw [perform_of_error hrun]

theorem follow_cons_of_ok (h : c.update u = .ok (next, l)) : c.follow (u :: us) = next.follow us := by
  rw [follow, List.map_cons, after, List.foldl_cons, perform_update_of_ok h]
  rfl

theorem follow_cons_of_error (h : c.update u = .error e) : c.follow (u :: us) = c.follow us := by
  rw [follow, List.map_cons, after, List.foldl_cons, perform_update_of_error h]
  rfl

/-- What every accepted update keeps, a run keeps. -/
theorem follow_induction {P : LightClient → Prop}
    (hstep : ∀ {c next u l}, c.update u = .ok (next, l) → P c → P next) (hc : P c) :
    P (c.follow us) := by
  apply after_induction _ hc
  intro d op hop hd
  obtain ⟨u, -, rfl⟩ := List.mem_map.1 hop
  cases hu : d.update u with
  | error e => rwa [perform_update_of_error hu]
  | ok result =>
    rw [perform_update_of_ok hu]
    exact hstep hu hd

section Accumulators

/-- An accepted update leaves one leaf for every version up to that of its ledger info. -/
theorem update_valid (hc : c.accumulator.Valid) (h : c.update u = .ok (next, l)) :
    next.accumulator.Valid ∧ next.accumulator.leafCount = l.version.toNat + 1 ∧
      c.accumulator.leafCount ≤ next.accumulator.leafCount := by
  obtain ⟨-, -, -, -, hextend⟩ := update_eq_ok_iff.1 h
  obtain ⟨-, hle, happ, -⟩ := ConsistencyProof.extend_eq_ok_iff.1 hextend
  obtain ⟨hvalid, hcount⟩ := hc.appendSubtrees (Accumulator.appendSubtrees_eq_ok_iff.1 happ)
  rw [Nat.add_sub_cancel' hle] at hcount
  exact ⟨hvalid, hcount, hcount ▸ hle⟩

theorem follow_valid (hc : c.accumulator.Valid) : (c.follow us).accumulator.Valid :=
  follow_induction (fun h hv => (update_valid hv h).1) hc

theorem leafCount_le_follow (hc : c.accumulator.Valid) :
    c.accumulator.leafCount ≤ (c.follow us).accumulator.leafCount :=
  (follow_induction (P := fun d => d.accumulator.Valid ∧
      c.accumulator.leafCount ≤ d.accumulator.leafCount)
    (fun h hd => ⟨(update_valid hd.1 h).1, hd.2.trans (update_valid hd.1 h).2.2⟩)
    ⟨hc, le_rfl⟩).2

end Accumulators

section Hashes

/-- The strings that are hashed where accepted updates extend the accumulator. -/
def hashedAlong (c : LightClient) : List LedgerUpdate → List (List UInt8)
  | [] => []
  | u :: us =>
    match c.update u with
    | .ok (next, l) =>
      (u.consistency.computation c.accumulator l).hashed .transaction ++ next.hashedAlong us
    | .error _ => c.hashedAlong us

theorem hashedAlong_cons_of_ok (h : c.update u = .ok (next, l)) :
    c.hashedAlong (u :: us) =
      (u.consistency.computation c.accumulator l).hashed .transaction ++ next.hashedAlong us := by
  rw [hashedAlong, h]

theorem hashedAlong_cons_of_error (h : c.update u = .error e) :
    c.hashedAlong (u :: us) = c.hashedAlong us := by
  rw [hashedAlong, h]

theorem hashedAlong_append :
    c.hashedAlong (us ++ vs) = c.hashedAlong us ++ (c.follow us).hashedAlong vs := by
  induction us generalizing c with
  | nil => rfl
  | cons u us ih =>
    cases hu : c.update u with
    | error e =>
      rw [List.cons_append, hashedAlong_cons_of_error hu, hashedAlong_cons_of_error hu,
        follow_cons_of_error hu, ih]
    | ok result =>
      rw [List.cons_append, hashedAlong_cons_of_ok hu, hashedAlong_cons_of_ok hu,
        follow_cons_of_ok hu, ih, List.append_assoc]

end Hashes

end VerifiedLedger.LightClient
