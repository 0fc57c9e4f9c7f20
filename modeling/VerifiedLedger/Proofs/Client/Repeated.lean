import VerifiedLedger.Proofs.Client.Paths
import VerifiedLedger.Proofs.Client.Provenance
/-! # Updates told again

A client that has accepted an update stands at its ledger info: its anchor vouches for it without a
chain of epochs, and its accumulator is the one that the ledger info names. From there the same
ledger info leads nowhere else, whatever chain it comes with; all that can go wrong is a consistency
proof that brings subtrees where there are no new leaves.
-/
namespace VerifiedLedger

theorem Accumulator.appendSubtrees_zero {kind : AccumulatorKind} (a : Accumulator kind)
    (subtrees : List Digest) :
    a.appendSubtrees subtrees 0 =
      if subtrees = [] then .ok a else .error (.tooManySubtrees 0 subtrees.length) := by
  rw [appendSubtrees, Forest.appendSubtrees, if_neg (Nat.not_lt_zero _), if_pos rfl]
  cases subtrees with
  | nil => rfl
  | cons subtree rest => rfl

theorem ConsistencyProof.extend_of_known {known : Accumulator .transaction} {l : LedgerInfo}
    (proof : ConsistencyProof) (hsize : l.version.toNat + 1 < UInt64.size)
    (hcount : known.leafCount = l.version.toNat + 1) (hroot : known.root = l.accumulatorRoot) :
    proof.extend known l =
      if proof.subtrees = [] then .ok known
      else .error (.tooManySubtrees 0 proof.subtrees.length) := by
  simp only [extend]
  rw [if_neg (Nat.not_le.2 hsize), if_neg (Nat.not_lt.2 hcount.le), ← hcount, Nat.sub_self,
    Accumulator.appendSubtrees_zero]
  by_cases hnone : proof.subtrees = []
  · rw [if_pos hnone, ok_bind, if_pos hroot]
    rfl
  · rw [if_neg hnone]
    rfl

namespace LightClient
variable {c next : LightClient} {u : LedgerUpdate} {l : SignedLedgerInfo} {op : Operation}
  {answer : Except ClientError Outcome} {outcome : Outcome}

/-- The client is where the ledger info says, and trusts it as it is. -/
structure StandsAt (c : LightClient) (l : SignedLedgerInfo) : Prop where
  backs : c.anchor.Backs l
  version_lt : l.ledgerInfo.version.toNat + 1 < UInt64.size
  leafCount_eq : c.accumulator.leafCount = l.ledgerInfo.version.toNat + 1
  root_eq : c.accumulator.root = l.ledgerInfo.accumulatorRoot

/-- Whoever vouched for an accepted update goes on to vouch for it. A waypoint has handed over to
validators by then, and validators are those of the epoch. -/
theorem backs_of_update {ledgerInfo : LedgerInfo} (h : c.update u = .ok (next, ledgerInfo)) :
    next.anchor.Backs u.ledgerInfo := by
  obtain ⟨-, hanchor, hverify, -⟩ := update_eq_ok_iff.1 h
  cases hnext : next.anchor with
  | insecure => exact .insecure u.ledgerInfo
  | validators v =>
    rw [hnext] at hverify
    exact .endorsed (EpochVerifier.verify_eq_ok_iff_endorses.1 hverify)
  | waypoint w =>
    rw [hnext] at hanchor
    rcases anchorFor_eq_ok_iff.1 hanchor with ⟨hneeds, hsame⟩ | ⟨-, _, _, -, -, hchange⟩
    · rw [← hsame] at hneeds
      cases hneeds
    · cases hchange

theorem standsAt_of_update {ledgerInfo : LedgerInfo} (hc : c.accumulator.Valid)
    (h : c.update u = .ok (next, ledgerInfo)) : next.StandsAt u.ledgerInfo := by
  obtain ⟨-, hcount, -⟩ := update_valid hc h
  have hbacks := backs_of_update h
  obtain ⟨rfl, -, -, -, hextend⟩ := update_eq_ok_iff.1 h
  obtain ⟨hsize, -, -, hroot⟩ := ConsistencyProof.extend_eq_ok_iff.1 hextend
  exact ⟨hbacks, hsize, hcount, hroot⟩

namespace StandsAt

theorem anchorFor_eq (h : c.StandsAt u.ledgerInfo) : c.anchorFor u = .ok c.anchor :=
  anchorFor_eq_ok_iff.2 (.inl ⟨h.backs.needsHandover_eq, rfl⟩)

theorem checkNotStale_eq (h : c.StandsAt l) : c.checkNotStale l.ledgerInfo = .ok () := by
  have hlast : c.lastVersion? = some l.ledgerInfo.version.toNat :=
    lastVersion?_eq_some_iff.2 h.leafCount_eq
  rw [checkNotStale, hlast]
  exact if_neg (Nat.lt_irrefl _)

/-- All that the same ledger info can do to the client. Its chain of epochs is never looked at. -/
theorem update_eq (h : c.StandsAt u.ledgerInfo) :
    c.update u =
      if u.consistency.subtrees = [] then .ok (c, u.ledgerInfo.ledgerInfo)
      else .error (.proof (.tooManySubtrees 0 u.consistency.subtrees.length)) := by
  rw [update, h.anchorFor_eq, ok_bind, h.backs.verify_eq, h.checkNotStale_eq,
    u.consistency.extend_of_known h.version_lt h.leafCount_eq h.root_eq]
  by_cases hnone : u.consistency.subtrees = []
  · rw [if_pos hnone, if_pos hnone]
    rfl
  · rw [if_neg hnone, if_neg hnone]
    rfl

end StandsAt

/-- The client gives that answer to an operation and is the same after it, also where the operation
is run write by write. -/
structure Stays (c : LightClient) (op : Operation) (answer : Except ClientError Outcome) :
    Prop where
  perform_eq : c.perform op = (c, answer)
  runOn_perform : InPlace.runOn (InPlace.perform op) c = (answer, c)

theorem stays_of_perform (h : c.perform op = (c, answer)) : c.Stays op answer := by
  refine ⟨h, ?_⟩
  rw [InPlace.runOn_perform, h, Prod.swap_prod_mk]

theorem StandsAt.stays_of_nil (h : c.StandsAt u.ledgerInfo) (hnone : u.consistency.subtrees = []) :
    c.Stays (.update u) (.ok (.advanced u.ledgerInfo.ledgerInfo)) := by
  have hupdate := h.update_eq
  rw [if_pos hnone] at hupdate
  exact stays_of_perform (perform_of_ok (run_update_eq_ok_iff.2 ⟨_, hupdate, rfl⟩))

theorem StandsAt.stays_of_ne_nil (h : c.StandsAt u.ledgerInfo)
    (hsome : u.consistency.subtrees ≠ []) :
    c.Stays (.update u)
      (.error (.proof (.tooManySubtrees 0 u.consistency.subtrees.length))) := by
  have hupdate := h.update_eq
  rw [if_neg hsome] at hupdate
  refine stays_of_perform (perform_of_error ?_)
  rw [run, hupdate]
  rfl

/-- However often the ledger info is told again, the client stays where it is. -/
theorem StandsAt.follow_eq {us : List LedgerUpdate} (h : c.StandsAt l)
    (hus : ∀ u ∈ us, u.ledgerInfo = l) : c.follow us = c := by
  refine after_induction (P := fun d => d = c) ?_ rfl
  intro d op hop hd
  obtain ⟨u, hu, rfl⟩ := List.mem_map.1 hop
  subst hd
  obtain rfl := hus u hu
  by_cases hnone : u.consistency.subtrees = []
  · rw [(h.stays_of_nil hnone).perform_eq]
  · rw [(h.stays_of_ne_nil hnone).perform_eq]

/-- What the ledger info of an accepted update does to the client when it is told again. -/
structure Settled (u : LedgerUpdate) (next : LightClient) (outcome : Outcome) : Prop where
  outcome_eq : outcome = .advanced u.ledgerInfo.ledgerInfo
  /-- Without subtrees it is accepted again, whatever chain of epochs comes with it. -/
  announced (chain : Option EpochChain) :
    next.Stays (.update ⟨u.ledgerInfo, chain, ⟨[]⟩⟩) (.ok outcome)
  repeated_iff : next.Stays (.update u) (.ok outcome) ↔ u.consistency.subtrees = []
  refused (h : u.consistency.subtrees ≠ []) :
    next.Stays (.update u)
      (.error (.proof (.tooManySubtrees 0 u.consistency.subtrees.length)))

/-- A ledger info that an update brought changes nothing when it is told again: it is accepted
without subtrees and refused with any. -/
theorem settled_of_accepted (hc : Reachable c)
    (h : c.perform (.update u) = (next, .ok outcome)) : Settled u next outcome := by
  obtain ⟨ledgerInfo, hupdate, rfl⟩ := run_update_eq_ok_iff.1 (perform_eq_ok_iff.1 h)
  have hstands := standsAt_of_update hc.built.valid hupdate
  obtain ⟨rfl, -⟩ := update_eq_ok_iff.1 hupdate
  refine ⟨rfl, ?_, ⟨?_, hstands.stays_of_nil⟩, hstands.stays_of_ne_nil⟩
  · intro chain
    exact StandsAt.stays_of_nil (u := ⟨u.ledgerInfo, chain, ⟨[]⟩⟩) hstands rfl
  · intro hagain
    by_contra hsome
    have hperform := (hstands.stays_of_ne_nil hsome).perform_eq
    rw [hagain.perform_eq] at hperform
    cases hperform

namespace TwoEpochs
open EpochChain (Fork.verifier)

/-- The update within the first epoch brings the only transaction, and is refused when it comes
again. The one that hands over to the next epoch brings none: it is accepted again, its chain of no
use any more to the validators that it led to. -/
theorem settled_of_accepted_both :
    Reachable (start (.validators Fork.verifier)) ∧
      (start (.validators Fork.verifier)).perform (.update first) =
        (atFirst Fork.verifier, .ok (.advanced first.ledgerInfo.ledgerInfo)) ∧
      (atFirst Fork.verifier).Stays (.update first) (.error (.proof (.tooManySubtrees 0 1))) ∧
      Reachable (atFirst Fork.verifier) ∧
      (atFirst Fork.verifier).perform (.update second) =
        (atFirst successor, .ok (.advanced second.ledgerInfo.ledgerInfo)) ∧
      (atFirst successor).Stays (.update second)
        (.ok (.advanced second.ledgerInfo.ledgerInfo)) := by
  have hstart : Reachable (start (.validators Fork.verifier)) := .start _
  have hfirst := perform_of_ok (run_update_eq_ok_iff.2 ⟨_, update_first, rfl⟩)
  have hreachable := Reachable.performed hstart (.update first)
  rw [hfirst] at hreachable
  have hsecond := perform_of_ok (run_update_eq_ok_iff.2 ⟨_, update_second, rfl⟩)
  exact ⟨hstart, hfirst, (settled_of_accepted hstart hfirst).refused (List.cons_ne_nil _ _),
    hreachable, hsecond, (settled_of_accepted hreachable hsecond).repeated_iff.2 rfl⟩

end TwoEpochs
end LightClient
end VerifiedLedger
