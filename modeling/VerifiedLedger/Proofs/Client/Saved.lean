import VerifiedLedger.Proofs.Client.JsonForms
import VerifiedLedger.Proofs.Client.Runs
import VerifiedLedger.Proofs.Trust.EpochChain
/-! # Clients saved and restored

A saved state keeps less than the client: no leaf count where the last version says it, no name for
the kind of anchor where a field says it. For an accumulator with the right number of subtrees that
is enough, and the text of the state is enough for the state.
-/
namespace VerifiedLedger
variable {a : Accumulator .transaction}

/-- The text of a waypoint is not the word that stands for none. -/
theorem Waypoint.toText_ne_insecureWord (w : Waypoint) : w.toText ≠ SavedState.insecureWord := by
  intro h
  have hcolon : ':' ∈ w.toText.toList := by
    rw [w.toList_toText]
    exact List.mem_append_right _ List.mem_cons_self
  rw [h] at hcolon
  exact absurd hcolon (by decide)

/-- An accumulator without leaves has no progress, and any other one is restored from its own. -/
theorem Progress.restore (ha : a.Valid) :
    a = .empty ∧ ofAccumulator? a = none ∨
      ∃ known, ofAccumulator? a = some known ∧ known.toAccumulator = .ok a := by
  obtain ⟨⟨peaks, leafCount⟩⟩ := a
  have hcount : leafCount ≤ Forest.maxLeaves := ha.leafCount_le
  have hpeaks : peaks.length = Bits.ones leafCount := ha.length_peaks
  by_cases hzero : leafCount = 0
  · subst hzero
    rw [Bits.ones_zero] at hpeaks
    obtain rfl := List.eq_nil_of_length_eq_zero hpeaks
    exact .inl ⟨rfl, rfl⟩
  · have hhalf : Forest.maxLeaves < UInt64.size := by decide
    have hversion : (UInt64.ofNat (leafCount - 1)).toNat + 1 = leafCount := by
      rw [UInt64.toNat_ofNat_of_lt' (by omega)]
      omega
    have hlast : Accumulator.lastVersion? (⟨⟨peaks, leafCount⟩⟩ : Accumulator .transaction) =
        some (leafCount - 1) := if_neg hzero
    refine .inr ⟨⟨UInt64.ofNat (leafCount - 1), peaks.reverse⟩, ?_, ?_⟩
    · rw [ofAccumulator?, hlast]
      rfl
    · have hsubtrees : Accumulator.ofSubtrees peaks.reverse leafCount =
          .ok (⟨⟨peaks, leafCount⟩⟩ : Accumulator .transaction) := by
        rw [Accumulator.ofSubtrees, if_neg (Nat.not_lt.2 hcount), List.length_reverse,
          if_neg (not_not.2 hpeaks), List.reverse_reverse]
      rw [toAccumulator]
      simp only [hversion, hsubtrees]
      exact if_neg (by omega)

namespace SavedState

theorem ofText_toText (s : SavedState) : ofText s.toText = .ok s := by
  obtain ⟨j, hj, hdepth⟩ : format.HasJson Format.nestingLimit s := s.hasJson
  have hread := (hj.parse_render .pretty).trans (if_pos hdepth)
  simp only [toText, hj.toJson_eq, ofText, hread]

theorem anchor_save (anchor : TrustAnchor) (a : Accumulator .transaction) :
    (save anchor a).anchor = .ok anchor := by
  cases anchor with
  | validators v =>
    have hset : EpochVerifier.ofSet v.validators v.epoch = .ok v :=
      EpochVerifier.ofSet_eq_ok_iff.2 ⟨rfl, rfl⟩
    simp only [save, SavedState.anchor, hset]
  | waypoint w =>
    simp only [save, SavedState.anchor, if_neg w.toText_ne_insecureWord, w.ofText_toText]
  | insecure => rfl

theorem accumulator_save (anchor : TrustAnchor) (ha : a.Valid) :
    (save anchor a).accumulator = .ok a := by
  rcases Progress.restore ha with ⟨rfl, hnone⟩ | ⟨known, hknown, hrestore⟩
  · cases anchor <;> simp only [save, hnone] <;> rfl
  · cases anchor <;> simp only [save, hknown] <;> exact hrestore

end SavedState

namespace LightClient
variable {c : LightClient}

theorem ofState_state (h : c.accumulator.Valid) : ofState c.state = .ok c := by
  simp only [ofState, state, SavedState.anchor_save, SavedState.accumulator_save c.anchor h]
  rfl

theorem perform_reload (h : c.accumulator.Valid) : c.perform .reload = (c, .ok .done) := by
  apply perform_of_ok
  rw [run, SavedState.ofText_toText, ok_bind, ofState_state h]
  rfl

/-- Whatever a client went through, it goes on from its saved text as if it had not been saved; and
whatever state a client was restored from, it is restored again from its own. -/
theorem restored_of_reachable :
    (∀ c, Reachable c → SavedState.ofText c.state.toText = .ok c.state ∧
      c.perform .reload = (c, .ok .done) ∧
      ∃ restored, ofState c.state = .ok restored ∧ restored.anchor = c.anchor ∧
        restored.accumulator = c.accumulator ∧
        ∀ ops, restored.answers ops = c.answers ops ∧ restored.after ops = c.after ops) ∧
    ∀ s c, ofState s = .ok c →
      SavedState.ofText c.state.toText = .ok c.state ∧ ofState c.state = .ok c := by
  refine ⟨fun c hc => ?_, fun s c hc => ?_⟩
  · have hvalid := hc.built.valid
    exact ⟨c.state.ofText_toText, perform_reload hvalid, c, ofState_state hvalid, rfl, rfl,
      fun ops => ⟨rfl, rfl⟩⟩
  · exact ⟨c.state.ofText_toText, ofState_state (built_of_ofState hc).valid⟩

/-- A state that names a waypoint beside the validators that are trusted. -/
def namedTwice : SavedState :=
  ⟨some "waypoint", some (EpochChain.Fork.validators 1), 0, some 0, [.zero]⟩

theorem restored_of_reachable_adopted :
    Reachable ((start .insecure).perform (.adopt 6 [.zero, .zero, .zero])).1 ∧
      (∃ restored,
        ofState ((start .insecure).perform (.adopt 6 [.zero, .zero, .zero])).1.state =
          .ok restored ∧
        restored.accumulator.leafCount = 7) ∧
      ofState namedTwice = .ok ⟨.validators EpochChain.Fork.verifier, ⟨⟨[.zero], 1⟩⟩⟩ ∧
      (state ⟨.validators EpochChain.Fork.verifier, ⟨⟨[.zero], 1⟩⟩⟩).waypoint = none ∧
      ofState (state ⟨.validators EpochChain.Fork.verifier, ⟨⟨[.zero], 1⟩⟩⟩) =
        .ok ⟨.validators EpochChain.Fork.verifier, ⟨⟨[.zero], 1⟩⟩⟩ := by
  have hadopted := Reachable.performed (.start .insecure) (.adopt 6 [.zero, .zero, .zero])
  have hnamed : ofState namedTwice =
      .ok ⟨.validators EpochChain.Fork.verifier, ⟨⟨[.zero], 1⟩⟩⟩ := by decide +kernel
  obtain ⟨hreload, hagain⟩ := restored_of_reachable
  obtain ⟨-, -, restored, hrestored, -, haccumulator, -⟩ := hreload _ hadopted
  refine ⟨hadopted, ⟨restored, hrestored, ?_⟩, hnamed, rfl, (hagain _ _ hnamed).2⟩
  rw [haccumulator]
  decide +kernel

end LightClient
end VerifiedLedger
