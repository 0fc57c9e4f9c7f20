import VerifiedLedger.Proofs.Accumulator.RunSiblings
/-! # Widths of a run

At every level the run is as wide as the nodes from the ancestor of its first leaf to that of its
last. So with the neighbours that it takes in it pairs up, and above all its leaves it is a single
node. No run is refused for its size, and one that is accepted has used every sibling.
-/
namespace VerifiedLedger

/-- Anything but a fault of the size of a run. -/
def ProofError.NotOfSize (e : ProofError) : Prop := ∀ size, e ≠ .badFrontier size

namespace RangeProof
variable {α : Type} {node : α → α → α} {f paired next top start : Frontier α}
  {first last level levels : ℕ}

section Level

theorem even_of_taken (hrun : first + f.nodes.length = last + 1)
    (hleft : takeLeft level first f = .ok next) (hright : takeRight level last next = .ok paired) :
    paired.nodes.length % 2 = 0 := by
  obtain ⟨before, hbefore, -, hnodes, -⟩ := takeLeft_eq_ok hleft
  obtain ⟨after, hafter, -, hnodes', -⟩ := takeRight_eq_ok hright
  rw [hnodes', hnodes, List.length_append, List.length_append, hbefore, hafter]
  omega

theorem takeLeft_notOfSize : FailsWith ProofError.NotOfSize (takeLeft level first f) := by
  refine .ite (fun _ => ?_) fun _ => .ok f
  cases f.left with
  | nil => exact .error nofun
  | cons sibling rest => exact .ok _

theorem takeRight_notOfSize : FailsWith ProofError.NotOfSize (takeRight level last f) := by
  refine .ite (fun _ => ?_) fun _ => .ok f
  cases f.right with
  | nil => exact .error nofun
  | cons sibling rest => exact .ok _

theorem raise_notOfSize (hrun : first + f.nodes.length = last + 1) :
    FailsWith ProofError.NotOfSize (raise node level first last f) := by
  refine takeLeft_notOfSize.bind fun g hleft => takeRight_notOfSize.bind fun paired hright =>
    .ite (fun hodd => ?_) fun _ => .ok _
  have heven := even_of_taken hrun hleft hright
  omega

theorem Frontier.length_of_isRoot (h : f.isRoot = true) : f.nodes.length = 1 := by
  rw [isRoot, Bool.and_assoc, Bool.and_eq_true] at h
  exact beq_iff_eq.1 h.1

end Level

section Ascend

theorem ascend_notOfSize (hrun : first + f.nodes.length = last + 1) :
    FailsWith ProofError.NotOfSize (ascend node levels level first last f) := by
  induction levels generalizing level first last f with
  | zero => exact .ok f
  | succ levels ih =>
    exact .ite (fun _ => .ok f) fun _ =>
      (raise_notOfSize hrun).bind fun next hraise => ih (raise_run hrun hraise)

/-- Above all bits of the last index there is one node. -/
theorem length_of_ascend (hrun : first + f.nodes.length = last + 1) (hle : first ≤ last)
    (hlast : last < 2 ^ levels) (h : ascend node levels level first last f = .ok top) :
    top.nodes.length = 1 := by
  induction levels generalizing level first last f with
  | zero =>
    cases h
    omega
  | succ levels ih =>
    rcases ascend_cases h with ⟨hroot, rfl, -⟩ | ⟨-, next, hraise, hrest, -⟩
    · exact Frontier.length_of_isRoot hroot
    · refine ih (raise_run hrun hraise) (Nat.div_le_div_right hle) ?_ hrest
      rw [Nat.pow_succ] at hlast
      omega

/-- The run at the start of a level, if it comes to that level. -/
inductive Reaches (node : α → α → α) (first last : ℕ) (start : Frontier α) :
    ℕ → Frontier α → Prop
  | zero : Reaches node first last start 0 start
  | succ {level : ℕ} {f next : Frontier α} (h : Reaches node first last start level f)
      (hlevel : level < LeafProof.maxDepth) (hroot : f.isRoot = false)
      (hraise : raise node level (first >>> level) (last >>> level) f = .ok next) :
      Reaches node first last start (level + 1) next

namespace Reaches

theorem run (h : Reaches node first last start level f)
    (hrun : first + start.nodes.length = last + 1) :
    first >>> level + f.nodes.length = last >>> level + 1 := by
  induction h with
  | zero => exact hrun
  | succ _ _ _ hraise ih =>
    rw [Nat.shiftRight_succ, Nat.shiftRight_succ]
    exact raise_run ih hraise

/-- From the run at a level the way up goes on as from the leaves. -/
theorem ascend_eq (h : Reaches node first last start level f) :
    ascend node LeafProof.maxDepth 0 first last start =
      ascend node (LeafProof.maxDepth - level) level (first >>> level) (last >>> level) f := by
  induction h with
  | zero => rfl
  | @succ level f next h hlevel hroot hraise ih =>
    obtain ⟨levels, hlevels⟩ : ∃ levels, LeafProof.maxDepth - level = levels + 1 :=
      ⟨LeafProof.maxDepth - level - 1, by omega⟩
    rw [ih, hlevels, ascend, hroot, if_neg Bool.false_ne_true, hraise, ok_bind,
      ← Nat.shiftRight_succ, ← Nat.shiftRight_succ]
    congr 1
    omega

end Reaches
end Ascend

section Verify
variable {kind : AccumulatorKind} {proof : RangeProof kind} {leaves : List Digest}
  {expected : Digest} {g : Frontier Digest}

/-- The leaves as a run with all siblings above it. -/
def leafRun (proof : RangeProof kind) (leaves : List Digest) : Frontier Digest :=
  ⟨leaves, proof.leftSiblings.reverse, proof.rightSiblings.reverse⟩

theorem leafRun_run (proof : RangeProof kind) (first : ℕ) (hne : leaves ≠ []) :
    first + (proof.leafRun leaves).nodes.length = first + (leaves.length - 1) + 1 := by
  have hpos : 0 < leaves.length := List.length_pos_iff.2 hne
  change first + leaves.length = first + (leaves.length - 1) + 1
  omega

theorem concludes_notOfSize (h : g.nodes.length = 1) :
    FailsWith ProofError.NotOfSize (concludes g expected) := by
  refine .ite (fun _ => .error nofun) fun _ => ?_
  obtain ⟨root, hroot⟩ := List.length_eq_one_iff.1 h
  rw [hroot]
  exact .ite (fun _ => .ok ()) fun _ => .error nofun

theorem verify_notOfSize (proof : RangeProof kind) (first : ℕ) (leaves : List Digest)
    (expected : Digest) :
    FailsWith ProofError.NotOfSize (proof.verify first leaves expected) := by
  refine .ite (fun _ => .ite (fun _ => .ok ()) fun _ => .error nofun) fun hne =>
    .ite (fun _ => .error nofun) fun _ => .ite (fun _ => .error nofun) fun _ =>
      .ite (fun _ => .error nofun) fun hlast => ?_
  have hrun := leafRun_run proof first fun h => hne (List.isEmpty_iff.2 h)
  refine (ascend_notOfSize hrun).bind fun top htop => concludes_notOfSize ?_
  exact length_of_ascend hrun (Nat.le_add_right _ _) (Nat.lt_of_not_le hlast) htop

/-- What holds of the run when the verifier begins a level with it. -/
structure SoundAt (proof : RangeProof kind) (first : ℕ) (leaves : List Digest) (level : ℕ)
    (f : Frontier Digest) : Prop where
  resumes (hleft : proof.leftSiblings.length ≤ LeafProof.maxDepth)
    (hright : proof.rightSiblings.length ≤ LeafProof.maxDepth)
    (hlast : first + (leaves.length - 1) < UInt64.size) (expected : Digest) :
    proof.verify first leaves expected = do
      let top ← ascend kind.node (LeafProof.maxDepth - level) level (first >>> level)
        ((first + (leaves.length - 1)) >>> level) f
      concludes top expected
  width : f.nodes.length = (first + (leaves.length - 1)) >>> level - first >>> level + 1
  even (taken paired : Frontier Digest) (hleft : takeLeft level (first >>> level) f = .ok taken)
    (hright : takeRight level ((first + (leaves.length - 1)) >>> level) taken = .ok paired) :
    paired.nodes.length % 2 = 0

theorem soundAt_of_reaches (hne : leaves ≠ [])
    (h : Reaches kind.node first (first + (leaves.length - 1)) (proof.leafRun leaves) level g) :
    proof.SoundAt first leaves level g := by
  have hrun := h.run (leafRun_run proof first hne)
  refine ⟨fun hleft hright hlast expected => ?_, ?_, fun taken paired => even_of_taken hrun⟩
  · have hempty : leaves.isEmpty = false := List.isEmpty_eq_false_iff.2 hne
    simp only [verify, hempty, Bool.false_eq_true, if_false, if_neg (Nat.not_lt.2 hleft),
      if_neg (Nat.not_lt.2 hright), if_neg (Nat.not_le.2 hlast)]
    rw [← h.ascend_eq, leafRun]
  · have hle : first >>> level ≤ (first + (leaves.length - 1)) >>> level := by
      rw [Nat.shiftRight_eq_div_pow, Nat.shiftRight_eq_div_pow]
      exact Nat.div_le_div_right (Nat.le_add_right _ _)
    omega

/-- The verifier never meets a run of the wrong size, and what it accepts is hashed from all the
siblings and leaves, each in one place. -/
theorem widths_of_verify (proof : RangeProof kind) (first : ℕ) (leaves : List Digest) :
    (leaves ≠ [] → ∀ level f,
      Reaches kind.node first (first + (leaves.length - 1)) (proof.leafRun leaves) level f →
        proof.SoundAt first leaves level f) ∧
    (∀ expected size, proof.verify first leaves expected ≠ .error (.badFrontier size)) ∧
    (leaves ≠ [] → ∀ expected, proof.verify first leaves expected = .ok () →
      ∃ t : HashTree Digest, proof.run first leaves = .ok ⟨[t], [], []⟩ ∧
        t.value kind.node .accumulatorPlaceholder = expected ∧
        t.leaves = proof.leftSiblings ++ leaves ++ proof.rightSiblings.reverse) := by
  refine ⟨fun hne level f => soundAt_of_reaches hne, fun expected size h => ?_, ?_⟩
  · exact verify_notOfSize proof first leaves expected _ h size rfl
  · intro hne expected hok
    obtain ⟨hrun, hvalue⟩ := run_of_verify hne hok
    exact ⟨_, hrun, hvalue, leaves_of_run hne hrun⟩

/-- The last two of three leaves. They go up with a leaf on their left and a placeholder on their
right, and are as many again at the next level. -/
theorem widths_of_verify_two :
    ∃ (proof : RangeProof .event) (f : Frontier Digest) (root : Digest),
      proof = ⟨[.zero], [.accumulatorPlaceholder]⟩ ∧
      Reaches (AccumulatorKind.node .event) 1 2 (proof.leafRun [.zero, .zero]) 1 f ∧
      f.nodes.length = 2 >>> 1 - 1 >>> 1 + 1 ∧ proof.verify 1 [.zero, .zero] root = .ok () ∧
      ∃ t : HashTree Digest, proof.run 1 [.zero, .zero] = .ok ⟨[t], [], []⟩ ∧
        t.leaves = [.zero, .zero, .zero, .accumulatorPlaceholder] := by
  let proof : RangeProof .event := ⟨[.zero], [.accumulatorPlaceholder]⟩
  let node := AccumulatorKind.node .event
  have hne : [Digest.zero, .zero] ≠ [] := List.cons_ne_nil _ _
  have hreaches : Reaches node 1 2 (proof.leafRun [.zero, .zero]) 1
      ⟨[node .zero .zero, node .zero .accumulatorPlaceholder], [], []⟩ :=
    .succ .zero (by decide) rfl (by decide +kernel)
  have hok : proof.verify 1 [.zero, .zero]
      (node (node .zero .zero) (node .zero .accumulatorPlaceholder)) = .ok () := by decide +kernel
  obtain ⟨hsound, -, hused⟩ := widths_of_verify proof 1 [.zero, .zero]
  obtain ⟨t, hrun, -, hleaves⟩ := hused hne _ hok
  exact ⟨proof, _, _, rfl, hreaches, (hsound hne 1 _ hreaches).width, hok, t, hrun, hleaves⟩

end Verify
end RangeProof
end VerifiedLedger
