import VerifiedLedger.Accumulator.RangeProof
import VerifiedLedger.Proofs.Accumulator.LeafPaths
/-! # Paths through a run of leaves

One level of a run contains one level of a path for each of its leaves. The run stops where it is a
single node without siblings, so that its paths are as long as the levels that were hashed; whether
the index has bits above them is not looked at.
-/
namespace VerifiedLedger.RangeProof
variable {α : Type} {node : α → α → α} {f next top : Frontier α} {levels level first last : ℕ}

section PairUp

theorem pairUp_getElem? {nodes : List α} {j : ℕ} {a b : α} (ha : nodes[2 * j]? = some a)
    (hb : nodes[2 * j + 1]? = some b) : (pairUp node nodes)[j]? = some (node a b) := by
  induction j generalizing nodes with
  | zero =>
    match nodes, ha, hb with
    | x :: y :: rest, ha, hb =>
      cases ha
      cases hb
      rfl
  | succ j ih =>
    match nodes, ha, hb with
    | [], ha, _ => cases ha
    | [x], ha, _ => cases ha
    | x :: y :: rest, ha, hb => exact ih ha hb

theorem length_pairUp (nodes : List α) : (pairUp node nodes).length = nodes.length / 2 := by
  fun_induction pairUp node nodes with
  | case1 a b rest ih =>
    rw [List.length_cons, ih, List.length_cons, List.length_cons]
    omega
  | case2 nodes h =>
    match nodes, h with
    | [], _ => simp
    | [x], _ => simp
    | a :: b :: rest, h => exact (h a b rest rfl).elim

end PairUp

section Level

theorem takeLeft_eq_ok (h : takeLeft level first f = .ok next) :
    ∃ taken, taken.length = first % 2 ∧ f.left = taken ++ next.left ∧
      next.nodes = taken ++ f.nodes ∧ next.right = f.right := by
  unfold takeLeft at h
  by_cases ho : first % 2 = 1
  · rw [if_pos ho] at h
    cases hl : f.left with
    | nil =>
      rw [hl] at h
      cases h
    | cons sibling rest =>
      rw [hl] at h
      cases h
      exact ⟨[sibling], ho.symm, rfl, rfl, rfl⟩
  · rw [if_neg ho] at h
    cases h
    exact ⟨[], by rw [List.length_nil]; omega, rfl, rfl, rfl⟩

theorem takeRight_eq_ok (h : takeRight level last f = .ok next) :
    ∃ taken, taken.length = (last + 1) % 2 ∧ f.right = taken ++ next.right ∧
      next.nodes = f.nodes ++ taken ∧ next.left = f.left := by
  unfold takeRight at h
  by_cases he : last % 2 = 0
  · rw [if_pos he] at h
    cases hr : f.right with
    | nil =>
      rw [hr] at h
      cases h
    | cons sibling rest =>
      rw [hr] at h
      cases h
      exact ⟨[sibling], by rw [List.length_singleton]; omega, rfl, rfl, rfl⟩
  · rw [if_neg he] at h
    cases h
    exact ⟨[], by rw [List.length_nil]; omega, rfl, (List.append_nil _).symm, rfl⟩

/-- The neighbours that are taken in make the run begin with a left and end with a right child. -/
theorem raise_eq_ok (h : raise node level first last f = .ok next) :
    ∃ before after, before.length = first % 2 ∧ after.length = (last + 1) % 2 ∧
      f.left = before ++ next.left ∧ f.right = after ++ next.right ∧
      next.nodes = pairUp node (before ++ f.nodes ++ after) := by
  simp only [raise, bind_eq_ok_iff] at h
  obtain ⟨g, hleft, g', hright, hpair⟩ := h
  obtain ⟨before, hbefore, hl, hn, hr⟩ := takeLeft_eq_ok hleft
  obtain ⟨after, hafter, hr', hn', hl'⟩ := takeRight_eq_ok hright
  by_cases hodd : g'.nodes.length % 2 = 1
  · rw [if_pos hodd] at hpair
    exact absurd hpair throw_ne_ok
  · rw [if_neg hodd, pure_eq_ok_iff] at hpair
    subst hpair
    refine ⟨before, after, hbefore, hafter, ?_, ?_, ?_⟩
    · rw [hl, hl']
    · rw [← hr, hr']
    · rw [hn', hn]

/-- The next level of a run has the parents of this one, and no others. -/
theorem raise_run (hrun : first + f.nodes.length = last + 1)
    (h : raise node level first last f = .ok next) :
    first / 2 + next.nodes.length = last / 2 + 1 := by
  obtain ⟨before, after, hbefore, hafter, -, -, hnodes⟩ := raise_eq_ok h
  rw [hnodes, length_pairUp, List.length_append, List.length_append, hbefore, hafter]
  omega

/-- One step of the path of every node of the run. -/
theorem raise_step (hrun : first + f.nodes.length = last + 1)
    (h : raise node level first last f = .ok next) {i : ℕ} {a : α} (ha : f.nodes[i]? = some a) :
    ∃ j sibling, first / 2 + j = (first + i) / 2 ∧
      next.nodes[j]? = some (climb node a [((first + i) % 2 == 1, sibling)]) := by
  obtain ⟨before, after, hbefore, hafter, -, -, hnodes⟩ := raise_eq_ok h
  have hi : i < f.nodes.length := (List.getElem?_eq_some_iff.1 ha).1
  have hlength : (before ++ f.nodes ++ after).length = first % 2 + f.nodes.length + (last + 1) % 2 := by
    rw [List.length_append, List.length_append, hbefore, hafter]
  have hplace : (before ++ f.nodes ++ after)[first % 2 + i]? = some a := by
    rw [List.append_assoc, ← hbefore, List.getElem?_append_right (Nat.le_add_right _ _),
      Nat.add_sub_cancel_left, List.getElem?_append_left hi, ha]
  refine ⟨(first % 2 + i) / 2, ?_⟩
  rw [hnodes]
  rcases Nat.mod_two_eq_zero_or_one (first + i) with he | ho
  · have hright : first % 2 + i + 1 < (before ++ f.nodes ++ after).length := by
      rw [hlength]
      omega
    obtain ⟨sibling, hsibling⟩ : ∃ s, (before ++ f.nodes ++ after)[first % 2 + i + 1]? = some s :=
      ⟨_, List.getElem?_eq_getElem hright⟩
    rw [show first % 2 + i = 2 * ((first % 2 + i) / 2) by omega] at hplace hsibling
    refine ⟨sibling, by omega, ?_⟩
    rw [pairUp_getElem? hplace hsibling, he]
    rfl
  · have hleft : first % 2 + i - 1 < (before ++ f.nodes ++ after).length := by
      rw [hlength]
      omega
    obtain ⟨sibling, hsibling⟩ : ∃ s, (before ++ f.nodes ++ after)[first % 2 + i - 1]? = some s :=
      ⟨_, List.getElem?_eq_getElem hleft⟩
    rw [show first % 2 + i = 2 * ((first % 2 + i) / 2) + 1 by omega] at hplace
    rw [show first % 2 + i - 1 = 2 * ((first % 2 + i) / 2) by omega] at hsibling
    refine ⟨sibling, by omega, ?_⟩
    rw [pairUp_getElem? hsibling hplace, ho]
    rfl

end Level

section Run

/-- The number of levels that are hashed before the run stops. -/
def ascendDepth (node : α → α → α) : (levels level first last : ℕ) → Frontier α → ℕ
  | 0, _, _, _, _ => 0
  | levels + 1, level, first, last, f =>
    if f.isRoot then 0
    else
      match raise node level first last f with
      | .ok next => ascendDepth node levels (level + 1) (first / 2) (last / 2) next + 1
      | .error _ => 0

/-- A run that goes on takes one level and is a run again. -/
theorem ascend_cases (h : ascend node (levels + 1) level first last f = .ok top) :
    (f.isRoot = true ∧ top = f ∧ ascendDepth node (levels + 1) level first last f = 0) ∨
      f.isRoot = false ∧ ∃ next, raise node level first last f = .ok next ∧
        ascend node levels (level + 1) (first / 2) (last / 2) next = .ok top ∧
        ascendDepth node (levels + 1) level first last f =
          ascendDepth node levels (level + 1) (first / 2) (last / 2) next + 1 := by
  rw [ascend] at h
  rw [ascendDepth]
  cases hroot : f.isRoot with
  | true =>
    rw [hroot, if_pos rfl] at h
    cases h
    exact .inl ⟨rfl, rfl, rfl⟩
  | false =>
    rw [hroot, if_neg Bool.false_ne_true, bind_eq_ok_iff] at h
    obtain ⟨next, hraise, hrest⟩ := h
    refine .inr ⟨rfl, next, hraise, hrest, ?_⟩
    rw [if_neg Bool.false_ne_true, hraise]

theorem ascendDepth_le : ascendDepth node levels level first last f ≤ levels := by
  induction levels generalizing level first last f with
  | zero => exact Nat.le_refl _
  | succ levels ih =>
    rw [ascendDepth]
    split
    · exact Nat.zero_le _
    · split
      · exact Nat.succ_le_succ ih
      · exact Nat.zero_le _

/-- Every node of the run has a path of as many siblings to its ancestor at the top. -/
theorem ascend_path (hrun : first + f.nodes.length = last + 1)
    (h : ascend node levels level first last f = .ok top) {i : ℕ} {a : α}
    (ha : f.nodes[i]? = some a) :
    ∃ j siblings, List.length siblings = ascendDepth node levels level first last f ∧
      first / 2 ^ List.length siblings + j = (first + i) / 2 ^ List.length siblings ∧
      top.nodes[j]? = some (climb node a (indexSteps (first + i) siblings)) := by
  induction levels generalizing level first last f i a with
  | zero =>
    cases h
    exact ⟨i, [], rfl, by simp, ha⟩
  | succ levels ih =>
    rcases ascend_cases h with ⟨-, rfl, hdepth⟩ | ⟨-, next, hraise, hrest, hdepth⟩
    · exact ⟨i, [], hdepth.symm, by simp, ha⟩
    · obtain ⟨j, sibling, hj, hstep⟩ := raise_step hrun hraise ha
      obtain ⟨j', siblings, hlength, hj', hpath⟩ := ih (raise_run hrun hraise) hrest hstep
      refine ⟨j', sibling :: siblings, ?_, ?_, ?_⟩
      · rw [List.length_cons, hlength, hdepth]
      · rw [List.length_cons, Nat.pow_succ', ← Nat.div_div_eq_div_mul, ← Nat.div_div_eq_div_mul, hj',
          hj]
      · rw [hpath, hj]
        rfl

/-- Only the bits below the levels that are hashed count. -/
theorem ascend_congr (h : ascend node levels level first last f = .ok top) {first' last' : ℕ}
    (hfirst : first % 2 ^ ascendDepth node levels level first last f =
      first' % 2 ^ ascendDepth node levels level first last f)
    (hlast : last % 2 ^ ascendDepth node levels level first last f =
      last' % 2 ^ ascendDepth node levels level first last f) :
    ascend node levels level first' last' f = .ok top := by
  induction levels generalizing level first last f first' last' with
  | zero => exact h
  | succ levels ih =>
    rcases ascend_cases h with ⟨hroot, rfl, -⟩ | ⟨hroot, next, hraise, hrest, hdepth⟩
    · rw [ascend, if_pos hroot]
    · rw [hdepth] at hfirst hlast
      obtain ⟨hfirst₀, hfirst⟩ := Bits.half_congr hfirst
      obtain ⟨hlast₀, hlast⟩ := Bits.half_congr hlast
      have hsame : raise node level first' last' f = .ok next := by
        rw [← hraise, raise, raise, takeLeft, takeLeft, hfirst₀]
        simp only [takeRight, hlast₀]
      rw [ascend, hroot, if_neg Bool.false_ne_true, bind_eq_ok_iff]
      exact ⟨next, hsame, ih hrest hfirst hlast⟩

end Run

section Verify
variable {kind : AccumulatorKind} {proof : RangeProof kind} {leaves : List Digest} {root : Digest}

/-- The levels that the verifier hashes. -/
def depth (proof : RangeProof kind) (first : ℕ) (leaves : List Digest) : ℕ :=
  ascendDepth kind.node LeafProof.maxDepth 0 first (first + (leaves.length - 1))
    ⟨leaves, proof.leftSiblings.reverse, proof.rightSiblings.reverse⟩

theorem concludes_eq_ok_iff {f : Frontier Digest} :
    concludes f root = .ok () ↔ f.left = [] ∧ f.right = [] ∧ f.nodes = [root] := by
  have hrest : f.left.length + f.right.length = 0 ↔ f.left = [] ∧ f.right = [] := by
    rw [Nat.add_eq_zero_iff, List.length_eq_zero_iff, List.length_eq_zero_iff]
  rw [concludes, ite_error_eq_ok_iff, ne_eq, Decidable.not_not, hrest, and_assoc]
  refine and_congr_right fun _ => and_congr_right fun _ => ?_
  match f.nodes with
  | [] => simp
  | [only] =>
    by_cases h : only = root
    · simp [h]
    · simp [h]
  | first :: second :: rest => simp

theorem verify_eq_ok_iff (hne : leaves ≠ []) :
    proof.verify first leaves root = .ok () ↔
      proof.leftSiblings.length ≤ LeafProof.maxDepth ∧
        proof.rightSiblings.length ≤ LeafProof.maxDepth ∧
        first + (leaves.length - 1) < UInt64.size ∧
        ∃ top, ascend kind.node LeafProof.maxDepth 0 first (first + (leaves.length - 1))
            ⟨leaves, proof.leftSiblings.reverse, proof.rightSiblings.reverse⟩ = .ok top ∧
          top.left = [] ∧ top.right = [] ∧ top.nodes = [root] := by
  have hempty : leaves.isEmpty = false := by
    cases leaves with
    | nil => exact absurd rfl hne
    | cons leaf rest => rfl
  simp only [verify, hempty, Bool.false_eq_true, if_false, ite_error_eq_ok_iff, bind_eq_ok_iff,
    concludes_eq_ok_iff, Nat.not_lt, Nat.not_le]

/-- The path of a leaf of the run has as many siblings as levels were hashed. -/
theorem exists_path (hne : leaves ≠ []) (hok : proof.verify first leaves root = .ok ()) {i : ℕ}
    {leaf : Digest} (hleaf : leaves[i]? = some leaf) :
    ∃ siblings, List.length siblings = proof.depth first leaves ∧
      (first + i) / 2 ^ proof.depth first leaves = first / 2 ^ proof.depth first leaves ∧
      climb kind.node leaf (indexSteps (first + i) siblings) = root := by
  obtain ⟨-, -, -, top, htop, -, -, hnodes⟩ := (verify_eq_ok_iff hne).1 hok
  have hpos : 0 < leaves.length := List.length_pos_iff.2 hne
  have hrun : first + leaves.length = first + (leaves.length - 1) + 1 := by omega
  obtain ⟨j, siblings, hlength, hj, hpath⟩ := ascend_path hrun htop hleaf
  rw [hnodes] at hpath
  have hj0 : j = 0 := Nat.lt_one_iff.1 (List.getElem?_eq_some_iff.1 hpath).1
  subst hj0
  cases hpath
  refine ⟨siblings, hlength, ?_, rfl⟩
  rw [depth, ← hlength, ← hj, Nat.add_zero]

/-- The verifier makes sure of the bits of the index that it hashes and of no others. Below the
levels hashed, each leaf has a path; a path at the very index exists only if the index has no bits
above them; and with other bits above them the verifier accepts the same run. -/
theorem leaf_paths_of_verify (hne : leaves ≠ []) (hok : proof.verify first leaves root = .ok ()) :
    (∀ i (h : i < leaves.length), ∃ path : LeafProof kind,
      path.siblings.length = proof.depth first leaves ∧
        path.verify ((first + i) % 2 ^ proof.depth first leaves) leaves[i] root = .ok ()) ∧
    (∀ i (h : i < leaves.length),
      (∃ path : LeafProof kind, path.siblings.length ≤ proof.depth first leaves ∧
        path.verify (first + i) leaves[i] root = .ok ()) ↔
      first < 2 ^ proof.depth first leaves) ∧
    ∀ start, start % 2 ^ proof.depth first leaves = first % 2 ^ proof.depth first leaves →
      start + (leaves.length - 1) < UInt64.size → proof.verify start leaves root = .ok () := by
  have hdepth : proof.depth first leaves ≤ LeafProof.maxDepth := ascendDepth_le
  have hpow : 0 < 2 ^ proof.depth first leaves := Nat.two_pow_pos _
  refine ⟨?_, ?_, ?_⟩
  · intro i hi
    obtain ⟨siblings, hlength, -, hpath⟩ := exists_path hne hok (List.getElem?_eq_getElem hi)
    have hsame : indexSteps ((first + i) % 2 ^ proof.depth first leaves) siblings =
        indexSteps (first + i) siblings :=
      indexSteps_congr (by rw [hlength, Nat.mod_mod])
    refine ⟨⟨siblings.reverse⟩, List.length_reverse.trans hlength,
      LeafProof.verify_reverse_eq_ok_iff.2 ?_⟩
    rw [hlength, hsame]
    exact ⟨hdepth, Nat.mod_lt _ hpow, hpath⟩
  · intro i hi
    obtain ⟨siblings, hlength, hbits, hpath⟩ := exists_path hne hok (List.getElem?_eq_getElem hi)
    constructor
    · rintro ⟨path, hshort, hverify⟩
      obtain ⟨-, hindex, -⟩ := LeafProof.verify_eq_ok_iff.1 hverify
      have hle := Nat.pow_le_pow_right Nat.two_pos hshort
      omega
    · intro hfirst
      rw [Nat.div_eq_of_lt hfirst, Nat.div_eq_zero_iff_lt hpow] at hbits
      refine ⟨⟨siblings.reverse⟩, Nat.le_of_eq (List.length_reverse.trans hlength),
        LeafProof.verify_reverse_eq_ok_iff.2 ?_⟩
      rw [hlength]
      exact ⟨hdepth, hbits, hpath⟩
  · intro start hstart hlast
    obtain ⟨hl, hr, -, top, htop, hconclude⟩ := (verify_eq_ok_iff hne).1 hok
    have hend : (first + (leaves.length - 1)) % 2 ^ proof.depth first leaves =
        (start + (leaves.length - 1)) % 2 ^ proof.depth first leaves := by
      rw [Nat.add_mod, ← hstart, ← Nat.add_mod]
    exact (verify_eq_ok_iff hne).2 ⟨hl, hr, hlast, top, ascend_congr htop hstart.symm hend,
      hconclude⟩

/-- A pair of leaves is hashed once, so that its second leaf has a path at index one. -/
theorem leaf_paths_of_verify_pair :
    (⟨[], []⟩ : RangeProof .event).verify 0 [.zero, .accumulatorPlaceholder]
        (AccumulatorKind.event.node .zero .accumulatorPlaceholder) = .ok () ∧
      ((∃ path : LeafProof .event, path.siblings.length ≤
            (⟨[], []⟩ : RangeProof .event).depth 0 [.zero, .accumulatorPlaceholder] ∧
          path.verify (0 + 1) .accumulatorPlaceholder
            (AccumulatorKind.event.node .zero .accumulatorPlaceholder) = .ok ()) ↔
        0 < 2 ^ (⟨[], []⟩ : RangeProof .event).depth 0 [.zero, .accumulatorPlaceholder]) := by
  have hok : (⟨[], []⟩ : RangeProof .event).verify 0 [.zero, .accumulatorPlaceholder]
      (AccumulatorKind.event.node .zero .accumulatorPlaceholder) = .ok () := by decide +kernel
  exact ⟨hok, (leaf_paths_of_verify (by decide) hok).2.1 1 (by decide)⟩

/-- A lone leaf that is the root is accepted at index nine without any hash, where a path would need
four siblings. -/
theorem lone_leaf_accepted_at_nine :
    (⟨[], []⟩ : RangeProof .transaction).verify 9 [.zero] .zero = .ok () ∧
      (⟨[], []⟩ : RangeProof .transaction).depth 9 [.zero] = 0 ∧
      ∀ path : LeafProof .transaction, path.verify 9 .zero .zero = .ok () →
        4 ≤ path.siblings.length := by
  refine ⟨by decide +kernel, by decide +kernel, ?_⟩
  intro path hverify
  obtain ⟨-, hindex, -⟩ := LeafProof.verify_eq_ok_iff.1 hverify
  by_contra hshort
  have hle : 2 ^ path.siblings.length ≤ 2 ^ 3 := Nat.pow_le_pow_right Nat.two_pos (by omega)
  omega

end Verify

end VerifiedLedger.RangeProof
