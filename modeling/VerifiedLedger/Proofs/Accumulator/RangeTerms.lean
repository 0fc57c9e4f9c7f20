import VerifiedLedger.Proofs.Accumulator.RangePaths
import VerifiedLedger.Proofs.Accumulator.Records
/-! # A run of leaves as a term

A range proof is run again on terms. The way up looks at counts only, so that it goes the same way,
and the term that it ends in holds the path of every leaf of the run. The paths cannot be of another
length than those of the tree; so the run stands in the tree at its own index, unless that index has
bits above the tree.
-/
namespace VerifiedLedger.RangeProof
open Forest (Joins)
variable {α β : Type} {R : α → β → Prop} {node : α → α → α} {node' : β → β → β}
  {levels level first last : ℕ}

structure Frontier.Related (R : α → β → Prop) (f : Frontier α) (g : Frontier β) : Prop where
  nodes : List.Forall₂ R f.nodes g.nodes
  left : List.Forall₂ R f.left g.left
  right : List.Forall₂ R f.right g.right

/-- Where one run ends in a single node, so does the other. -/
theorem Frontier.Related.of_top {a : α} {g : Frontier β}
    (h : Frontier.Related R ⟨[a], [], []⟩ g) : ∃ b, g = ⟨[b], [], []⟩ ∧ R a b := by
  obtain ⟨nodes, left, right⟩ := g
  obtain ⟨hnodes, hleft, hright⟩ := h
  obtain ⟨b, rest, hb, hrest, rfl⟩ := List.forall₂_cons_left_iff.1 hnodes
  obtain rfl := List.forall₂_nil_left_iff.1 hrest
  obtain rfl := List.forall₂_nil_left_iff.1 hleft
  obtain rfl := List.forall₂_nil_left_iff.1 hright
  exact ⟨b, rfl, hb⟩

section Related
variable {f next top : Frontier α} {f' : Frontier β}

theorem takeLeft_related (hf : f.Related R f') (h : takeLeft level first f = .ok next) :
    ∃ next', takeLeft level first f' = .ok next' ∧ next.Related R next' := by
  obtain ⟨hnodes, hleft, hright⟩ := hf
  unfold takeLeft at h ⊢
  by_cases ho : first % 2 = 1
  · rw [if_pos ho] at h ⊢
    cases hl : f.left with
    | nil =>
      rw [hl] at h
      cases h
    | cons sibling rest =>
      rw [hl] at h hleft
      cases h
      cases hl' : f'.left with
      | nil =>
        rw [hl'] at hleft
        cases hleft
      | cons sibling' rest' =>
        rw [hl'] at hleft
        obtain ⟨hsibling, hrest⟩ := List.forall₂_cons.1 hleft
        exact ⟨_, rfl, .cons hsibling hnodes, hrest, hright⟩
  · rw [if_neg ho] at h ⊢
    cases h
    exact ⟨_, rfl, hnodes, hleft, hright⟩

theorem takeRight_related (hf : f.Related R f') (h : takeRight level last f = .ok next) :
    ∃ next', takeRight level last f' = .ok next' ∧ next.Related R next' := by
  obtain ⟨hnodes, hleft, hright⟩ := hf
  unfold takeRight at h ⊢
  by_cases he : last % 2 = 0
  · rw [if_pos he] at h ⊢
    cases hr : f.right with
    | nil =>
      rw [hr] at h
      cases h
    | cons sibling rest =>
      rw [hr] at h hright
      cases h
      cases hr' : f'.right with
      | nil =>
        rw [hr'] at hright
        cases hright
      | cons sibling' rest' =>
        rw [hr'] at hright
        obtain ⟨hsibling, hrest⟩ := List.forall₂_cons.1 hright
        exact ⟨_, rfl, List.rel_append hnodes (.cons hsibling .nil), hleft, hrest⟩
  · rw [if_neg he] at h ⊢
    cases h
    exact ⟨_, rfl, hnodes, hleft, hright⟩

theorem pairUp_related (hR : Joins R node node') {nodes : List α} {nodes' : List β}
    (h : List.Forall₂ R nodes nodes') :
    List.Forall₂ R (pairUp node nodes) (pairUp node' nodes') := by
  fun_induction pairUp node nodes generalizing nodes' with
  | case1 a b rest ih =>
    cases h with
    | cons ha h =>
      cases h with
      | cons hb hrest => exact .cons (hR ha hb) (ih hrest)
  | case2 nodes hshort =>
    cases h with
    | nil => exact .nil
    | cons _ hrest =>
      cases hrest with
      | nil => exact .nil
      | cons => exact (hshort _ _ _ rfl).elim

theorem raise_related (hR : Joins R node node') (hf : f.Related R f')
    (h : raise node level first last f = .ok next) :
    ∃ next', raise node' level first last f' = .ok next' ∧ next.Related R next' := by
  simp only [raise, bind_eq_ok_iff] at h ⊢
  obtain ⟨g, hleft, k, hright, hpair⟩ := h
  obtain ⟨g', hleft', hg⟩ := takeLeft_related hf hleft
  obtain ⟨k', hright', hk⟩ := takeRight_related hg hright
  by_cases hodd : k.nodes.length % 2 = 1
  · rw [if_pos hodd] at hpair
    exact absurd hpair throw_ne_ok
  · rw [if_neg hodd, pure_eq_ok_iff] at hpair
    subst hpair
    rw [hk.nodes.length_eq] at hodd
    refine ⟨{ k' with nodes := pairUp node' k'.nodes }, ⟨g', hleft', k', hright', ?_⟩,
      pairUp_related hR hk.nodes, hk.left, hk.right⟩
    rw [if_neg hodd]
    rfl

theorem isRoot_eq (hf : f.Related R f') : f.isRoot = f'.isRoot := by
  have hempty : ∀ {as : List α} {bs : List β}, List.Forall₂ R as bs → as.isEmpty = bs.isEmpty := by
    intro as bs h
    cases h with
    | nil => rfl
    | cons => rfl
  rw [Frontier.isRoot, Frontier.isRoot, hf.nodes.length_eq, hempty hf.left, hempty hf.right]

theorem ascend_related (hR : Joins R node node') (hf : f.Related R f')
    (h : ascend node levels level first last f = .ok top) :
    ∃ top', ascend node' levels level first last f' = .ok top' ∧ top.Related R top' := by
  induction levels generalizing level first last f f' with
  | zero =>
    cases h
    exact ⟨f', rfl, hf⟩
  | succ levels ih =>
    rcases ascend_cases h with ⟨hroot, rfl, -⟩ | ⟨hroot, next, hraise, hrest, -⟩
    · rw [isRoot_eq hf] at hroot
      exact ⟨f', by rw [ascend, if_pos hroot], hf⟩
    · rw [isRoot_eq hf] at hroot
      obtain ⟨next', hraise', hnext⟩ := raise_related hR hf hraise
      obtain ⟨top', hrest', htop⟩ := ih hnext hrest
      refine ⟨top', ?_, htop⟩
      rw [ascend, hroot, if_neg Bool.false_ne_true, bind_eq_ok_iff]
      exact ⟨next', hraise', hrest'⟩

end Related

section Verify
variable {kind : AccumulatorKind} {proof : RangeProof kind} {leaves : List Digest} {root : Digest}

/-- The way up from given leaves and siblings. -/
def run (proof : RangeProof kind) (first : ℕ) (leaves : List Digest) :
    Except ProofError (Frontier (HashTree Digest)) :=
  ascend .node LeafProof.maxDepth 0 first (first + (leaves.length - 1))
    ⟨leaves.map .given, proof.leftSiblings.reverse.map .given,
      proof.rightSiblings.reverse.map .given⟩

/-- How the root is hashed from the leaves and the siblings, a placeholder where it is not. -/
def computation (proof : RangeProof kind) (first : ℕ) (leaves : List Digest) : HashTree Digest :=
  match proof.run first leaves with
  | .ok top => top.nodes.headD .placeholder
  | .error _ => .placeholder

theorem computation_of_run {t : HashTree Digest}
    (h : proof.run first leaves = .ok ⟨[t], [], []⟩) : proof.computation first leaves = t := by
  rw [computation, h]
  rfl

/-- A run that is accepted takes all siblings in and ends in one term. -/
theorem run_of_verify (hne : leaves ≠ []) (hok : proof.verify first leaves root = .ok ()) :
    proof.run first leaves = .ok ⟨[proof.computation first leaves], [], []⟩ ∧
      (proof.computation first leaves).value kind.node .accumulatorPlaceholder = root := by
  obtain ⟨-, -, -, ⟨nodes, left, right⟩, htop, rfl, rfl, rfl⟩ := (verify_eq_ok_iff hne).1 hok
  have hstart : Frontier.Related
      (fun a t => HashTree.value kind.node .accumulatorPlaceholder t = a)
      ⟨leaves, proof.leftSiblings.reverse, proof.rightSiblings.reverse⟩
      ⟨leaves.map .given, proof.leftSiblings.reverse.map .given,
        proof.rightSiblings.reverse.map .given⟩ :=
    ⟨Forest.forall₂_value_given _, Forest.forall₂_value_given _, Forest.forall₂_value_given _⟩
  obtain ⟨top, hrun, hrelated⟩ := ascend_related Forest.joins_value hstart htop
  obtain ⟨t, rfl, hvalue⟩ := hrelated.of_top
  rw [computation_of_run hrun]
  exact ⟨hrun, hvalue⟩

/-- The path of a leaf of the run is a part of the way up. -/
theorem exists_path_of_run (hne : leaves ≠ []) (hok : proof.verify first leaves root = .ok ())
    {i : ℕ} {leaf : Digest} (hleaf : leaves[i]? = some leaf) :
    ∃ siblings, climb .node (.given leaf) (indexSteps (first + i) siblings) =
      proof.computation first leaves := by
  obtain ⟨htop, -⟩ := run_of_verify hne hok
  have hpos : 0 < leaves.length := List.length_pos_iff.2 hne
  have hrun : first + (leaves.map HashTree.given).length = first + (leaves.length - 1) + 1 := by
    rw [List.length_map]
    omega
  have hterm : (leaves.map HashTree.given)[i]? = some (.given leaf) := by
    rw [List.getElem?_map, hleaf]
    rfl
  obtain ⟨j, siblings, -, -, hpath⟩ := ascend_path hrun htop hterm
  have hj : j = 0 := Nat.lt_one_iff.1 (List.getElem?_eq_some_iff.1 hpath).1
  subst hj
  exact ⟨siblings, (Option.some.inj hpath).symm⟩

variable {d : Domain} {strings records : List (List UInt8)}

/-- A run that is accepted within the records is a run of the records. -/
theorem record_of_verify (hfree : CollisionFree strings)
    (havoid : AvoidsDigest .accumulatorPlaceholder strings) (hd : d ≠ kind.domain)
    (hbuild : Accumulator.building kind d records ⊆ strings)
    (hroot : Accumulator.rootOf kind d records = .ok root)
    (hok : proof.verify first leaves root = .ok ())
    (hcheck : (proof.computation first leaves).hashed kind ⊆ strings) {i : ℕ} {x : List UInt8}
    (hleaf : leaves[i]? = some (d.hash x)) (hx : d.preimage x ∈ strings)
    (hindex : first + i < records.length) : records[first + i]? = some x := by
  have hne : leaves ≠ [] := by
    rintro rfl
    cases hleaf
  obtain ⟨-, hvalue⟩ := run_of_verify hne hok
  obtain ⟨siblings, hpath⟩ := exists_path_of_run hne hok hleaf
  -- Only the bits of the index that the path meets count; the tree has them all.
  have hbits : indexSteps ((first + i) % 2 ^ siblings.length) siblings =
      indexSteps (first + i) siblings := indexSteps_congr (Nat.mod_mod _ _)
  rw [← hbits] at hpath
  obtain ⟨hlength, hrecord⟩ := Accumulator.record_of_climb hfree havoid hd hbuild hroot hx
    (Nat.mod_lt _ (Nat.two_pow_pos _)) (hpath ▸ hcheck) (hpath ▸ hvalue)
  have hbelow : first + i < 2 ^ siblings.length := by
    rw [hlength]
    exact lt_two_pow_height (hindex.trans_eq (List.length_map _).symm)
  rwa [Nat.mod_eq_of_lt hbelow] at hrecord

end Verify

end VerifiedLedger.RangeProof
