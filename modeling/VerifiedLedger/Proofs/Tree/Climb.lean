import VerifiedLedger.Tree.Siblings
import VerifiedLedger.Proofs.Tree.HashTree
/-! # Climbs to a root

A climb hashes one sibling a level onto what it begins with. From the root down it is taken apart a
level at a time: as long as two climbs to one root make the same turns, they have the same siblings.
So they begin at the same node, unless one begins at a node that the other hashes.
-/
namespace VerifiedLedger
open HashTree (KeepsApart)
variable {α : Type} {node : α → α → α} {empty : α}

/-- The two children that a step joins, from left to right. -/
def children (right : Bool) (current sibling : α) : α × α :=
  if right then (sibling, current) else (current, sibling)

theorem children_inj {right : Bool} {a b s t : α} (h : children right a s = children right b t) :
    a = b ∧ s = t := by
  cases right with
  | false => exact Prod.mk.inj h
  | true => exact (Prod.mk.inj h).symm

theorem climb_concat (a : α) (steps : List (Bool × α)) (right : Bool) (sibling : α) :
    climb node a (steps ++ [(right, sibling)]) =
      node (children right (climb node a steps) sibling).1
        (children right (climb node a steps) sibling).2 := by
  induction steps generalizing a with
  | nil => cases right <;> rfl
  | cons step steps ih => exact ih _

section Terms
variable (t : HashTree α) (steps : List (Bool × HashTree α)) (right : Bool) (sibling : HashTree α)

theorem value_climb :
    (climb .node t steps).value node empty =
      climb node (t.value node empty) (steps.map (Prod.map id (HashTree.value node empty))) := by
  induction steps generalizing t with
  | nil => rfl
  | cons step steps ih =>
    obtain ⟨right, sibling⟩ := step
    cases right with
    | false => exact ih _
    | true => exact ih _

/-- The last step joins the two nodes below the root. -/
theorem children_mem_pairs_climb :
    children right ((climb .node t steps).value node empty) (sibling.value node empty) ∈
      (climb .node t (steps ++ [(right, sibling)])).pairs node empty := by
  rw [climb_concat]
  cases right with
  | false => exact List.mem_cons_self
  | true => exact List.mem_cons_self

theorem pairs_climb_subset :
    (climb .node t steps).pairs node empty ⊆
      (climb .node t (steps ++ [(right, sibling)])).pairs node empty := by
  rw [climb_concat]
  cases right with
  | false => exact List.subset_cons_of_subset _ (List.subset_append_left _ _)
  | true => exact List.subset_cons_of_subset _ (List.subset_append_right _ _)

end Terms

/-- The climb as a term, with every sibling given. -/
def climbTerm (a : α) (steps : List (Bool × α)) : HashTree α :=
  climb .node (.given a) (steps.map (Prod.map id .given))

theorem value_climbTerm (node : α → α → α) (empty a : α) (steps : List (Bool × α)) :
    (climbTerm a steps).value node empty = climb node a steps := by
  have hgiven : Prod.map id (HashTree.value node empty) ∘ Prod.map id HashTree.given =
      (id : Bool × α → Bool × α) := rfl
  rw [climbTerm, value_climb, List.map_map, hgiven, List.map_id]
  rfl

section Path
variable {path : List Bool} {a b : α} {siblings siblings' : List α}

/-- The steps along the first turns of a path, with the siblings listed from the root down. -/
def pathSteps (path : List Bool) (siblings : List α) : List (Bool × α) :=
  (path.take siblings.length).reverse.zip siblings.reverse

theorem pathSteps_cons (h : siblings.length ≤ path.length) (right : Bool) (sibling : α) :
    pathSteps (right :: path) (sibling :: siblings) =
      pathSteps path siblings ++ [(right, sibling)] := by
  have hlength : (path.take siblings.length).reverse.length = siblings.reverse.length := by
    rw [List.length_reverse, List.length_reverse, List.length_take_of_le h]
  rw [pathSteps, List.length_cons, List.take_succ_cons, List.reverse_cons, List.reverse_cons,
    List.zip_append hlength]
  rfl

/-- What the walk along a path joins, from the root down. -/
def pathPairs (node : α → α → α) (empty : α) (path : List Bool) (a : α) (siblings : List α) :
    List (α × α) :=
  (climbTerm a (pathSteps path siblings)).pairs node empty

theorem climb_pathSteps_cons (node : α → α → α) (empty a : α)
    (h : siblings.length ≤ path.length) (right : Bool) (sibling : α) :
    ∃ p ∈ pathPairs node empty (right :: path) a (sibling :: siblings),
      p = children right (climb node a (pathSteps path siblings)) sibling ∧
        climb node a (pathSteps (right :: path) (sibling :: siblings)) = node p.1 p.2 := by
  refine ⟨_, ?_, rfl, ?_⟩
  · rw [pathPairs, climbTerm, pathSteps_cons h, List.map_append, ← value_climbTerm node empty]
    exact children_mem_pairs_climb _ _ _ _
  · rw [pathSteps_cons h, climb_concat]

theorem pathPairs_subset_cons (h : siblings.length ≤ path.length) (right : Bool) (sibling : α) :
    pathPairs node empty path a siblings ⊆
      pathPairs node empty (right :: path) a (sibling :: siblings) := by
  rw [pathPairs, pathPairs, climbTerm, climbTerm, pathSteps_cons h, List.map_append]
  exact pairs_climb_subset _ _ _ _

/-- The walk joins the two nodes below the root and whatever it joins further down. -/
theorem mem_pathPairs_cons (h : siblings.length ≤ path.length) {right : Bool} {sibling : α}
    {p : α × α} (hp : p ∈ pathPairs node empty (right :: path) a (sibling :: siblings)) :
    p = children right (climb node a (pathSteps path siblings)) sibling ∨
      p ∈ pathPairs node empty path a siblings := by
  rw [pathPairs, climbTerm, pathSteps_cons h, List.map_append] at hp
  rw [pathPairs, climbTerm, ← value_climbTerm node empty, climbTerm]
  generalize (pathSteps path siblings).map (Prod.map id HashTree.given) = steps at hp ⊢
  rw [List.map_cons, List.map_nil, Prod.map, id, climb_concat] at hp
  cases right with
  | false => simpa [HashTree.pairs, HashTree.value, children] using hp
  | true => simpa [HashTree.pairs, HashTree.value, children] using hp

/-- Two walks along one path that meet in the root begin at one node and have the same siblings,
unless one of them ends above the other, at a node that the other hashes. -/
theorem climb_eq_climb (h : siblings.length ≤ path.length) (h' : siblings'.length ≤ path.length)
    (hapart : KeepsApart node (pathPairs node empty path a siblings)
      (pathPairs node empty path b siblings'))
    (hroot : climb node a (pathSteps path siblings) = climb node b (pathSteps path siblings')) :
    (a = b ∧ siblings = siblings') ∨
      (∃ p ∈ pathPairs node empty path b siblings', a = node p.1 p.2) ∨
      ∃ p ∈ pathPairs node empty path a siblings, b = node p.1 p.2 := by
  -- From the root down: below one node both walks turn the same way, onto one pair of children.
  induction path generalizing siblings siblings' with
  | nil =>
    obtain rfl := List.eq_nil_of_length_eq_zero (Nat.le_zero.1 h)
    obtain rfl := List.eq_nil_of_length_eq_zero (Nat.le_zero.1 h')
    exact .inl ⟨hroot, rfl⟩
  | cons right path ih =>
    match siblings, siblings' with
    | [], [] => exact .inl ⟨hroot, rfl⟩
    | [], sibling' :: siblings' =>
      obtain ⟨p, hp, -, hb⟩ := climb_pathSteps_cons node empty b
        (Nat.le_of_succ_le_succ h') right sibling'
      exact .inr (.inl ⟨p, hp, hroot.trans hb⟩)
    | sibling :: siblings, [] =>
      obtain ⟨p, hp, -, ha⟩ := climb_pathSteps_cons node empty a
        (Nat.le_of_succ_le_succ h) right sibling
      exact .inr (.inr ⟨p, hp, hroot.symm.trans ha⟩)
    | sibling :: siblings, sibling' :: siblings' =>
      have hle : siblings.length ≤ path.length := Nat.le_of_succ_le_succ h
      have hle' : siblings'.length ≤ path.length := Nat.le_of_succ_le_succ h'
      obtain ⟨p, hp, hpc, ha⟩ := climb_pathSteps_cons node empty a
        hle right sibling
      obtain ⟨q, hq, hqc, hb⟩ := climb_pathSteps_cons node empty b
        hle' right sibling'
      have hpq : p = q := hapart p hp q hq (ha.symm.trans (hroot.trans hb))
      obtain ⟨hbelow, hsibling⟩ := children_inj (hpc.symm.trans (hpq.trans hqc))
      have hsub : pathPairs node empty path a siblings ⊆ _ :=
        pathPairs_subset_cons hle right sibling
      have hsub' : pathPairs node empty path b siblings' ⊆ _ :=
        pathPairs_subset_cons hle' right sibling'
      rcases ih hle hle' (hapart.mono hsub hsub') hbelow with
        ⟨hab, hrest⟩ | ⟨r, hr, ha⟩ | ⟨r, hr, hb⟩
      · exact .inl ⟨hab, by rw [hsibling, hrest]⟩
      · exact .inr (.inl ⟨r, hsub' hr, ha⟩)
      · exact .inr (.inr ⟨r, hsub hr, hb⟩)

end Path

end VerifiedLedger
