import Mathlib.Data.List.Forall2
import VerifiedLedger.Accumulator.Basic
import VerifiedLedger.Proofs.Hash.Collision
/-! # Hash computations as terms

A term says how a node was hashed from given nodes and placeholders. The operations on forests take
any kind of node, so that the same operation on terms writes its own hashes down. Two terms of one
shape with one value are equal, unless a pair hashed in one and a pair hashed in the other collide.
-/
namespace VerifiedLedger

inductive HashTree (α : Type) where
  | given (a : α)
  | placeholder
  | node (left right : HashTree α)
deriving DecidableEq

namespace HashTree
variable {α : Type} (node : α → α → α) (empty : α)

/-- The node that the term computes. -/
def value : HashTree α → α
  | given a => a
  | placeholder => empty
  | .node left right => node left.value right.value

/-- The pairs of nodes that are joined on the way. -/
def pairs : HashTree α → List (α × α)
  | given _ => []
  | placeholder => []
  | .node left right =>
    (left.value node empty, right.value node empty) :: (left.pairs ++ right.pairs)

/-- The given nodes from left to right. -/
def leaves : HashTree α → List α
  | given a => [a]
  | placeholder => []
  | .node left right => left.leaves ++ right.leaves

/-- The first term computes the same node as the second one and joins nothing that the second one
does not join. -/
structure Within (s t : HashTree α) : Prop where
  value_eq : s.value node empty = t.value node empty
  pairs_subset : s.pairs node empty ⊆ t.pairs node empty

/-- The same term but for what is given. -/
def SameShape : HashTree α → HashTree α → Prop
  | given _, given _ => True
  | placeholder, placeholder => True
  | .node a b, .node c d => SameShape a c ∧ SameShape b d
  | _, _ => False

variable {node empty}

/-- A pair of the first list and another one of the second list have different parents. -/
def KeepsApart (node : α → α → α) (first second : List (α × α)) : Prop :=
  ∀ p ∈ first, ∀ q ∈ second, node p.1 p.2 = node q.1 q.2 → p = q

theorem KeepsApart.mono {first first' second second' : List (α × α)}
    (h : KeepsApart node first' second') (hf : first ⊆ first') (hs : second ⊆ second') :
    KeepsApart node first second :=
  fun p hp q hq => h p (hf hp) q (hs hq)

theorem eq_of_value_eq {s t : HashTree α} (hs : s.SameShape t)
    (hapart : KeepsApart node (s.pairs node empty) (t.pairs node empty))
    (hv : s.value node empty = t.value node empty) : s = t := by
  induction s generalizing t with
  | given a =>
    cases t with
    | given b => exact congrArg given hv
    | placeholder => exact hs.elim
    | node c d => exact hs.elim
  | placeholder =>
    cases t with
    | given b => exact hs.elim
    | placeholder => rfl
    | node c d => exact hs.elim
  | node a b iha ihb =>
    cases t with
    | given b => exact hs.elim
    | placeholder => exact hs.elim
    | node c d =>
      have hp := hapart _ List.mem_cons_self _ List.mem_cons_self hv
      have hac : a = c := iha hs.1
        (hapart.mono (List.subset_cons_of_subset _ (List.subset_append_left _ _))
          (List.subset_cons_of_subset _ (List.subset_append_left _ _)))
        (congrArg Prod.fst hp)
      have hbd : b = d := ihb hs.2
        (hapart.mono (List.subset_cons_of_subset _ (List.subset_append_right _ _))
          (List.subset_cons_of_subset _ (List.subset_append_right _ _)))
        (congrArg Prod.snd hp)
      rw [hac, hbd]

theorem eq_of_map_value_eq {ss ts : List (HashTree α)} (hs : List.Forall₂ SameShape ss ts)
    (hapart : KeepsApart node (ss.flatMap (pairs node empty)) (ts.flatMap (pairs node empty)))
    (hv : ss.map (value node empty) = ts.map (value node empty)) : ss = ts := by
  induction hs with
  | nil => rfl
  | @cons s t ss ts h hs ih =>
    obtain ⟨hst, hrest⟩ := List.cons_eq_cons.1 hv
    rw [List.flatMap_cons, List.flatMap_cons] at hapart
    have heq : s = t := eq_of_value_eq h
      (hapart.mono (List.subset_append_left _ _) (List.subset_append_left _ _)) hst
    have hss : ss = ts :=
      ih (hapart.mono (List.subset_append_right _ _) (List.subset_append_right _ _)) hrest
    rw [heq, hss]

/-- The strings hashed on the way, in an accumulator of that kind. -/
def hashed (kind : AccumulatorKind) (t : HashTree Digest) : List (List UInt8) :=
  (t.pairs kind.node .accumulatorPlaceholder).map kind.domain.pairString

theorem keepsApart_of_collisionFree {kind : AccumulatorKind} {strings : List (List UInt8)}
    {first second : List (Digest × Digest)} (h : CollisionFree strings)
    (hf : first.map kind.domain.pairString ⊆ strings)
    (hs : second.map kind.domain.pairString ⊆ strings) : KeepsApart kind.node first second :=
  fun _ hp _ hq =>
    Domain.eq_of_hashPair_eq h (hf (List.mem_map_of_mem hp)) (hs (List.mem_map_of_mem hq))

end HashTree
end VerifiedLedger
