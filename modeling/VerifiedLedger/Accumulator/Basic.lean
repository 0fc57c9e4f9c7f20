import VerifiedLedger.Hash.Domain
import VerifiedLedger.Accumulator.Forest
/-! # Accumulators

A forest of digests whose nodes are hashed in the domain of its kind. The root pads the tree with
placeholders on its right. That a state has one root for every one bit of its leaf count is checked
by `ofSubtrees` and nowhere assumed.
-/
namespace VerifiedLedger

/-- What the leaves of an accumulator stand for; it decides the hash domain of the nodes. -/
inductive AccumulatorKind where
  | transaction
  | event
deriving DecidableEq, Repr

namespace AccumulatorKind

def domain : AccumulatorKind → Domain
  | transaction => .transactionAccumulator
  | event => .eventAccumulator

def node (kind : AccumulatorKind) (left right : Digest) : Digest := kind.domain.hashPair left right

end AccumulatorKind

structure Accumulator (kind : AccumulatorKind) extends Forest Digest
deriving DecidableEq

namespace Accumulator

variable {kind : AccumulatorKind}

def empty : Accumulator kind := ⟨.empty⟩

def subtrees (a : Accumulator kind) : List Digest := a.peaks.reverse

def lastVersion? (a : Accumulator kind) : Option Nat :=
  if a.leafCount = 0 then none else some (a.leafCount - 1)

def ofSubtrees (subtrees : List Digest) (leafCount : Nat) : Except ProofError (Accumulator kind) :=
  if Forest.maxLeaves < leafCount then .error (.tooManyLeaves 0 leafCount Forest.maxLeaves)
  else if subtrees.length ≠ Bits.ones leafCount then
    .error (.invalidState (.wrongPeakCount leafCount (Bits.ones leafCount) subtrees.length))
  else .ok ⟨subtrees.reverse, leafCount⟩

def root (a : Accumulator kind) : Digest := a.toForest.root kind.node .accumulatorPlaceholder

def append (a : Accumulator kind) (leaf : Digest) : Except ProofError (Accumulator kind) :=
  Accumulator.mk <$> a.toForest.append kind.node leaf

def appendAll (a : Accumulator kind) (leaves : List Digest) :
    Except ProofError (Accumulator kind) :=
  Accumulator.mk <$> a.toForest.appendAll kind.node leaves

def ofLeaves (leaves : List Digest) : Except ProofError (Accumulator kind) := empty.appendAll leaves

def appendSubtrees (a : Accumulator kind) (subtrees : List Digest) (newLeaves : Nat) :
    Except ProofError (Accumulator kind) :=
  Accumulator.mk <$> a.toForest.appendSubtrees kind.node subtrees newLeaves

def describe (a : Accumulator kind) : String :=
  "Accumulator \x7b num_leaves: " ++ toString a.leafCount ++ ", frozen_subtree_roots: " ++
    Digest.describeAll a.subtrees ++ " \x7d"

end Accumulator
end VerifiedLedger
