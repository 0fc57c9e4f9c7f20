import VerifiedLedger.Accumulator.LeafProof
/-! # Proofs of consecutive leaves

A run of leaves is folded level by level. At each level the run takes in its left neighbour if it
begins with a right child and its right neighbour if it ends with a left child, and then halves.
-/
namespace VerifiedLedger

/-- The neighbours of the run, on both sides from the root level down. -/
structure RangeProof (kind : AccumulatorKind) where
  leftSiblings : List Digest
  rightSiblings : List Digest
deriving DecidableEq

namespace RangeProof

variable {α : Type} {kind : AccumulatorKind}

def empty : RangeProof kind := ⟨[], []⟩

/-- The nodes of one level, and the siblings of the levels above, lowest first. -/
structure Frontier (α : Type) where
  nodes : List α
  left : List α
  right : List α
deriving DecidableEq

def Frontier.isRoot (f : Frontier α) : Bool :=
  f.nodes.length == 1 && f.left.isEmpty && f.right.isEmpty

/-- Takes in the left neighbour of a run that begins with a right child. -/
def takeLeft (level first : Nat) (f : Frontier α) : Except ProofError (Frontier α) :=
  if first % 2 = 1 then
    match f.left with
    | [] => .error (.missingSibling .left level)
    | sibling :: rest => .ok { f with nodes := sibling :: f.nodes, left := rest }
  else .ok f

/-- Takes in the right neighbour of a run that ends with a left child. -/
def takeRight (level last : Nat) (f : Frontier α) : Except ProofError (Frontier α) :=
  if last % 2 = 0 then
    match f.right with
    | [] => .error (.missingSibling .right level)
    | sibling :: rest => .ok { f with nodes := f.nodes ++ [sibling], right := rest }
  else .ok f

def pairUp (node : α → α → α) : List α → List α
  | a :: b :: rest => node a b :: pairUp node rest
  | _ => []

def raise (node : α → α → α) (level first last : Nat) (f : Frontier α) :
    Except ProofError (Frontier α) := do
  let f ← takeLeft level first f
  let f ← takeRight level last f
  if f.nodes.length % 2 = 1 then throw (.badFrontier f.nodes.length)
  else return { f with nodes := pairUp node f.nodes }

/-- Goes up until one node and no sibling is left, or through all the levels there are. -/
def ascend (node : α → α → α) :
    (levels level first last : Nat) → Frontier α → Except ProofError (Frontier α)
  | 0, _, _, _, f => .ok f
  | levels + 1, level, first, last, f =>
    if f.isRoot then .ok f
    else do
      let next ← raise node level first last f
      ascend node levels (level + 1) (first / 2) (last / 2) next

def concludes (f : Frontier Digest) (expected : Digest) : Except ProofError Unit :=
  if f.left.length + f.right.length ≠ 0 then
    .error (.leftoverSiblings (f.left.length + f.right.length))
  else
    match f.nodes with
    | [root] => if root = expected then .ok () else .error (.wrongRoot root expected)
    | nodes => .error (.badFrontier nodes.length)

/-- Checks that `leaves` are the leaves from index `first` on of the accumulator with root
`expected`. No leaves go only with no siblings, and then with every root. -/
def verify (proof : RangeProof kind) (first : Nat) (leaves : List Digest)
    (expected : Digest) : Except ProofError Unit :=
  let left := proof.leftSiblings.length
  let right := proof.rightSiblings.length
  let maxDepth := LeafProof.maxDepth
  if leaves.isEmpty then
    if left = 0 ∧ right = 0 then .ok () else .error (.siblingsOfNothing left right)
  else if maxDepth < left then .error (.tooManySiblings left maxDepth)
  else if maxDepth < right then .error (.tooManySiblings right maxDepth)
  else
    let last := first + (leaves.length - 1)
    if UInt64.size ≤ last then .error (.rangeTooLong first leaves.length)
    else do
      let top ← ascend kind.node maxDepth 0 first last
        ⟨leaves, proof.leftSiblings.reverse, proof.rightSiblings.reverse⟩
      concludes top expected

def describe (proof : RangeProof kind) : String :=
  "AccumulatorRangeProof \x7b left_siblings: " ++ Digest.describeAll proof.leftSiblings ++
    ", right_siblings: " ++ Digest.describeAll proof.rightSiblings ++ " \x7d"

def format : Format (RangeProof kind) :=
  (Fields.field "left_siblings" .required (.list Digest.format) <|
    .last "right_siblings" .required (.list Digest.format)).record
    (fun proof => (proof.leftSiblings, proof.rightSiblings)) (fun (left, right) => ⟨left, right⟩)

end RangeProof
end VerifiedLedger
