import VerifiedLedger.Tree.Error
import VerifiedLedger.Bytes.Bits
/-! # Forests

The full subtrees of an append-only tree, kept as their roots. A node may be anything that two nodes
can be joined to: a digest where an accumulator is kept, a term where its hashes are looked at.
Operations check what they are given and never change a forest in part; that a forest has one
subtree for every one bit of its leaf count is nowhere assumed.
-/
namespace VerifiedLedger

structure Forest (α : Type) where
  /-- The roots of the full subtrees, the smallest and rightmost one first. -/
  peaks : List α
  leafCount : Nat
deriving DecidableEq

namespace Forest

variable {α : Type}

/-- Leaf indices have 64 bits and leaves fill half of them at most. -/
def maxLeaves : Nat := 1 <<< 63

def merge (node : α → α → α) : (count : Nat) → (current : α) → List α → Option (List α)
  | 0, current, peaks => some (current :: peaks)
  | _ + 1, _, [] => none
  | count + 1, current, left :: peaks => merge node count (node left current) peaks

/-- Hashes the peaks together from the right. Each bit of `bitmap` is a level: a one takes the next
peak to the left, a zero a placeholder to the right. -/
def foldPeaks (node : α → α → α) (placeholder : α) (bitmap : Nat) (peaks : List α)
    (current : α) : α :=
  if bitmap = 0 then current
  else if bitmap % 2 = 1 then
    match peaks with
    | [] => current
    | peak :: rest => foldPeaks node placeholder (bitmap / 2) rest (node peak current)
  else foldPeaks node placeholder (bitmap / 2) peaks (node current placeholder)
termination_by bitmap

def empty : Forest α := ⟨[], 0⟩

/-- The root of the tree, padded with placeholders on its right. -/
def root (node : α → α → α) (placeholder : α) (f : Forest α) : α :=
  match f.peaks with
  | [] => placeholder
  | [only] => only
  | peaks =>
    foldPeaks node placeholder (f.leafCount >>> Bits.trailingZeros f.leafCount) peaks placeholder

/-- Adds a full subtree of `size` leaves, where subtrees of that size begin, and merges every
subtree that it completes: one for each trailing one bit of the count of such subtrees. -/
def addBlock (node : α → α → α) (f : Forest α) (size : Nat) (block : α) : Option (Forest α) :=
  match merge node (Bits.trailingOnes (f.leafCount / size)) block f.peaks with
  | none => none
  | some peaks => some ⟨peaks, f.leafCount + size⟩

def append (node : α → α → α) (f : Forest α) (leaf : α) : Except ProofError (Forest α) :=
  if maxLeaves ≤ f.leafCount then .error (.tooManyLeaves f.leafCount 1 maxLeaves)
  else
    match f.addBlock node 1 leaf with
    | none =>
      .error (.invalidState
        (.tooFewPeaks f.leafCount (Bits.trailingOnes f.leafCount) f.peaks.length))
    | some next => .ok next

def appendAll (node : α → α → α) (f : Forest α) : List α → Except ProofError (Forest α)
  | [] => .ok f
  | leaf :: leaves => do (← f.append node leaf).appendAll node leaves

def ofLeaves (node : α → α → α) (leaves : List α) : Except ProofError (Forest α) :=
  empty.appendAll node leaves

structure Filling (α : Type) where
  forest : Forest α
  remaining : Nat
  subtrees : List α
deriving DecidableEq

/-- Appends subtrees of the size of the smallest peak as long as so many leaves remain. Each of them
completes a subtree, which may complete others; `newLeaves` is the count that was asked for. -/
def fill (node : α → α → α) (newLeaves : Nat) (f : Forest α) (remaining : Nat)
    (subtrees : List α) : Except ProofError (Filling α) :=
  let size := 1 <<< Bits.trailingZeros f.leafCount
  if f.leafCount = 0 ∨ remaining < size then .ok ⟨f, remaining, subtrees⟩
  else
    match subtrees with
    | [] => .error (.tooFewSubtrees newLeaves)
    | subtree :: rest =>
      match f.addBlock node size subtree with
      | none => .error (.invalidState (.peaksRanOut f.leafCount))
      | some next => fill node newLeaves next (remaining - size) rest

/-- Takes the subtrees that are left as peaks, one for every one bit of what remains. -/
def Filling.settle (newLeaves : Nat) (filled : Filling α) : Except ProofError (Forest α) :=
  let needed := Bits.ones filled.remaining
  if filled.subtrees.length < needed then .error (.tooFewSubtrees newLeaves)
  else if needed < filled.subtrees.length then
    .error (.tooManySubtrees newLeaves (filled.subtrees.length - needed))
  else
    .ok ⟨filled.subtrees.reverse ++ filled.forest.peaks,
      filled.forest.leafCount + filled.remaining⟩

/-- Appends leaves given as the roots of the full subtrees that they form in the tree, from left to
right. The first ones fill up the peaks; the rest become peaks themselves. -/
def appendSubtrees (node : α → α → α) (f : Forest α) (subtrees : List α) (newLeaves : Nat) :
    Except ProofError (Forest α) :=
  if maxLeaves - f.leafCount < newLeaves then
    .error (.tooManyLeaves f.leafCount newLeaves maxLeaves)
  else if newLeaves = 0 then
    if subtrees.isEmpty then .ok f else .error (.tooManySubtrees 0 subtrees.length)
  else do (← fill node newLeaves f newLeaves subtrees).settle newLeaves

end Forest
end VerifiedLedger
