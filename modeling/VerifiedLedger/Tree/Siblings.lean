/-! # Paths of siblings

A proof hashes from a node up to the root, taking one sibling a level. On the wire, siblings that
are the placeholder of an empty subtree are left out and a bitmap says where they belong.
-/
namespace VerifiedLedger

variable {α : Type}

/-- Hashes up from `current`; the flag of a step says whether the current node is a right child. -/
def climb (node : α → α → α) (current : α) : List (Bool × α) → α
  | [] => current
  | (isRight, sibling) :: steps =>
    climb node (if isRight then node sibling current else node current sibling) steps

/-- The steps of a leaf index, whose lowest bit belongs to the leaf level. The siblings come from
the leaf level up. -/
def indexSteps : (index : Nat) → List α → List (Bool × α)
  | _, [] => []
  | index, sibling :: siblings => (index % 2 == 1, sibling) :: indexSteps (index / 2) siblings

/-- Puts the placeholder back where the bitmap has a zero. -/
def expandSiblings (placeholder : α) : List Bool → List α → List α
  | [], _ => []
  | false :: bits, siblings => placeholder :: expandSiblings placeholder bits siblings
  | true :: bits, sibling :: siblings => sibling :: expandSiblings placeholder bits siblings
  | true :: bits, [] => expandSiblings placeholder bits []

end VerifiedLedger
