import VerifiedLedger.Accumulator.Basic
import VerifiedLedger.Tree.Siblings
import VerifiedLedger.Format.Hex
import VerifiedLedger.Format.Record
/-! # Proofs of one leaf

The siblings on the way from the root down to a leaf, placeholders included.
-/
namespace VerifiedLedger

structure LeafProof (kind : AccumulatorKind) where
  siblings : List Digest
deriving DecidableEq

namespace LeafProof

variable {kind : AccumulatorKind}

def maxDepth : Nat := 64

/-- Expands the compressed form: the bits of `bitmap` below its leading zeros, a one for each
sibling that is given and a zero for each placeholder. -/
def ofCompressed (bitmap : UInt64) (given : List Digest) : Except ProofError (LeafProof kind) :=
  let path := BitPath.ofIndex bitmap
  if path.ones ≠ given.length then
    .error (.badBitmap (.countMismatch path.ones given.length))
  else
    .ok ⟨expandSiblings .accumulatorPlaceholder (path.toList.drop path.leadingZeros) given⟩

/-- Checks that `leaf` is the leaf at `index` of the accumulator with root `expected`. An index with
bits above the depth of the proof is refused, because those bits would not be looked at. -/
def verify (proof : LeafProof kind) (index : Nat) (leaf expected : Digest) :
    Except ProofError Unit :=
  let depth := proof.siblings.length
  if maxDepth < depth then .error (.tooManySiblings depth maxDepth)
  else if index >>> depth ≠ 0 then .error (.indexTooLarge index depth)
  else
    let computed := climb kind.node leaf (indexSteps index proof.siblings.reverse)
    if computed = expected then .ok () else .error (.wrongRoot computed expected)

def describe (proof : LeafProof kind) : String :=
  "AccumulatorProof \x7b siblings: " ++ Digest.describeAll proof.siblings ++ " \x7d"

def format : Format (LeafProof kind) :=
  (Fields.last "siblings" .required (.list Digest.format)).record
    (fun proof => proof.siblings) (fun siblings => ⟨siblings⟩)

end LeafProof
end VerifiedLedger
