import VerifiedLedger.Hash.Domain
import VerifiedLedger.Tree.Error
import VerifiedLedger.Tree.Siblings
import VerifiedLedger.Format.Hex
import VerifiedLedger.Format.Record
/-! # Sparse Merkle proofs

The state tree has a place for every 256-bit key. A subtree with one leaf is that leaf, and an empty
one a placeholder, so that a proof ends at the first level where its key is alone or absent. The
siblings run from the root down to there.
-/
namespace VerifiedLedger

structure SparseLeaf where
  key : Digest
  valueHash : Digest
deriving DecidableEq

namespace SparseLeaf

def hash (leaf : SparseLeaf) : Digest := Domain.sparseLeaf.hashPair leaf.key leaf.valueHash

def format : Format SparseLeaf :=
  (Fields.field "key" .required Digest.format <|
    .last "value_hash" .required Digest.format).record
    (fun leaf => (leaf.key, leaf.valueHash)) (fun (key, valueHash) => ⟨key, valueHash⟩)

end SparseLeaf

def sparseNode (left right : Digest) : Digest := Domain.sparseInternal.hashPair left right

structure SparseProof where
  leaf : Option SparseLeaf
  siblings : List Digest
deriving DecidableEq

namespace SparseProof

def maxDepth : Nat := 256

/-- Expands the compressed form. Bit `i` of the bitmap says whether the sibling at depth `i` is
given; the depth ends at the last one bit, and the bitmap at the byte that holds it. -/
def ofCompressed (leaf : Option SparseLeaf) (bitmap : List UInt8) (given : List Digest) :
    Except ProofError SparseProof :=
  if Digest.size < bitmap.length then .error (.badBitmap (.tooLong bitmap.length))
  else if bitmap.getLast? = some 0 then .error (.badBitmap .trailingZero)
  else
    let path := BitPath.ofBytes bitmap
    if path.ones ≠ given.length then
      .error (.badBitmap (.countMismatch path.ones given.length))
    else
      let depth := path.capacity - path.trailingZeros
      .ok ⟨leaf, expandSiblings .sparsePlaceholder (path.toList.take depth) given⟩

/-- The steps from the depth of the siblings up to the root along the path of `key`. -/
def steps (key : Digest) (siblings : List Digest) : List (Bool × Digest) :=
  (key.path.toList.take siblings.length).reverse.zip siblings.reverse

/-- Checks that the node `start` at the end of the siblings leads to the root along `key`. -/
def walk (siblings : List Digest) (key start expected : Digest) : Except ProofError Unit :=
  if maxDepth < siblings.length then .error (.tooManySiblings siblings.length maxDepth)
  else
    let computed := climb sparseNode start (steps key siblings)
    if computed = expected then .ok () else .error (.wrongRoot computed expected)

def verifyPresent (proof : SparseProof) (element : SparseLeaf) (expected : Digest) :
    Except ProofError Unit :=
  match proof.leaf with
  | none => .error .noLeaf
  | some leaf =>
    if leaf ≠ element then .error .otherLeaf
    else walk proof.siblings element.key leaf.hash expected

/-- Checks that no leaf of the tree with root `expected` has `key`: where its path ends there is
nothing, or another leaf whose path is the same so far. -/
def verifyAbsent (proof : SparseProof) (key expected : Digest) : Except ProofError Unit :=
  match proof.leaf with
  | none => walk proof.siblings key .sparsePlaceholder expected
  | some leaf =>
    let commonBits := key.commonPrefixBits leaf.key
    if leaf.key = key then .error (.keyPresent key)
    else if commonBits < proof.siblings.length then
      .error (.leafOffPath commonBits proof.siblings.length)
    else walk proof.siblings key leaf.hash expected

def format : Format SparseProof :=
  (Fields.field "leaf" .optional (.option SparseLeaf.format) <|
    .last "siblings" .required (.list Digest.format)).record
    (fun proof => (proof.leaf, proof.siblings)) (fun (leaf, siblings) => ⟨leaf, siblings⟩)

end SparseProof
end VerifiedLedger
