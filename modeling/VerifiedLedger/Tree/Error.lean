import VerifiedLedger.Hash.Digest
/-! # Faults of tree proofs

One cause for each check that an accumulator, a proof or a compressed sibling list can fail.
-/
namespace VerifiedLedger

inductive InvalidState where
  | wrongPeakCount (leaves expected got : Nat)
  | tooFewPeaks (leaves merges available : Nat)
  | peaksRanOut (leaves : Nat)
  /-- The version is the last one there is, so that one more than it is no count of leaves. -/
  | noLeafCount (version : Nat)
  | ledgerBehind (leaves known : Nat)
deriving DecidableEq, Repr

inductive BitmapFault where
  | countMismatch (ones given : Nat)
  | tooLong (bytes : Nat)
  | trailingZero
deriving DecidableEq, Repr

inductive Side where
  | left
  | right
deriving DecidableEq, Repr

inductive ProofError where
  | invalidState (cause : InvalidState)
  | tooManyLeaves (existing new max : Nat)
  | tooFewSubtrees (newLeaves : Nat)
  | tooManySubtrees (newLeaves extra : Nat)
  | wrongRoot (computed expected : Digest)
  | tooManySiblings (got max : Nat)
  | indexTooLarge (index depth : Nat)
  | leftoverSiblings (unused : Nat)
  | badBitmap (cause : BitmapFault)
  | leafOffPath (commonBits siblings : Nat)
  | keyPresent (key : Digest)
  | noLeaf
  | otherLeaf
  | siblingsOfNothing (left right : Nat)
  | missingSibling (side : Side) (level : Nat)
  | badFrontier (size : Nat)
  | rangeTooLong (first length : Nat)
deriving DecidableEq

def InvalidState.message : InvalidState → String
  | .wrongPeakCount leaves expected got =>
    toString leaves ++ " leaves need " ++ toString expected ++ " frozen subtrees, got " ++
      toString got
  | .tooFewPeaks leaves merges available =>
    "appending leaf " ++ toString leaves ++ " needs " ++ toString merges ++ " merges but only " ++
      toString available ++ " frozen subtrees exist"
  | .peaksRanOut leaves => toString leaves ++ " leaves but frozen subtrees ran out"
  | .noLeafCount version => "ledger version " ++ toString version ++ " has no leaf count"
  | .ledgerBehind leaves known =>
    "ledger has " ++ toString leaves ++ " leaves but " ++ toString known ++ " are already known"

def BitmapFault.message : BitmapFault → String
  | .countMismatch ones given =>
    "bitmap has " ++ toString ones ++ " set bits but " ++ toString given ++
      " non-default siblings were given"
  | .tooLong bytes => "bitmap has " ++ toString bytes ++ " bytes, at most 32 allowed"
  | .trailingZero => "bitmap ends with a zero byte"

def Side.name : Side → String
  | .left => "left"
  | .right => "right"

def ProofError.message : ProofError → String
  | .invalidState cause => "Invalid accumulator state: " ++ cause.message
  | .tooManyLeaves existing new max =>
    "Too many leaves: " ++ toString existing ++ " existing + " ++ toString new ++
      " new exceeds the maximum of " ++ toString max
  | .tooFewSubtrees newLeaves => "Too few subtrees to cover " ++ toString newLeaves ++ " new leaves"
  | .tooManySubtrees newLeaves extra =>
    "Too many subtrees: " ++ toString extra ++ " left over after covering " ++ toString newLeaves ++
      " new leaves"
  | .wrongRoot computed expected =>
    "Proof verification failed: computed root " ++ computed.toHex ++
      " does not match expected root " ++ expected.toHex
  | .tooManySiblings got max =>
    "Proof has " ++ toString got ++ " siblings, more than the maximum of " ++ toString max
  | .indexTooLarge index depth =>
    "Leaf index " ++ toString index ++ " does not fit a proof of depth " ++ toString depth
  | .leftoverSiblings unused =>
    "Range proof has " ++ toString unused ++ " siblings left over after reaching the root"
  | .badBitmap cause => "Malformed sibling bitmap: " ++ cause.message
  | .leafOffPath commonBits siblings =>
    "Adjacent leaf shares only " ++ toString commonBits ++
      " bits with the key but the proof has " ++ toString siblings ++ " siblings"
  | .keyPresent key =>
    "Key " ++ key.toHex ++ " exists in the proof, cannot prove non-inclusion"
  | .noLeaf => "Proof carries no leaf, cannot prove inclusion"
  | .otherLeaf => "Proof leaf does not match the element being proven"
  | .siblingsOfNothing left right =>
    "Empty range must come with empty sibling lists, got " ++ toString left ++ " left and " ++
      toString right ++ " right siblings"
  | .missingSibling side level =>
    "Range proof is missing a " ++ side.name ++ " sibling at level " ++ toString level
  | .badFrontier size =>
    "Range proof frontier has " ++ toString size ++
      " hashes where a pairwise fold needs an even count ending in one"
  | .rangeTooLong first length =>
    "Range from index " ++ toString first ++ " with " ++ toString length ++
      " leaves overflows the leaf index space"

end VerifiedLedger
