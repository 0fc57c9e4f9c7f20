import VerifiedLedger.Accumulator.Basic
import VerifiedLedger.Ledger.LedgerInfo
/-! # Consistency proofs

The full subtrees of the transactions between a known accumulator and a new ledger info. Extending
the accumulator by them and meeting the new root shows that the ledger only grew.
-/
namespace VerifiedLedger

structure ConsistencyProof where
  subtrees : List Digest
deriving DecidableEq

namespace ConsistencyProof

def format : Format ConsistencyProof :=
  (Fields.last "subtrees" .required (.list Digest.format)).record
    ConsistencyProof.subtrees (⟨·⟩)

def extend (proof : ConsistencyProof) (known : Accumulator .transaction) (trusted : LedgerInfo) :
    Except ProofError (Accumulator .transaction) :=
  let version := trusted.version.toNat
  let target := version + 1
  if UInt64.size ≤ target then .error (.invalidState (.noLeafCount version))
  else if target < known.leafCount then
    .error (.invalidState (.ledgerBehind target known.leafCount))
  else do
    let extended ← known.appendSubtrees proof.subtrees (target - known.leafCount)
    let computed := extended.root
    if computed = trusted.accumulatorRoot then return extended
    else throw (.wrongRoot computed trusted.accumulatorRoot)

end ConsistencyProof
end VerifiedLedger
