import VerifiedLedger.Trust.Anchor
/-! # Chains of epochs

A chain holds the ledger infos that end some epochs in a row. The anchor vouches for the first, and
each announces the validators who vouch for the next, so that trust is handed over from epoch to
epoch.
-/
namespace VerifiedLedger

structure EpochChain where
  ledgerInfos : List SignedLedgerInfo
  /-- Whether the chain goes on beyond what was sent. -/
  more : Bool
deriving DecidableEq

structure Handover where
  ledgerInfo : LedgerInfo
  verifier : EpochVerifier
deriving DecidableEq

/-- The epoch after that one; the last epoch there is comes after itself. -/
def nextEpoch (epoch : UInt64) : UInt64 :=
  if epoch.toNat + 1 < UInt64.size then epoch + 1 else epoch

namespace Handover

def step (anchor : TrustAnchor) (l : SignedLedgerInfo) : Except TrustError Handover := do
  anchor.verify l
  match l.ledgerInfo.nextValidators with
  | none => throw (.noNextValidators l.ledgerInfo.epoch l.ledgerInfo.version)
  | some next =>
    let verifier ← EpochVerifier.ofSet next (nextEpoch l.ledgerInfo.epoch)
    return ⟨l.ledgerInfo, verifier⟩

/-- Goes on along the rest of a chain, whose epochs have to increase. -/
def follow (reached : Handover) : List SignedLedgerInfo → Except TrustError Handover
  | [] => .ok reached
  | l :: rest =>
    if l.ledgerInfo.epoch ≤ reached.ledgerInfo.epoch then
      .error (.epochNotLater reached.ledgerInfo.epoch l.ledgerInfo.epoch)
    else do
      let next ← step (.validators reached.verifier) l
      next.follow rest

end Handover

namespace EpochChain

def isEmpty (chain : EpochChain) : Bool := chain.ledgerInfos.isEmpty

def verify (chain : EpochChain) (anchor : TrustAnchor) : Except TrustError Handover :=
  match chain.ledgerInfos with
  | [] => .error .emptyChain
  | first :: rest => do (← Handover.step anchor first).follow rest

def format : Format EpochChain :=
  (Fields.field "ledger_info_with_sigs" .required (.list SignedLedgerInfo.format) <|
    .last "more" .required .bool).record
    (fun chain => (chain.ledgerInfos, chain.more)) (fun (ledgerInfos, more) => ⟨ledgerInfos, more⟩)

end EpochChain
end VerifiedLedger
