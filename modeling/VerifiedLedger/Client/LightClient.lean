import VerifiedLedger.Client.Consistency
import VerifiedLedger.Client.SavedState
import VerifiedLedger.Trust.EpochChain
/-! # The light client

A client is what it trusts and the accumulator of the ledger up to where it got. An update moves it
forward only if every check succeeds: a chain of epochs where one is needed, the signatures
of the ledger info, a version that is not older, and consistency with what is known.
-/
namespace VerifiedLedger

structure LedgerUpdate where
  ledgerInfo : SignedLedgerInfo
  epochChain : Option EpochChain
  consistency : ConsistencyProof
deriving DecidableEq

def LedgerUpdate.format : Format LedgerUpdate :=
  (Fields.field "ledger_info_with_sigs" .required SignedLedgerInfo.format <|
    .field "validator_change_proof" .optional (.option EpochChain.format) <|
    .last "ledger_consistency_proof" .required ConsistencyProof.format).record
    (fun u => (u.ledgerInfo, u.epochChain, u.consistency))
    (fun (ledgerInfo, chain, consistency) => ⟨ledgerInfo, chain, consistency⟩)

structure LightClient where
  anchor : TrustAnchor
  accumulator : Accumulator .transaction
deriving DecidableEq

namespace LightClient

def start (anchor : TrustAnchor) : LightClient := ⟨anchor, .empty⟩

def lastVersion? (c : LightClient) : Option Nat := c.accumulator.lastVersion?

def progress? (c : LightClient) : Option Progress := Progress.ofAccumulator? c.accumulator

def state (c : LightClient) : SavedState := .save c.anchor c.accumulator

def ofState (s : SavedState) : Except ClientError LightClient := do
  let anchor ← s.anchor
  let accumulator ← s.accumulator
  return ⟨anchor, accumulator⟩

/-- The anchor that can vouch for an update: the client's own, or the verifier to which the update's
chain leads. -/
def anchorFor (c : LightClient) (u : LedgerUpdate) : Except ClientError TrustAnchor :=
  let epoch := u.ledgerInfo.ledgerInfo.epoch
  if c.anchor.needsHandover epoch then
    match u.epochChain with
    | none => .error (.needsHandover epoch)
    | some chain =>
      match chain.verify c.anchor with
      | .ok handover => .ok (.validators handover.verifier)
      | .error e => .error (.trust e)
  else .ok c.anchor

def checkNotStale (c : LightClient) (l : LedgerInfo) : Except ClientError Unit :=
  match c.lastVersion? with
  | none => .ok ()
  | some known =>
    if l.version.toNat < known then .error (.staleLedger known l.version.toNat) else .ok ()

def update (c : LightClient) (u : LedgerUpdate) :
    Except ClientError (LightClient × LedgerInfo) := do
  let ledgerInfo := u.ledgerInfo.ledgerInfo
  let anchor ← c.anchorFor u
  (anchor.verify u.ledgerInfo).mapError .trust
  c.checkNotStale ledgerInfo
  let accumulator ← (u.consistency.extend c.accumulator ledgerInfo).mapError .proof
  return (⟨anchor, accumulator⟩, ledgerInfo)

def adopt (c : LightClient) (version : UInt64) (subtrees : List Digest) :
    Except ClientError LightClient := do
  let accumulator ← (Progress.mk version subtrees).toAccumulator
  return { c with accumulator := accumulator }

end LightClient

inductive Operation where
  | update (u : LedgerUpdate)
  | adopt (version : UInt64) (subtrees : List Digest)
  /-- Asks for a state to be saved. -/
  | save
  /-- Asks how far the client got. -/
  | report
  /-- Saves the client and goes on with the saved state. -/
  | reload
  /-- Goes on with the state in the text. -/
  | restore (text : String)

inductive Outcome where
  | advanced (ledgerInfo : LedgerInfo)
  | saved (state : SavedState)
  | reached (progress : Option Progress)
  | done

namespace LightClient

def run (c : LightClient) : Operation → Except ClientError (LightClient × Outcome)
  | .update u => do
    let (next, ledgerInfo) ← c.update u
    return (next, .advanced ledgerInfo)
  | .adopt version subtrees => do
    let next ← c.adopt version subtrees
    return (next, .done)
  | .save => .ok (c, .saved c.state)
  | .report => .ok (c, .reached c.progress?)
  | .reload => do
    let state ← SavedState.ofText c.state.toText
    let next ← ofState state
    return (next, .done)
  | .restore text => do
    let state ← SavedState.ofText text
    let next ← ofState state
    return (next, .done)

/-- The client after an operation and what it answers. One that fails changes nothing. -/
def perform (c : LightClient) (op : Operation) : LightClient × Except ClientError Outcome :=
  match c.run op with
  | .ok (next, outcome) => (next, .ok outcome)
  | .error e => (c, .error e)

/-- The client after some operations, whether they succeed or not. -/
def after (c : LightClient) (ops : List Operation) : LightClient :=
  ops.foldl (fun client op => (client.perform op).1) c

end LightClient
end VerifiedLedger
