import VerifiedLedger.Accumulator.Basic
import VerifiedLedger.Client.Error
import VerifiedLedger.Json.Parser
import VerifiedLedger.Json.Printer
import VerifiedLedger.Trust.Anchor
/-! # Saved states

How far a client got and what it trusts, in a form that can be written down. `save` describes a
client's anchor and accumulator; `anchor` and `accumulator` restore them and check what they read.
-/
namespace VerifiedLedger

structure Progress where
  lastVersion : UInt64
  subtrees : List Digest
deriving DecidableEq

namespace Progress

def format : Format Progress :=
  (Fields.field "known_version" .required .word <|
    .last "frozen_subtree_roots" .required (.list Digest.format)).record
    (fun known => (known.lastVersion, known.subtrees))
    (fun (version, subtrees) => ⟨version, subtrees⟩)

/-- There is nothing to save about an accumulator without leaves. -/
def ofAccumulator? (a : Accumulator .transaction) : Option Progress :=
  a.lastVersion?.map fun version => ⟨UInt64.ofNat version, a.subtrees⟩

def toAccumulator (known : Progress) : Except ClientError (Accumulator .transaction) :=
  let version := known.lastVersion.toNat
  if UInt64.size ≤ version + 1 then .error (.invalidState (.versionOutOfRange version))
  else
    match Accumulator.ofSubtrees known.subtrees (version + 1) with
    | .ok a => .ok a
    | .error e => .error (.invalidState (.accumulator e))

end Progress

/-- Everything that a client needs to go on. Trust comes from a validator set with its epoch, from a
waypoint in text form, or from the word `insecure` in place of a waypoint. -/
structure SavedState where
  waypoint : Option String
  validatorSet : Option ValidatorSet
  epoch : UInt64
  lastVersion : Option UInt64
  subtrees : List Digest
deriving DecidableEq

namespace SavedState

/-- What stands for a waypoint in the state of a client that trusts everything. -/
def insecureWord : String := "insecure"

def format : Format SavedState :=
  (Fields.field "waypoint" .sparse (.option .text) <|
    .field "validator_set" .sparse (.option ValidatorSet.format) <|
    .field "epoch" (.withDefault 0) .word <|
    .field "known_version" .sparse (.option .word) <|
    .last "subtrees" (.withDefault []) (.list Digest.format)).record
    (fun s => (s.waypoint, s.validatorSet, s.epoch, s.lastVersion, s.subtrees))
    (fun (waypoint, validators, epoch, version, subtrees) =>
      ⟨waypoint, validators, epoch, version, subtrees⟩)

def ofText (text : String) : Except ClientError SavedState :=
  match (Json.parse text).bind (format.ofJson Format.nestingLimit) with
  | some s => .ok s
  | none => .error .json

/-- The state as indented JSON. -/
def toText (s : SavedState) : String :=
  match format.toJson s with
  | some j => j.render .pretty
  | none => ""

def save (anchor : TrustAnchor) (a : Accumulator .transaction) : SavedState :=
  let known := Progress.ofAccumulator? a
  let version := known.map Progress.lastVersion
  let subtrees := (known.map Progress.subtrees).getD []
  match anchor with
  | .validators v => ⟨none, some v.validators, v.epoch, version, subtrees⟩
  | .waypoint w => ⟨some w.toText, none, 0, version, subtrees⟩
  | .insecure => ⟨some insecureWord, none, 0, version, subtrees⟩

/-- The anchor of a state. A validator set comes before a waypoint. -/
def anchor (s : SavedState) : Except ClientError TrustAnchor :=
  match s.validatorSet, s.waypoint with
  | some set, _ =>
    match EpochVerifier.ofSet set s.epoch with
    | .ok v => .ok (.validators v)
    | .error e => .error (.invalidState (.validators e))
  | none, some text =>
    if text = insecureWord then .ok .insecure
    else
      match Waypoint.ofText text with
      | .ok w => .ok (.waypoint w)
      | .error fault => .error (.invalidState (.waypoint fault))
  | none, none => .error (.invalidState .noAnchor)

def accumulator (s : SavedState) : Except ClientError (Accumulator .transaction) :=
  match s.lastVersion with
  | some version => (Progress.mk version s.subtrees).toAccumulator
  | none =>
    if s.subtrees.isEmpty then .ok .empty
    else .error (.invalidState (.subtreesWithoutVersion s.subtrees.length))

end SavedState
end VerifiedLedger
