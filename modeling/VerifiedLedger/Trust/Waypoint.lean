import VerifiedLedger.Ledger.LedgerInfo
import VerifiedLedger.Text.Decimal
/-! # Waypoints

A waypoint names one ledger info by its version and a hash. The hash leaves out what only consensus
knows (round, block and data hash), so that everyone who has the ledger can compute it. The text
form is the version, a colon and the hash.
-/
namespace VerifiedLedger

structure Waypoint where
  version : UInt64
  value : Digest
deriving DecidableEq

namespace Waypoint

inductive HashFault where
  | wrongLength (got : Nat)
  | badDigest (fault : Digest.Fault)
deriving DecidableEq, Repr

inductive Fault where
  | missingSeparator
  | badVersion (fault : Decimal.Fault)
  | badHash (fault : HashFault)
deriving DecidableEq, Repr

def HashFault.message : HashFault → String
  | .wrongLength got => "expected 64 hex characters, got " ++ toString got
  | .badDigest fault => fault.message

def Fault.message : Fault → String
  | .missingSeparator => "Waypoint is missing the ':' separator"
  | .badVersion fault => "Invalid waypoint version: " ++ fault.message
  | .badHash fault => "Invalid waypoint hash: " ++ fault.message

def toText (w : Waypoint) : String := toString w.version.toNat ++ ":" ++ w.value.toHex

/-- The hash part of the text, which is measured in bytes. -/
def readHash (chars : List Char) : Except HashFault Digest :=
  let length := (Utf8.encodeChars chars).length
  if length ≠ 64 then .error (.wrongLength length)
  else
    match Digest.ofHex (String.ofList chars) with
    | .ok d => .ok d
    | .error fault => .error (.badDigest fault)

def splitAtColon : List Char → Option (List Char × List Char)
  | [] => none
  | c :: rest =>
    if c = ':' then some ([], rest)
    else (splitAtColon rest).map fun (before, after) => (c :: before, after)

/-- Reads the text form: the separator is looked for first, then the version is read, then the
hash. -/
def ofText (text : String) : Except Fault Waypoint :=
  match splitAtColon text.toList with
  | none => .error .missingSeparator
  | some (version, hash) =>
    match Decimal.read version with
    | .error fault => .error (.badVersion fault)
    | .ok n =>
      match readHash hash with
      | .error fault => .error (.badHash fault)
      | .ok value => .ok ⟨UInt64.ofNat n, value⟩

def format : Format Waypoint :=
  Format.text.refine
    (fun text =>
      match ofText text with
      | .ok w => .ok w
      | .error fault => .error fault.message)
    toText

/-- What a waypoint commits to, in the order in which it is hashed: epoch, accumulator root,
version, timestamp and next validator set. -/
def commitment : Format (UInt64 × Digest × UInt64 × UInt64 × Option ValidatorSet) :=
  .pair .word <| .pair Digest.format <| .pair .word <| .pair .word <| .option ValidatorSet.format

def ofLedgerInfo (l : LedgerInfo) : Waypoint :=
  ⟨l.version, commitment.hash .waypoint
    (l.epoch, l.accumulatorRoot, l.version, l.timestampUsecs, l.nextValidators)⟩

end Waypoint
end VerifiedLedger
