import VerifiedLedger.Ledger.Account
import VerifiedLedger.Ledger.LedgerInfo
import VerifiedLedger.Ledger.Transaction
import VerifiedLedger.Proofs.Ledger.StructTag
/-! # Encodings of ledger records

Two records are written alike only if they are the same. A record that holds lists is written
faithfully if each of them is shorter than the lengths that eight bytes can hold. Records without
maps have one written form.
-/
namespace VerifiedLedger
open Format (readsBack_word readsBack_bool readsBack_bytes canonical_word canonical_bool
  canonical_bytes)
open Variants (readsBack_lastBare canonical_lastBare)

namespace AccessPath

def Fits (a : AccessPath) : Prop := a.path.length < UInt64.size

theorem Fits.readsBack {a : AccessPath} (h : a.Fits) : AccessPath.format.ReadsBack a :=
  .record rfl <| .field rfl (Address.readsBack _) <| .last rfl (readsBack_bytes h)

theorem canonical : AccessPath.format.Canonical AccessPath.Fits :=
  .record (fun _ => rfl) (fun _ => And.right) <| .field (fun _ => rfl) Address.canonical <|
    .last (fun _ => rfl) canonical_bytes

end AccessPath

namespace EventKey

def Fits (k : EventKey) : Prop := k.bytes.length < UInt64.size

theorem Fits.readsBack {k : EventKey} (h : k.Fits) : EventKey.format.ReadsBack k :=
  .map rfl (readsBack_bytes h)

theorem canonical : EventKey.format.Canonical EventKey.Fits :=
  .map (fun _ => rfl) (fun _ => id) canonical_bytes

end EventKey

namespace EventHandle

def Fits (e : EventHandle) : Prop := e.key.Fits

theorem Fits.readsBack {e : EventHandle} (h : e.Fits) : EventHandle.format.ReadsBack e :=
  .record rfl <| .field rfl (readsBack_word _) <| .last rfl (EventKey.Fits.readsBack h)

theorem canonical : EventHandle.format.Canonical EventHandle.Fits :=
  .record (fun _ => rfl) (fun _ => And.right) <| .field (fun _ => rfl) canonical_word <|
    .last (fun _ => rfl) EventKey.canonical

end EventHandle

namespace ContractEvent

structure Fits (e : ContractEvent) : Prop where
  key : e.key.bytes.length < UInt64.size
  data : e.data.length < UInt64.size

theorem Fits.readsBack_fieldsV0 {e : ContractEvent} (h : e.Fits) :
    ContractEvent.fieldsV0.ReadsBack e :=
  .record rfl <| .field rfl (EventKey.Fits.readsBack h.key) <| .field rfl (readsBack_word _) <|
    .last rfl (readsBack_bytes h.data)

theorem canonical_fieldsV0 : ContractEvent.fieldsV0.Canonical ContractEvent.Fits :=
  .record (fun _ => rfl) (fun _ ⟨hkey, _, hdata⟩ => ⟨hkey, hdata⟩) <|
    .field (fun _ => rfl) EventKey.canonical <| .field (fun _ => rfl) canonical_word <|
    .last (fun _ => rfl) canonical_bytes

theorem Fits.readsBack {e : ContractEvent} (h : e.Fits) : ContractEvent.format.ReadsBack e :=
  .variants (by decide) rfl (.last h.readsBack_fieldsV0)

theorem canonical : ContractEvent.format.Canonical ContractEvent.Fits :=
  .variants (fun _ => rfl) (fun _ => id) (.last canonical_fieldsV0)

end ContractEvent

namespace AccountResource

structure Fits (r : AccountResource) : Prop where
  authenticationKey : r.authenticationKey.length < UInt64.size
  receivedEvents : r.receivedEvents.Fits
  sentEvents : r.sentEvents.Fits

theorem Fits.readsBack {r : AccountResource} (h : r.Fits) : AccountResource.format.ReadsBack r :=
  .record rfl <| .field rfl (readsBack_bytes h.authenticationKey) <|
    .field rfl (readsBack_word _) <| .field rfl h.receivedEvents.readsBack <|
    .field rfl h.sentEvents.readsBack <| .last rfl (readsBack_word _)

theorem canonical : AccountResource.format.Canonical AccountResource.Fits :=
  .record (fun _ => rfl) (fun _ ⟨hkey, _, hreceived, hsent, _⟩ => ⟨hkey, hreceived, hsent⟩) <|
    .field (fun _ => rfl) canonical_bytes <| .field (fun _ => rfl) canonical_word <|
    .field (fun _ => rfl) EventHandle.canonical <| .field (fun _ => rfl) EventHandle.canonical <|
    .last (fun _ => rfl) canonical_word

end AccountResource

namespace StateBlob

def Fits (b : StateBlob) : Prop := b.bytes.length < UInt64.size

theorem Fits.readsBack {b : StateBlob} (h : b.Fits) : StateBlob.format.ReadsBack b :=
  .map rfl (readsBack_bytes h)

theorem canonical : StateBlob.format.Canonical StateBlob.Fits :=
  .map (fun _ => rfl) (fun _ => id) canonical_bytes

end StateBlob

structure ResourceMap.Fits (b : ResourceMap) : Prop where
  length : b.resources.entries.length < UInt64.size
  paths : ∀ entry ∈ b.resources.entries, entry.1.length < UInt64.size
  resources : ∀ entry ∈ b.resources.entries, entry.2.length < UInt64.size

theorem ResourceMap.Fits.readsBack {b : ResourceMap} (h : b.Fits) :
    ResourceMap.format.ReadsBack b :=
  .record rfl <| .last rfl <| .orderedMap <| .list h.length fun entry he =>
    .pair (readsBack_bytes (h.paths entry he)) (readsBack_bytes (h.resources entry he))

namespace TransactionInfo

theorem readsBack (i : TransactionInfo) : TransactionInfo.format.ReadsBack i :=
  .record rfl <| .field rfl (Digest.readsBack _) <| .field rfl (Digest.readsBack _) <|
    .field rfl (Digest.readsBack _) <| .last rfl (readsBack_word _)

theorem canonical : TransactionInfo.format.Canonical fun _ => True :=
  .record (fun _ => rfl) (fun _ _ => trivial) <| .field (fun _ => rfl) Digest.canonical <|
    .field (fun _ => rfl) Digest.canonical <| .field (fun _ => rfl) Digest.canonical <|
    .last (fun _ => rfl) canonical_word

end TransactionInfo

namespace TransactionArgument

def Fits : TransactionArgument → Prop
  | .bytes b => b.length < UInt64.size
  | _ => True

theorem Fits.readsBack {a : TransactionArgument} (h : a.Fits) :
    TransactionArgument.format.ReadsBack a := by
  cases a with
  | u64 n => exact .variants (by decide) rfl (.inl (.last (readsBack_word n)))
  | address a => exact .variants (by decide) rfl (.inr (.inl (.last (Address.readsBack a))))
  | bytes b => exact .variants (by decide) rfl (.inr (.inr (.inl (.last (readsBack_bytes h)))))
  | bool b => exact .variants (by decide) rfl (.inr (.inr (.inr (.last (readsBack_bool b)))))

theorem canonical : TransactionArgument.format.Canonical TransactionArgument.Fits := by
  refine .variants ?_ ?_ <| .orElse (.last canonical_word) <|
    .orElse (.last Address.canonical) <| .orElse (.last canonical_bytes) <| .last canonical_bool
  · rintro (_ | _ | _ | _) <;> rfl
  · rintro (_ | _ | _ | _) h <;> exact h

end TransactionArgument

namespace WriteOp

def Fits : WriteOp → Prop
  | .deletion => True
  | .value bytes => bytes.length < UInt64.size

theorem Fits.readsBack {w : WriteOp} (h : w.Fits) : WriteOp.format.ReadsBack w := by
  cases w with
  | deletion => exact .variants (by decide) rfl (.inl readsBack_lastBare)
  | value bytes => exact .variants (by decide) rfl (.inr (.last (readsBack_bytes h)))

theorem canonical : WriteOp.format.Canonical WriteOp.Fits := by
  refine .variants ?_ ?_ <| .orElse canonical_lastBare <| .last canonical_bytes
  · rintro (_ | _) <;> rfl
  · rintro (_ | _) h <;> exact h

end WriteOp

namespace WriteSet

structure Fits (w : WriteSet) : Prop where
  writes_length : w.writes.length < UInt64.size
  paths : ∀ write ∈ w.writes, write.1.path.length < UInt64.size
  ops : ∀ write ∈ w.writes, write.2.Fits
  events_length : w.events.length < UInt64.size
  events : ∀ event ∈ w.events, event.Fits

theorem Fits.readsBack {w : WriteSet} (h : w.Fits) : WriteSet.format.ReadsBack w :=
  .record rfl <|
    .field rfl (.list h.writes_length fun write hw =>
      .pair (AccessPath.Fits.readsBack (h.paths write hw)) (h.ops write hw).readsBack) <|
    .last rfl (.list h.events_length fun event he => (h.events event he).readsBack)

theorem canonical : WriteSet.format.Canonical WriteSet.Fits :=
  .record (fun _ => rfl)
      (fun _ ⟨⟨hwrites, hall⟩, hevents, hfits⟩ =>
        ⟨hwrites, fun w hw => (hall w hw).1, fun w hw => (hall w hw).2, hevents, hfits⟩) <|
    .field (fun _ => rfl) (.list (.pair AccessPath.canonical WriteOp.canonical)) <|
    .last (fun _ => rfl) (.list ContractEvent.canonical)

end WriteSet

namespace Script

structure Fits (s : Script) : Prop where
  code_length : s.code.length < UInt64.size
  args_length : s.args.length < UInt64.size
  args : ∀ arg ∈ s.args, arg.Fits

theorem Fits.readsBack {s : Script} (h : s.Fits) : Script.format.ReadsBack s :=
  .record rfl <| .field rfl (readsBack_bytes h.code_length) <|
    .last rfl (.list h.args_length fun arg ha => (h.args arg ha).readsBack)

theorem canonical : Script.format.Canonical Script.Fits :=
  .record (fun _ => rfl) (fun _ ⟨hcode, hlength, hargs⟩ => ⟨hcode, hlength, hargs⟩) <|
    .field (fun _ => rfl) canonical_bytes <|
    .last (fun _ => rfl) (.list TransactionArgument.canonical)

end Script

namespace CodeModule

def Fits (m : CodeModule) : Prop := m.code.length < UInt64.size

theorem Fits.readsBack {m : CodeModule} (h : m.Fits) : CodeModule.format.ReadsBack m :=
  .record rfl (.last rfl (readsBack_bytes h))

theorem canonical : CodeModule.format.Canonical CodeModule.Fits :=
  .record (fun _ => rfl) (fun _ => id) (.last (fun _ => rfl) canonical_bytes)

end CodeModule

namespace TransactionPayload

def Fits : TransactionPayload → Prop
  | .writeSet w => w.Fits
  | .script s => s.Fits
  | .codeModule m => m.code.length < UInt64.size

theorem Fits.readsBack {p : TransactionPayload} (h : p.Fits) :
    TransactionPayload.format.ReadsBack p := by
  cases p with
  | writeSet w => exact .variants (by decide) rfl (.inl (.last (WriteSet.Fits.readsBack h)))
  | script s => exact .variants (by decide) rfl (.inr (.inl (.last (Script.Fits.readsBack h))))
  | codeModule m =>
    exact .variants (by decide) rfl (.inr (.inr (.last (CodeModule.Fits.readsBack h))))

theorem canonical : TransactionPayload.format.Canonical TransactionPayload.Fits := by
  refine .variants ?_ ?_ <| .orElse (.last WriteSet.canonical) <|
    .orElse (.last Script.canonical) <| .last CodeModule.canonical
  · rintro (_ | _ | _) <;> rfl
  · rintro (_ | _ | _) h <;> exact h

end TransactionPayload

namespace RawTransaction

/-- The lists are those of the payload. -/
def Fits (t : RawTransaction) : Prop := t.payload.Fits

theorem Fits.readsBack {t : RawTransaction} (h : t.Fits) : RawTransaction.format.ReadsBack t :=
  .record rfl <| .field rfl (Address.readsBack _) <| .field rfl (readsBack_word _) <|
    .field rfl (TransactionPayload.Fits.readsBack h) <| .field rfl (readsBack_word _) <|
    .field rfl (readsBack_word _) <| .last rfl (readsBack_word _)

theorem canonical : RawTransaction.format.Canonical RawTransaction.Fits :=
  .record (fun _ => rfl) (fun _ ⟨_, _, hpayload, _⟩ => hpayload) <|
    .field (fun _ => rfl) Address.canonical <| .field (fun _ => rfl) canonical_word <|
    .field (fun _ => rfl) TransactionPayload.canonical <| .field (fun _ => rfl) canonical_word <|
    .field (fun _ => rfl) canonical_word <| .last (fun _ => rfl) canonical_word

end RawTransaction

namespace SignedTransaction

/-- The lists are those of the payload. -/
def Fits (t : SignedTransaction) : Prop := t.raw.payload.Fits

theorem Fits.readsBack {t : SignedTransaction} (h : t.Fits) :
    SignedTransaction.format.ReadsBack t :=
  .record rfl <| .field rfl (RawTransaction.Fits.readsBack h) <|
    .field rfl (PublicKey.readsBack _) <| .last rfl (Signature.readsBack _)

theorem canonical : SignedTransaction.format.Canonical SignedTransaction.Fits :=
  .record (fun _ => rfl) (fun _ => And.left) <| .field (fun _ => rfl) RawTransaction.canonical <|
    .field (fun _ => rfl) PublicKey.canonical <| .last (fun _ => rfl) Signature.canonical

end SignedTransaction

namespace SignatureScheme

theorem readsBack (s : SignatureScheme) : SignatureScheme.format.ReadsBack s :=
  .variants (by decide) rfl readsBack_lastBare

theorem canonical : SignatureScheme.format.Canonical fun _ => True :=
  .variants (by rintro ⟨⟩; rfl) (fun _ _ => trivial) canonical_lastBare

end SignatureScheme

namespace Validator

theorem readsBack (v : Validator) : Validator.format.ReadsBack v :=
  .record rfl <| .field rfl (Address.readsBack _) <| .field rfl (PublicKey.readsBack _) <|
    .last rfl (readsBack_word _)

theorem canonical : Validator.format.Canonical fun _ => True :=
  .record (fun _ => rfl) (fun _ _ => trivial) <| .field (fun _ => rfl) Address.canonical <|
    .field (fun _ => rfl) PublicKey.canonical <| .last (fun _ => rfl) canonical_word

end Validator

namespace ValidatorSet

def Fits (s : ValidatorSet) : Prop := s.validators.length < UInt64.size

theorem Fits.readsBack {s : ValidatorSet} (h : s.Fits) : ValidatorSet.format.ReadsBack s :=
  .record rfl <| .field rfl (SignatureScheme.readsBack _) <|
    .last rfl (.list h fun v _ => v.readsBack)

theorem canonical : ValidatorSet.format.Canonical ValidatorSet.Fits :=
  .record (fun _ => rfl) (fun _ ⟨_, hlength, _⟩ => hlength) <|
    .field (fun _ => rfl) SignatureScheme.canonical <|
    .last (fun _ => rfl) (.list Validator.canonical)

end ValidatorSet

namespace LedgerInfo

def Fits (l : LedgerInfo) : Prop := ∀ next ∈ l.nextValidators, next.Fits

theorem Fits.readsBack {l : LedgerInfo} (h : l.Fits) : LedgerInfo.format.ReadsBack l :=
  .record rfl <| .field rfl (readsBack_word _) <| .field rfl (readsBack_word _) <|
    .field rfl (Digest.readsBack _) <| .field rfl (Digest.readsBack _) <|
    .field rfl (readsBack_word _) <| .field rfl (readsBack_word _) <|
    .field rfl (.option fun next hnext => (h next hnext).readsBack) <|
    .last rfl (Digest.readsBack _)

theorem canonical : LedgerInfo.format.Canonical LedgerInfo.Fits :=
  .record (fun _ => rfl) (fun _ ⟨_, _, _, _, _, _, hnext, _⟩ => hnext) <|
    .field (fun _ => rfl) canonical_word <| .field (fun _ => rfl) canonical_word <|
    .field (fun _ => rfl) Digest.canonical <| .field (fun _ => rfl) Digest.canonical <|
    .field (fun _ => rfl) canonical_word <| .field (fun _ => rfl) canonical_word <|
    .field (fun _ => rfl) (.option ValidatorSet.canonical) <|
    .last (fun _ => rfl) Digest.canonical

end LedgerInfo

namespace SignedLedgerInfo

structure Fits (l : SignedLedgerInfo) : Prop where
  ledgerInfo : l.ledgerInfo.Fits
  signatures : l.signatures.entries.length < UInt64.size

theorem Fits.readsBack_fieldsV0 {l : SignedLedgerInfo} (h : l.Fits) :
    SignedLedgerInfo.fieldsV0.ReadsBack l :=
  .record rfl <| .field rfl h.ledgerInfo.readsBack <| .last rfl <| .orderedMap <|
    .list h.signatures fun entry _ =>
      .pair (Address.readsBack entry.1) (Signature.readsBack entry.2)

theorem Fits.readsBack {l : SignedLedgerInfo} (h : l.Fits) :
    SignedLedgerInfo.format.ReadsBack l :=
  .variants (by decide) rfl (.last h.readsBack_fieldsV0)

end SignedLedgerInfo

end VerifiedLedger
