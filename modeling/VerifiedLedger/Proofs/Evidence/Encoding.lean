import VerifiedLedger.Evidence.Account
import VerifiedLedger.Evidence.Event
import VerifiedLedger.Evidence.Transaction
import VerifiedLedger.Proofs.Ledger.Encoding
/-! # Encodings of proofs and evidence

Evidence is written faithfully if no list in it is too long. It holds no maps and has one written
form.
-/
namespace VerifiedLedger
open Format (readsBack_word canonical_word)

section Proofs
variable {kind : AccumulatorKind}

def LeafProof.Fits (p : LeafProof kind) : Prop := p.siblings.length < UInt64.size

theorem LeafProof.Fits.readsBack {p : LeafProof kind} (h : p.Fits) :
    LeafProof.format.ReadsBack p :=
  .record rfl <| .last rfl <| .list h fun d _ => d.readsBack

theorem LeafProof.canonical : (@LeafProof.format kind).Canonical LeafProof.Fits :=
  .record (fun _ => rfl) (fun _ => And.left) <| .last (fun _ => rfl) <| .list Digest.canonical

structure RangeProof.Fits (p : RangeProof kind) : Prop where
  leftSiblings : p.leftSiblings.length < UInt64.size
  rightSiblings : p.rightSiblings.length < UInt64.size

theorem RangeProof.Fits.readsBack {p : RangeProof kind} (h : p.Fits) :
    RangeProof.format.ReadsBack p :=
  .record rfl <| .field rfl (.list h.leftSiblings fun d _ => d.readsBack) <|
    .last rfl (.list h.rightSiblings fun d _ => d.readsBack)

theorem RangeProof.canonical : (@RangeProof.format kind).Canonical RangeProof.Fits :=
  .record (fun _ => rfl) (fun _ ⟨⟨hleft, _⟩, hright, _⟩ => ⟨hleft, hright⟩) <|
    .field (fun _ => rfl) (.list Digest.canonical) <| .last (fun _ => rfl) (.list Digest.canonical)

end Proofs

namespace SparseLeaf

theorem readsBack (leaf : SparseLeaf) : SparseLeaf.format.ReadsBack leaf :=
  .record rfl <| .field rfl (Digest.readsBack _) <| .last rfl (Digest.readsBack _)

theorem canonical : SparseLeaf.format.Canonical fun _ => True :=
  .record (fun _ => rfl) (fun _ _ => trivial) <| .field (fun _ => rfl) Digest.canonical <|
    .last (fun _ => rfl) Digest.canonical

end SparseLeaf

namespace SparseProof

def Fits (p : SparseProof) : Prop := p.siblings.length < UInt64.size

theorem Fits.readsBack {p : SparseProof} (h : p.Fits) : SparseProof.format.ReadsBack p :=
  .record rfl <| .field rfl (.option fun leaf _ => leaf.readsBack) <|
    .last rfl (.list h fun d _ => d.readsBack)

theorem canonical : SparseProof.format.Canonical SparseProof.Fits :=
  .record (fun _ => rfl) (fun _ ⟨_, hlength, _⟩ => hlength) <|
    .field (fun _ => rfl) (.option SparseLeaf.canonical) <|
    .last (fun _ => rfl) (.list Digest.canonical)

end SparseProof

namespace InfoEvidence

def Fits (t : InfoEvidence) : Prop := t.proof.Fits

theorem Fits.readsBack {t : InfoEvidence} (h : t.Fits) : InfoEvidence.format.ReadsBack t :=
  .record rfl <| .field rfl (LeafProof.Fits.readsBack h) <| .last rfl (TransactionInfo.readsBack _)

theorem canonical : InfoEvidence.format.Canonical InfoEvidence.Fits :=
  .record (fun _ => rfl) (fun _ => And.left) <| .field (fun _ => rfl) LeafProof.canonical <|
    .last (fun _ => rfl) TransactionInfo.canonical

end InfoEvidence

namespace AccountProof

structure Fits (p : AccountProof) : Prop where
  infoEvidence : p.infoEvidence.Fits
  stateProof : p.stateProof.Fits

theorem Fits.readsBack {p : AccountProof} (h : p.Fits) : AccountProof.format.ReadsBack p :=
  .record rfl <| .field rfl h.infoEvidence.readsBack <| .last rfl h.stateProof.readsBack

theorem canonical : AccountProof.format.Canonical AccountProof.Fits :=
  .record (fun _ => rfl) (fun _ ⟨hinfo, hstate⟩ => ⟨hinfo, hstate⟩) <|
    .field (fun _ => rfl) InfoEvidence.canonical <| .last (fun _ => rfl) SparseProof.canonical

end AccountProof

namespace AccountEvidence

structure Fits (s : AccountEvidence) : Prop where
  blob : ∀ blob ∈ s.blob, blob.Fits
  proof : s.proof.Fits

theorem Fits.readsBack {s : AccountEvidence} (h : s.Fits) : AccountEvidence.format.ReadsBack s :=
  .record rfl <| .field rfl (readsBack_word _) <|
    .field rfl (.option fun blob hblob => (h.blob blob hblob).readsBack) <|
    .last rfl h.proof.readsBack

theorem canonical : AccountEvidence.format.Canonical AccountEvidence.Fits :=
  .record (fun _ => rfl) (fun _ ⟨_, hblob, hproof⟩ => ⟨hblob, hproof⟩) <|
    .field (fun _ => rfl) canonical_word <| .field (fun _ => rfl) (.option StateBlob.canonical) <|
    .last (fun _ => rfl) AccountProof.canonical

end AccountEvidence

namespace EventEvidence

structure Fits (e : EventEvidence) : Prop where
  event : e.event.Fits
  infoEvidence : e.infoEvidence.Fits
  eventProof : e.eventProof.Fits

theorem Fits.readsBack {e : EventEvidence} (h : e.Fits) : EventEvidence.format.ReadsBack e :=
  .record rfl <| .field rfl (readsBack_word _) <| .field rfl (readsBack_word _) <|
    .field rfl h.event.readsBack <| .field rfl h.infoEvidence.readsBack <|
    .last rfl h.eventProof.readsBack

theorem canonical : EventEvidence.format.Canonical EventEvidence.Fits :=
  .record (fun _ => rfl) (fun _ ⟨_, _, hevent, hinfo, hproof⟩ => ⟨hevent, hinfo, hproof⟩) <|
    .field (fun _ => rfl) canonical_word <| .field (fun _ => rfl) canonical_word <|
    .field (fun _ => rfl) ContractEvent.canonical <|
    .field (fun _ => rfl) InfoEvidence.canonical <| .last (fun _ => rfl) LeafProof.canonical

end EventEvidence

/-- The events of a transaction, where they are given. -/
def EventsFit (events : Option (List ContractEvent)) : Prop :=
  ∀ list ∈ events, list.length < UInt64.size ∧ ∀ event ∈ list, event.Fits

theorem EventsFit.readsBack {events : Option (List ContractEvent)} (h : EventsFit events) :
    (Format.option (.list ContractEvent.format)).ReadsBack events :=
  .option fun list hlist =>
    .list (h list hlist).1 fun event he => ((h list hlist).2 event he).readsBack

namespace TransactionEvidence

structure Fits (t : TransactionEvidence) : Prop where
  transaction : t.transaction.Fits
  events : EventsFit t.events
  proof : t.proof.Fits

theorem Fits.readsBack {t : TransactionEvidence} (h : t.Fits) :
    TransactionEvidence.format.ReadsBack t :=
  .record rfl <| .field rfl (readsBack_word _) <| .field rfl h.transaction.readsBack <|
    .field rfl h.events.readsBack <| .last rfl h.proof.readsBack

theorem canonical : TransactionEvidence.format.Canonical TransactionEvidence.Fits :=
  .record (fun _ => rfl) (fun _ ⟨_, ht, hevents, hproof⟩ => ⟨ht, hevents, hproof⟩) <|
    .field (fun _ => rfl) canonical_word <| .field (fun _ => rfl) SignedTransaction.canonical <|
    .field (fun _ => rfl) (.option (.list ContractEvent.canonical)) <|
    .last (fun _ => rfl) InfoEvidence.canonical

end TransactionEvidence

namespace RunEntry

structure Fits (t : RunEntry) : Prop where
  transaction : t.transaction.Fits
  events : EventsFit t.events

theorem Fits.readsBack {t : RunEntry} (h : t.Fits) : RunEntry.format.ReadsBack t :=
  .record rfl <| .field rfl (readsBack_word _) <| .field rfl h.transaction.readsBack <|
    .field rfl h.events.readsBack <| .last rfl (TransactionInfo.readsBack _)

theorem canonical : RunEntry.format.Canonical RunEntry.Fits :=
  .record (fun _ => rfl) (fun _ ⟨_, ht, hevents, _⟩ => ⟨ht, hevents⟩) <|
    .field (fun _ => rfl) canonical_word <| .field (fun _ => rfl) SignedTransaction.canonical <|
    .field (fun _ => rfl) (.option (.list ContractEvent.canonical)) <|
    .last (fun _ => rfl) TransactionInfo.canonical

end RunEntry

namespace RunEvidence

structure Fits (l : RunEvidence) : Prop where
  length : l.transactions.length < UInt64.size
  transactions : ∀ entry ∈ l.transactions, entry.Fits
  proof : l.proof.Fits

theorem Fits.readsBack {l : RunEvidence} (h : l.Fits) : RunEvidence.format.ReadsBack l :=
  .record rfl <|
    .field rfl (.list h.length fun entry he => (h.transactions entry he).readsBack) <|
    .last rfl h.proof.readsBack

theorem canonical : RunEvidence.format.Canonical RunEvidence.Fits :=
  .record (fun _ => rfl) (fun _ ⟨⟨hlength, hall⟩, hproof⟩ => ⟨hlength, hall, hproof⟩) <|
    .field (fun _ => rfl) (.list RunEntry.canonical) <| .last (fun _ => rfl) RangeProof.canonical

end RunEvidence

end VerifiedLedger
