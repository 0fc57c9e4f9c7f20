import VerifiedLedger.Client.LightClient
import VerifiedLedger.Proofs.Ledger.Encoding
/-! # Encodings of updates and progress

What a client is sent and what it keeps are written faithfully if no list and no map in it is too
long. Signatures are a map and read in any order, so only what holds none has one written form.
-/
namespace VerifiedLedger
open Format (readsBack_word readsBack_bool canonical_word)

structure EpochChain.Fits (chain : EpochChain) : Prop where
  length : chain.ledgerInfos.length < UInt64.size
  ledgerInfos : ∀ l ∈ chain.ledgerInfos, l.Fits

theorem EpochChain.Fits.readsBack {chain : EpochChain} (h : chain.Fits) :
    EpochChain.format.ReadsBack chain :=
  .record rfl <| .field rfl (.list h.length fun l hl => (h.ledgerInfos l hl).readsBack) <|
    .last rfl (readsBack_bool _)

namespace ConsistencyProof

def Fits (p : ConsistencyProof) : Prop := p.subtrees.length < UInt64.size

theorem Fits.readsBack {p : ConsistencyProof} (h : p.Fits) :
    ConsistencyProof.format.ReadsBack p :=
  .record rfl <| .last rfl <| .list h fun d _ => d.readsBack

theorem canonical : ConsistencyProof.format.Canonical ConsistencyProof.Fits :=
  .record (fun _ => rfl) (fun _ => And.left) <| .last (fun _ => rfl) <| .list Digest.canonical

end ConsistencyProof

structure LedgerUpdate.Fits (u : LedgerUpdate) : Prop where
  ledgerInfo : u.ledgerInfo.Fits
  epochChain : ∀ chain ∈ u.epochChain, chain.Fits
  consistency : u.consistency.Fits

theorem LedgerUpdate.Fits.readsBack {u : LedgerUpdate} (h : u.Fits) :
    LedgerUpdate.format.ReadsBack u :=
  .record rfl <| .field rfl h.ledgerInfo.readsBack <|
    .field rfl (.option fun chain hchain => (h.epochChain chain hchain).readsBack) <|
    .last rfl h.consistency.readsBack

namespace Progress

def Fits (known : Progress) : Prop := known.subtrees.length < UInt64.size

theorem Fits.readsBack {known : Progress} (h : known.Fits) : Progress.format.ReadsBack known :=
  .record rfl <| .field rfl (readsBack_word _) <| .last rfl (.list h fun d _ => d.readsBack)

theorem canonical : Progress.format.Canonical Progress.Fits :=
  .record (fun _ => rfl) (fun _ ⟨_, hlength, _⟩ => hlength) <|
    .field (fun _ => rfl) canonical_word <| .last (fun _ => rfl) (.list Digest.canonical)

end Progress
end VerifiedLedger
