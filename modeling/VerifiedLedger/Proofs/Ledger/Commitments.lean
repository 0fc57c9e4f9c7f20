import VerifiedLedger.Ledger.LedgerInfo
import VerifiedLedger.Proofs.Accumulator.Records
import VerifiedLedger.Proofs.Ledger.Encoding
/-! # What a ledger commits to

A ledger info commits to a list of transaction infos, and each info to a transaction and to the list
of its events. A root binds a list as a whole, and a hash a record, unless strings collide that are
hashed on the two sides.
-/
namespace VerifiedLedger
variable {infos : List TransactionInfo} {trusted : LedgerInfo} {strings : List (List UInt8)}

namespace TransactionInfo

/-- What the infos are as leaves. -/
def records (infos : List TransactionInfo) : List (List UInt8) := infos.map format.encode

/-- The strings that are hashed when the accumulator of the ledger is built. -/
def building (infos : List TransactionInfo) : List (List UInt8) :=
  Accumulator.building .transaction .transactionInfo (records infos)

theorem getElem?_of_records {index : ℕ} {info : TransactionInfo}
    (h : (records infos)[index]? = some (format.encode info)) : infos[index]? = some info :=
  Format.getElem?_of_map_encode (fun found _ => readsBack found) (readsBack info) h

end TransactionInfo

namespace LedgerInfo

/-- The ledger info is that of a ledger with these infos. -/
structure Covers (trusted : LedgerInfo) (infos : List TransactionInfo) : Prop where
  length_eq : infos.length = trusted.version.toNat + 1
  root : Accumulator.root <$> (Accumulator.ofLeaves (infos.map TransactionInfo.hash) :
    Except ProofError (Accumulator .transaction)) = .ok trusted.accumulatorRoot

theorem Covers.rootOf (h : trusted.Covers infos) :
    Accumulator.rootOf .transaction .transactionInfo (TransactionInfo.records infos) =
      .ok trusted.accumulatorRoot := by
  rw [Accumulator.rootOf, TransactionInfo.records, List.map_map]
  exact h.root

end LedgerInfo

namespace ContractEvent
variable {events events' : List ContractEvent} {root : Digest}

def records (events : List ContractEvent) : List (List UInt8) := events.map format.encode

/-- The strings that are hashed into the root of the events. -/
def building (events : List ContractEvent) : List (List UInt8) :=
  Accumulator.building .event .contractEvent (records events)

theorem rootOf_records (h : eventRoot events = .ok root) :
    Accumulator.rootOf .event .contractEvent (records events) = .ok root := by
  rw [Accumulator.rootOf, records, List.map_map]
  exact h

/-- A list with the root of another one has its events, in their order and no others. -/
theorem eq_of_root_eq (hfree : CollisionFree strings)
    (havoid : AvoidsDigest .accumulatorPlaceholder strings) (hbuild : building events ⊆ strings)
    (hbuild' : building events' ⊆ strings) (hfits : ∀ e ∈ events, e.Fits)
    (hfits' : ∀ e ∈ events', e.Fits) (hroot : eventRoot events = .ok root)
    (hroot' : eventRoot events' = .ok root) : events = events' := by
  have hrecords := Accumulator.records_eq_of_rootOf_eq hfree havoid (by decide) hbuild hbuild'
    (rootOf_records hroot) (rootOf_records hroot')
  exact Format.eq_of_map_encode_eq (fun e he => (hfits e he).readsBack)
    (fun e he => (hfits' e he).readsBack) hrecords

theorem exists_eventRoot_iff :
    (∃ root, eventRoot events = .ok root) ↔ events.length ≤ Forest.maxLeaves := by
  constructor
  · rintro ⟨root, hroot⟩
    have hle := Accumulator.length_le_of_rootOf (rootOf_records hroot)
    rwa [records, List.length_map] at hle
  · intro hle
    have hhashes : (events.map ContractEvent.hash).length ≤ Forest.maxLeaves :=
      (List.length_map _).trans_le hle
    exact ⟨_, map_eq_ok_iff.2 ⟨_, Accumulator.ofLeaves_eq_ofPrefix hhashes, rfl⟩⟩

/-- Every list of events that fits into a tree has a root, and no other list has the same one:
whatever is dropped, added, moved or changed, and although the root does not say how many events
there are. -/
theorem eventRoot_eq_iff (hfits : ∀ e ∈ events, e.Fits) (hfits' : ∀ e ∈ events', e.Fits)
    (hfree : CollisionFree (building events ++ building events'))
    (havoid : AvoidsDigest .accumulatorPlaceholder (building events ++ building events')) :
    ((∃ root, eventRoot events = .ok root) ↔ events.length ≤ Forest.maxLeaves) ∧
      ∀ root, eventRoot events = .ok root → (eventRoot events' = .ok root ↔ events = events') := by
  refine ⟨exists_eventRoot_iff, fun root hroot => ⟨fun hroot' => ?_, fun h => h ▸ hroot⟩⟩
  exact eq_of_root_eq hfree havoid (List.subset_append_left _ _) (List.subset_append_right _ _)
    hfits hfits' hroot hroot'

/-- The last of three events is dropped. -/
theorem eventRoot_eq_iff_dropped :
    let events : List ContractEvent := [⟨⟨[]⟩, 0, []⟩, ⟨⟨[7]⟩, 1, [7]⟩, ⟨⟨[7]⟩, 2, []⟩]
    let events' := events.take 2
    let strings := building events ++ building events'
    (∀ e ∈ events, e.Fits) ∧ (∀ e ∈ events', e.Fits) ∧ CollisionFree strings ∧
      AvoidsDigest .accumulatorPlaceholder strings ∧
      ∃ root, eventRoot events = .ok root ∧ eventRoot events' ≠ .ok root := by
  intro events events' strings
  have hfits : ∀ e ∈ events, e.Fits :=
    List.forall_mem_cons.2 ⟨⟨by decide, by decide⟩, List.forall_mem_cons.2
      ⟨⟨by decide, by decide⟩, List.forall_mem_singleton.2 ⟨by decide, by decide⟩⟩⟩
  have hfits' : ∀ e ∈ events', e.Fits := fun e he => hfits e (List.mem_of_mem_take he)
  -- Worked out together, so that every string is hashed once.
  obtain ⟨hfree, havoid⟩ :
      CollisionFree strings ∧ AvoidsDigest .accumulatorPlaceholder strings := by decide +kernel
  obtain ⟨hroot, hsame⟩ := eventRoot_eq_iff hfits hfits' hfree havoid
  obtain ⟨root, hroot⟩ := hroot.2 (by decide)
  refine ⟨hfits, hfits', hfree, havoid, root, hroot, fun hroot' => ?_⟩
  exact absurd ((hsame root hroot).1 hroot') (by decide)

end ContractEvent

theorem SignedTransaction.eq_of_hash_eq {t t' : SignedTransaction} (hfree : CollisionFree strings)
    (ht : Domain.signedTransaction.preimage (format.encode t) ∈ strings)
    (ht' : Domain.signedTransaction.preimage (format.encode t') ∈ strings) (hfits : t.Fits)
    (hfits' : t'.Fits) (h : t.hash = t'.hash) : t = t' :=
  hfits.readsBack.eq_of_encode_eq hfits'.readsBack (Domain.eq_of_hash_eq hfree ht ht' h).2

/-- A version of an honest ledger: a transaction, its events, and the info that commits to them. -/
structure ExecutedTransaction where
  transaction : SignedTransaction
  events : List ContractEvent
  info : TransactionInfo
  transaction_fits : transaction.Fits
  events_fit : ∀ e ∈ events, e.Fits
  transactionHash_eq : info.transactionHash = transaction.hash
  eventRoot_eq : eventRoot events = .ok info.eventRoot

namespace ExecutedTransaction

/-- The strings that are hashed into the info. -/
def committed (e : ExecutedTransaction) : List (List UInt8) :=
  Domain.signedTransaction.preimage (SignedTransaction.format.encode e.transaction) ::
    ContractEvent.building e.events

/-- The strings that are hashed when the ledger is built. -/
def building (ledger : List ExecutedTransaction) : List (List UInt8) :=
  TransactionInfo.building (ledger.map info) ++ ledger.flatMap committed

theorem committed_subset {ledger : List ExecutedTransaction} {e : ExecutedTransaction}
    (h : e ∈ ledger) : e.committed ⊆ building ledger := by
  intro s hs
  exact List.mem_append_right _ (List.mem_flatMap_of_mem h hs)

end ExecutedTransaction
end VerifiedLedger
