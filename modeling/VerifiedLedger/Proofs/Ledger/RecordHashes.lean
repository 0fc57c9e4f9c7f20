import VerifiedLedger.Ledger.LedgerInfo
import VerifiedLedger.Proofs.Hash.Separation
import VerifiedLedger.Proofs.Ledger.Encoding
/-! # Hashes of records

Nine types of record have a hash, each type in a domain of its own. The domain and the hashed bytes
give the record back, so a hash stands for one record of one type and for no node of a tree, unless
the strings collide that are hashed on the two sides.
-/
namespace VerifiedLedger

/-- The domains in which two digests are hashed into a node of a tree. -/
def Domain.trees : List Domain :=
  [.transactionAccumulator, .eventAccumulator, .sparseInternal, .sparseLeaf]

inductive HashedRecord where
  | address (a : Address)
  | structTag (t : StructTag)
  | accessPath (p : AccessPath)
  | stateBlob (b : StateBlob)
  | event (e : ContractEvent)
  | ledgerInfo (l : LedgerInfo)
  | transactionInfo (i : TransactionInfo)
  | rawTransaction (t : RawTransaction)
  | signedTransaction (t : SignedTransaction)

namespace HashedRecord
variable {r s : HashedRecord} {d : Domain}

def hash : HashedRecord → Digest
  | address a => a.hash
  | structTag t => t.hash
  | accessPath p => p.hash
  | stateBlob b => b.hash
  | event e => e.hash
  | ledgerInfo l => l.hash
  | transactionInfo i => i.hash
  | rawTransaction t => t.hash
  | signedTransaction t => t.hash

def domain : HashedRecord → Domain
  | address _ => .accountAddress
  | structTag _ => .structTag
  | accessPath _ => .accessPath
  | stateBlob _ => .accountStateBlob
  | event _ => .contractEvent
  | ledgerInfo _ => .ledgerInfo
  | transactionInfo _ => .transactionInfo
  | rawTransaction _ => .rawTransaction
  | signedTransaction _ => .signedTransaction

/-- The bytes that are hashed behind the seed. A blob stands there without its length. -/
def data : HashedRecord → List UInt8
  | address a => a.toList
  | structTag t => StructTag.format.encode t
  | accessPath p => AccessPath.format.encode p
  | stateBlob b => b.bytes
  | event e => ContractEvent.format.encode e
  | ledgerInfo l => LedgerInfo.format.encode l
  | transactionInfo i => TransactionInfo.format.encode i
  | rawTransaction t => RawTransaction.format.encode t
  | signedTransaction t => SignedTransaction.format.encode t

/-- The lists in the record are shorter than the lengths that are written for them. -/
def Fits : HashedRecord → Prop
  | structTag t => t.Fits
  | accessPath p => p.Fits
  | event e => e.Fits
  | ledgerInfo l => l.Fits
  | rawTransaction t => t.Fits
  | signedTransaction t => t.Fits
  | address _ | stateBlob _ | transactionInfo _ => True

/-- The string that is hashed into the record's hash. -/
def hashString (r : HashedRecord) : List UInt8 := r.domain.preimage r.data

/-- Bytes read as a record of one type. -/
def read? {α : Type} (f : Format α) (wrap : α → HashedRecord) (data : List UInt8) :
    Option HashedRecord :=
  (f.ofBytes data).toOption.map wrap

/-- The record that is hashed as these bytes in the domain. -/
def ofData? (d : Domain) (data : List UInt8) : Option HashedRecord :=
  match d with
  | .accountAddress => read? Address.format address data
  | .structTag => read? StructTag.format structTag data
  | .accessPath => read? AccessPath.format accessPath data
  | .accountStateBlob => some (stateBlob ⟨data⟩)
  | .contractEvent => read? ContractEvent.format event data
  | .ledgerInfo => read? LedgerInfo.format ledgerInfo data
  | .transactionInfo => read? TransactionInfo.format transactionInfo data
  | .rawTransaction => read? RawTransaction.format rawTransaction data
  | .signedTransaction => read? SignedTransaction.format signedTransaction data
  | _ => none

theorem hash_eq (r : HashedRecord) : r.hash = r.domain.hash r.data := by
  cases r <;> rfl

theorem read?_encode {α : Type} {f : Format α} {a : α} (wrap : α → HashedRecord)
    (h : f.ReadsBack a) : read? f wrap (f.encode a) = some (wrap a) := by
  rw [read?, h.ofBytes_encode]
  rfl

theorem ofData?_data (h : r.Fits) : ofData? r.domain r.data = some r := by
  cases r with
  | address a => exact read?_encode address a.readsBack
  | structTag t => exact read?_encode structTag (StructTag.Fits.readsBack h)
  | accessPath p => exact read?_encode accessPath (AccessPath.Fits.readsBack h)
  | stateBlob b => rfl
  | event e => exact read?_encode event (ContractEvent.Fits.readsBack h)
  | ledgerInfo l => exact read?_encode ledgerInfo (LedgerInfo.Fits.readsBack h)
  | transactionInfo i => exact read?_encode transactionInfo i.readsBack
  | rawTransaction t => exact read?_encode rawTransaction (RawTransaction.Fits.readsBack h)
  | signedTransaction t => exact read?_encode signedTransaction (SignedTransaction.Fits.readsBack h)

theorem domain_not_mem_trees (r : HashedRecord) : r.domain ∉ Domain.trees := by
  cases r <;> simp [domain, Domain.trees]

theorem eq_of_hash_eq (hr : r.Fits) (hs : s.Fits)
    (hfree : CollisionFree [r.hashString, s.hashString]) (h : r.hash = s.hash) : r = s := by
  rw [hash_eq, hash_eq] at h
  have hmem : s.hashString ∈ [r.hashString, s.hashString] :=
    List.mem_cons_of_mem _ List.mem_cons_self
  obtain ⟨hdomain, hdata⟩ := Domain.eq_of_hash_eq hfree List.mem_cons_self hmem h
  have hread := ofData?_data hr
  rw [hdomain, hdata, ofData?_data hs] at hread
  exact (Option.some.inj hread).symm

theorem hash_ne_hashPair {left right : Digest} (hd : d ∈ Domain.trees)
    (hfree : CollisionFree [r.hashString, d.pairString (left, right)]) :
    r.hash ≠ d.hashPair left right := by
  rw [hash_eq]
  have hmem : d.pairString (left, right) ∈ [r.hashString, d.pairString (left, right)] :=
    List.mem_cons_of_mem _ List.mem_cons_self
  have hne : r.domain ≠ d := fun h => r.domain_not_mem_trees (h ▸ hd)
  exact Domain.hash_ne_of_ne hfree hne List.mem_cons_self hmem

/-- A hash belongs to one record of one type and to no node of a tree. The seeds are known to
differ, so only the two strings that are compared need to be free of collisions. -/
theorem hash_binds (hr : r.Fits) :
    (∀ s : HashedRecord, s.Fits → CollisionFree [r.hashString, s.hashString] →
        (r.hash = s.hash ↔ r = s)) ∧
      ∀ d ∈ Domain.trees, ∀ left right, CollisionFree [r.hashString, d.pairString (left, right)] →
        r.hash ≠ d.hashPair left right := by
  refine ⟨fun s hs hfree => ⟨eq_of_hash_eq hr hs hfree, fun h => h ▸ rfl⟩, ?_⟩
  intro d hd left right hfree
  exact hash_ne_hashPair hd hfree

/-- An epoch change to no validators, against the same checkpoint without one. -/
theorem hash_binds_next_validators :
    let plain : LedgerInfo := ⟨1, 0, .zero, .zero, 10, 0, none, .zero⟩
    let changing : LedgerInfo := { plain with nextValidators := some .empty }
    let node := Domain.transactionAccumulator.pairString (.zero, .zero)
    (ledgerInfo plain).Fits ∧ (ledgerInfo changing).Fits ∧
      CollisionFree [(ledgerInfo plain).hashString, (ledgerInfo changing).hashString] ∧
      CollisionFree [(ledgerInfo plain).hashString, node] ∧
      plain.hash ≠ changing.hash ∧
      plain.hash ≠ Domain.transactionAccumulator.hashPair .zero .zero := by
  intro plain changing node
  have hplain : (ledgerInfo plain).Fits := fun next hnext => by cases hnext
  have hchanging : (ledgerInfo changing).Fits := by
    intro next hnext
    cases hnext
    exact (by decide : (0 : ℕ) < UInt64.size)
  obtain ⟨hfree, hfree'⟩ :
      CollisionFree [(ledgerInfo plain).hashString, (ledgerInfo changing).hashString] ∧
        CollisionFree [(ledgerInfo plain).hashString, node] := by decide +kernel
  obtain ⟨hrecords, hnodes⟩ := hash_binds hplain
  refine ⟨hplain, hchanging, hfree, hfree', ?_, hnodes _ (by decide) _ _ hfree'⟩
  intro h
  have hsame := (hrecords _ hchanging hfree).1 h
  exact absurd (HashedRecord.ledgerInfo.inj hsame) (by decide)

end HashedRecord
end VerifiedLedger
