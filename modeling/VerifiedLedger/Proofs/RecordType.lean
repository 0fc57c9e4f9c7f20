import VerifiedLedger.RecordType
import VerifiedLedger.Proofs.Client.Encoding
import VerifiedLedger.Proofs.Evidence.Encoding
import VerifiedLedger.Proofs.Trust.Waypoint
/-! # What is written is what is read

Every type of record, the saved state apart, reads back its values from what is written for them.
Those that hold neither a map nor a text form read nothing else.
-/
namespace VerifiedLedger

/-- A type of record with those of its values that can be written: no list, text or map in them has
`2 ^ 64` items or more. -/
structure WritableType where
  type : RecordType
  Fits : type.Value → Prop

namespace RecordType

/-- Types that are not named on their own: the first versions of events and of signed ledger infos,
the schemes of validator sets, and proofs of runs of events. -/
def unlisted : List RecordType :=
  [plain "ContractEventV0" ContractEvent.fieldsV0,
    plain "LedgerInfoWithV0" SignedLedgerInfo.fieldsV0,
    plain "ValidatorSetScheme" SignatureScheme.format,
    plain "EventAccumulatorRangeProof" (@RangeProof.format .event)]

def writable : List WritableType :=
  [⟨plain "HashValue" Digest.format, fun _ => True⟩,
    ⟨hashed "AccountAddress" Address.format Address.hash, fun _ => True⟩,
    ⟨plain "BlsPublicKey" PublicKey.format, fun _ => True⟩,
    ⟨plain "BlsSignature" Signature.format, fun _ => True⟩,
    ⟨plain "TypeTag" TypeTag.format, TypeTag.Fits⟩,
    ⟨hashed "StructTag" StructTag.format StructTag.hash, StructTag.Fits⟩,
    ⟨hashed "AccessPath" AccessPath.format AccessPath.hash, AccessPath.Fits⟩,
    ⟨plain "AccountResource" AccountResource.format, AccountResource.Fits⟩,
    ⟨hashed "AccountStateBlob" StateBlob.format StateBlob.hash, StateBlob.Fits⟩,
    ⟨plain "AccountBlob" ResourceMap.format, ResourceMap.Fits⟩,
    ⟨plain "EventKey" EventKey.format, EventKey.Fits⟩,
    ⟨plain "EventHandle" EventHandle.format, EventHandle.Fits⟩,
    ⟨hashed "ContractEvent" ContractEvent.format ContractEvent.hash, ContractEvent.Fits⟩,
    ⟨hashed "LedgerInfo" LedgerInfo.format LedgerInfo.hash, LedgerInfo.Fits⟩,
    ⟨plain "LedgerInfoWithSignatures" SignedLedgerInfo.format, SignedLedgerInfo.Fits⟩,
    ⟨hashed "TransactionInfo" TransactionInfo.format TransactionInfo.hash, fun _ => True⟩,
    ⟨plain "TransactionArgument" TransactionArgument.format, TransactionArgument.Fits⟩,
    ⟨plain "WriteOp" WriteOp.format, WriteOp.Fits⟩,
    ⟨plain "Script" Script.format, Script.Fits⟩,
    ⟨plain "Module" CodeModule.format, CodeModule.Fits⟩,
    ⟨plain "WriteSetPayload" WriteSet.format, WriteSet.Fits⟩,
    ⟨plain "TransactionPayload" TransactionPayload.format, TransactionPayload.Fits⟩,
    ⟨hashed "RawTransaction" RawTransaction.format RawTransaction.hash, RawTransaction.Fits⟩,
    ⟨hashed "SignedTransaction" SignedTransaction.format SignedTransaction.hash,
      SignedTransaction.Fits⟩,
    ⟨plain "ValidatorInfo" Validator.format, fun _ => True⟩,
    ⟨plain "ValidatorSet" ValidatorSet.format, ValidatorSet.Fits⟩,
    ⟨plain "Waypoint" Waypoint.format, fun _ => True⟩,
    ⟨plain "TransactionAccumulatorProof" (@LeafProof.format .transaction), LeafProof.Fits⟩,
    ⟨plain "EventAccumulatorProof" (@LeafProof.format .event), LeafProof.Fits⟩,
    ⟨plain "TransactionAccumulatorRangeProof" (@RangeProof.format .transaction), RangeProof.Fits⟩,
    ⟨plain "SparseMerkleLeafNode" SparseLeaf.format, fun _ => True⟩,
    ⟨plain "SparseMerkleProof" SparseProof.format, SparseProof.Fits⟩,
    ⟨plain "TransactionInfoWithProof" InfoEvidence.format, InfoEvidence.Fits⟩,
    ⟨plain "AccountStateProof" AccountProof.format, AccountProof.Fits⟩,
    ⟨plain "AccountStateWithProof" AccountEvidence.format, AccountEvidence.Fits⟩,
    ⟨plain "EventWithProof" EventEvidence.format, EventEvidence.Fits⟩,
    ⟨plain "TransactionWithProof" TransactionEvidence.format, TransactionEvidence.Fits⟩,
    ⟨plain "TransactionWithInfo" RunEntry.format, RunEntry.Fits⟩,
    ⟨plain "TransactionListWithProof" RunEvidence.format, RunEvidence.Fits⟩,
    ⟨plain "ValidatorChangeProof" EpochChain.format, EpochChain.Fits⟩,
    ⟨plain "LedgerConsistencyProof" ConsistencyProof.format, ConsistencyProof.Fits⟩,
    ⟨plain "LedgerUpdate" LedgerUpdate.format, LedgerUpdate.Fits⟩,
    ⟨plain "SyncState" Progress.format, Progress.Fits⟩,
    ⟨plain "ContractEventV0" ContractEvent.fieldsV0, ContractEvent.Fits⟩,
    ⟨plain "LedgerInfoWithV0" SignedLedgerInfo.fieldsV0, SignedLedgerInfo.Fits⟩,
    ⟨plain "ValidatorSetScheme" SignatureScheme.format, fun _ => True⟩,
    ⟨plain "EventAccumulatorRangeProof" (@RangeProof.format .event), RangeProof.Fits⟩]

/-- The table leaves out no type but the saved state, of which absent fields are not written. -/
theorem map_type_writable :
    writable.map (·.type) = all.filter (fun t => t.name ≠ "ClientState") ++ unlisted :=
  rfl

/-- The types whose values have other written forms: a map is read in any order, and a waypoint as
any text that spells it. -/
def looselyRead : List String :=
  ["AccountBlob", "LedgerInfoWithV0", "LedgerInfoWithSignatures", "ValidatorChangeProof",
    "LedgerUpdate", "Waypoint"]

theorem readsBack_of_mem : ∀ w ∈ writable, ∀ v, w.Fits v → w.type.format.ReadsBack v := by
  simp only [writable, List.forall_mem_cons]
  -- In the order of the table.
  exact ⟨fun d _ => d.readsBack, fun a _ => a.readsBack, fun k _ => k.readsBack,
    fun s _ => s.readsBack,
    fun _ => TypeTag.Fits.readsBack, fun _ => StructTag.Fits.readsBack,
    fun _ => AccessPath.Fits.readsBack, fun _ => AccountResource.Fits.readsBack,
    fun _ => StateBlob.Fits.readsBack, fun _ => ResourceMap.Fits.readsBack,
    fun _ => EventKey.Fits.readsBack, fun _ => EventHandle.Fits.readsBack,
    fun _ => ContractEvent.Fits.readsBack, fun _ => LedgerInfo.Fits.readsBack,
    fun _ => SignedLedgerInfo.Fits.readsBack, fun i _ => i.readsBack,
    fun _ => TransactionArgument.Fits.readsBack, fun _ => WriteOp.Fits.readsBack,
    fun _ => Script.Fits.readsBack, fun _ => CodeModule.Fits.readsBack,
    fun _ => WriteSet.Fits.readsBack, fun _ => TransactionPayload.Fits.readsBack,
    fun _ => RawTransaction.Fits.readsBack, fun _ => SignedTransaction.Fits.readsBack,
    fun v _ => v.readsBack, fun _ => ValidatorSet.Fits.readsBack, fun w _ => w.readsBack,
    fun _ => LeafProof.Fits.readsBack, fun _ => LeafProof.Fits.readsBack,
    fun _ => RangeProof.Fits.readsBack, fun leaf _ => leaf.readsBack,
    fun _ => SparseProof.Fits.readsBack, fun _ => InfoEvidence.Fits.readsBack,
    fun _ => AccountProof.Fits.readsBack, fun _ => AccountEvidence.Fits.readsBack,
    fun _ => EventEvidence.Fits.readsBack, fun _ => TransactionEvidence.Fits.readsBack,
    fun _ => RunEntry.Fits.readsBack, fun _ => RunEvidence.Fits.readsBack,
    fun _ => EpochChain.Fits.readsBack, fun _ => ConsistencyProof.Fits.readsBack,
    fun _ => LedgerUpdate.Fits.readsBack, fun _ => Progress.Fits.readsBack,
    fun _ => ContractEvent.Fits.readsBack_fieldsV0,
    fun _ => SignedLedgerInfo.Fits.readsBack_fieldsV0, fun s _ => s.readsBack,
    fun _ => RangeProof.Fits.readsBack, List.forall_mem_nil _⟩

theorem canonical_of_mem :
    ∀ w ∈ writable, w.type.name ∉ looselyRead → w.type.format.Canonical w.Fits := by
  simp only [writable, List.forall_mem_cons]
  -- In the order of the table; of the types that are left out there is nothing to show.
  exact ⟨fun _ => Digest.canonical, fun _ => Address.canonical, fun _ => PublicKey.canonical,
    fun _ => Signature.canonical, fun _ => TypeTag.canonical, fun _ => StructTag.canonical,
    fun _ => AccessPath.canonical, fun _ => AccountResource.canonical,
    fun _ => StateBlob.canonical, fun h => absurd (by decide) h, fun _ => EventKey.canonical,
    fun _ => EventHandle.canonical, fun _ => ContractEvent.canonical,
    fun _ => LedgerInfo.canonical, fun h => absurd (by decide) h,
    fun _ => TransactionInfo.canonical, fun _ => TransactionArgument.canonical,
    fun _ => WriteOp.canonical, fun _ => Script.canonical, fun _ => CodeModule.canonical,
    fun _ => WriteSet.canonical, fun _ => TransactionPayload.canonical,
    fun _ => RawTransaction.canonical, fun _ => SignedTransaction.canonical,
    fun _ => Validator.canonical, fun _ => ValidatorSet.canonical, fun h => absurd (by decide) h,
    fun _ => LeafProof.canonical, fun _ => LeafProof.canonical, fun _ => RangeProof.canonical,
    fun _ => SparseLeaf.canonical, fun _ => SparseProof.canonical, fun _ => InfoEvidence.canonical,
    fun _ => AccountProof.canonical, fun _ => AccountEvidence.canonical,
    fun _ => EventEvidence.canonical, fun _ => TransactionEvidence.canonical,
    fun _ => RunEntry.canonical, fun _ => RunEvidence.canonical, fun h => absurd (by decide) h,
    fun _ => ConsistencyProof.canonical, fun h => absurd (by decide) h,
    fun _ => Progress.canonical, fun _ => ContractEvent.canonical_fieldsV0,
    fun h => absurd (by decide) h, fun _ => SignatureScheme.canonical, fun _ => RangeProof.canonical,
    List.forall_mem_nil _⟩

/-- A value is read back from what is written for it, and nothing behind it is touched. -/
theorem ofBytes_encode_append :
    writable.map (·.type) = all.filter (fun t => t.name ≠ "ClientState") ++ unlisted ∧
      ∀ w ∈ writable, ∀ v, w.Fits v → ∀ rest,
        w.type.format.decode (w.type.format.encode v ++ rest) = .ok (v, rest) ∧
          w.type.format.ofBytes (w.type.format.encode v ++ rest) = .ok v := by
  refine ⟨map_type_writable, fun w hw v hv rest => ?_⟩
  have hread := readsBack_of_mem w hw v hv rest
  exact ⟨hread, Format.ofBytes_eq_ok_iff.2 ⟨rest, hread⟩⟩

def twoSigners : SignedLedgerInfo :=
  ⟨⟨0, 1, .zero, .zero, 7, 100, some ⟨.bls12381, [⟨.zero, ⟨.replicate 48 1⟩, 5⟩]⟩, .zero⟩,
    (OrderedMap.empty.insert ⟨.replicate 32 2⟩ ⟨.replicate 96 3⟩).insert .zero ⟨.replicate 96 4⟩⟩

theorem fits_twoSigners : twoSigners.Fits := by
  refine ⟨?_, by decide⟩
  rintro next ⟨⟩
  exact (by decide : 1 < UInt64.size)

theorem ofBytes_encode_append_twoSigners :
    ⟨plain "LedgerInfoWithSignatures" SignedLedgerInfo.format, SignedLedgerInfo.Fits⟩ ∈ writable ∧
      twoSigners.Fits ∧
      SignedLedgerInfo.format.decode (SignedLedgerInfo.format.encode twoSigners ++ [255]) =
        .ok (twoSigners, [255]) ∧
      SignedLedgerInfo.format.ofBytes (SignedLedgerInfo.format.encode twoSigners ++ [255]) =
        .ok twoSigners := by
  have hmem : ⟨plain "LedgerInfoWithSignatures" SignedLedgerInfo.format, SignedLedgerInfo.Fits⟩ ∈
      writable := List.mem_of_getElem? (i := 14) rfl
  exact ⟨hmem, fits_twoSigners, ofBytes_encode_append.2 _ hmem twoSigners fits_twoSigners [255]⟩

/-- Whatever is read begins with what is written for the value and is taken that far. So no value
has two written forms, and nothing is read from a part of one. -/
theorem eq_encode_append_of_ofBytes :
    writable.map (·.type) = all.filter (fun t => t.name ≠ "ClientState") ++ unlisted ∧
      ∀ w ∈ writable, w.type.name ∉ looselyRead →
        (∀ bytes v, w.type.format.ofBytes bytes = .ok v → ∃ rest,
          bytes = w.type.format.encode v ++ rest ∧
            w.type.format.decode bytes = .ok (v, rest) ∧ w.Fits v) ∧
        (∀ v bytes bytes', w.type.format.decode bytes = .ok (v, []) →
          w.type.format.decode bytes' = .ok (v, []) → bytes = bytes') ∧
        ∀ v, w.Fits v → ∀ front, front <+: w.type.format.encode v →
          front ≠ w.type.format.encode v → ∀ v', w.type.format.ofBytes front ≠ .ok v' := by
  refine ⟨map_type_writable, fun w hw hname => ?_⟩
  have hone := canonical_of_mem w hw hname
  have hback := readsBack_of_mem w hw
  refine ⟨fun bytes v hread => ?_, fun v bytes bytes' h h' => ?_, ?_⟩
  · obtain ⟨rest, hread⟩ := Format.ofBytes_eq_ok_iff.1 hread
    obtain ⟨hbytes, hfits⟩ := hone hread
    exact ⟨rest, hbytes.symm, hread, hfits⟩
  · exact (hone h).1.symm.trans (hone h').1
  · rintro v hv front ⟨rest, hfront⟩ hne v' hread
    obtain ⟨tail, hread⟩ := Format.ofBytes_eq_ok_iff.1 hread
    have hrest := hone.eq_nil_of_decode hback (hback v hv) hfront hread
    rw [hrest, List.append_nil] at hfront
    exact hne hfront

def coinTag : StructTag := .mk .zero "Coin" "T" [.u128, .vector .bool]

def coinBytes : List UInt8 :=
  List.replicate 32 0 ++ [4, 0, 0, 0, 0, 0, 0, 0, 67, 111, 105, 110, 1, 0, 0, 0, 0, 0, 0, 0, 84] ++
    [2, 0, 0, 0, 0, 0, 0, 0, 3, 0, 0, 0, 5, 0, 0, 0, 0, 0, 0, 0]

theorem eq_encode_append_of_ofBytes_coinTag :
    ⟨hashed "StructTag" StructTag.format StructTag.hash, StructTag.Fits⟩ ∈ writable ∧
      StructTag.format.ofBytes (coinBytes ++ [255]) = .ok coinTag ∧
      (∃ rest, coinBytes ++ [255] = StructTag.format.encode coinTag ++ rest) ∧
      coinBytes.take 60 <+: StructTag.format.encode coinTag ∧
      ∀ t, StructTag.format.ofBytes (coinBytes.take 60) ≠ .ok t := by
  have hmem : ⟨hashed "StructTag" StructTag.format StructTag.hash, StructTag.Fits⟩ ∈ writable :=
    List.mem_of_getElem? (i := 5) rfl
  have hname : "StructTag" ∉ looselyRead := by decide
  have hread : StructTag.format.ofBytes (coinBytes ++ [255]) = .ok coinTag := rfl
  have hbytes : StructTag.format.encode coinTag = coinBytes := by decide +kernel
  have hprefix : coinBytes.take 60 <+: StructTag.format.encode coinTag :=
    hbytes ▸ List.take_prefix 60 coinBytes
  have hne : coinBytes.take 60 ≠ StructTag.format.encode coinTag := by
    rw [hbytes]
    decide
  obtain ⟨hone, -, hfront⟩ := eq_encode_append_of_ofBytes.2 _ hmem hname
  obtain ⟨rest, hrest, -, hfits⟩ := hone _ coinTag hread
  exact ⟨hmem, hread, ⟨rest, hrest⟩, hprefix, hfront coinTag hfits _ hprefix hne⟩

end RecordType
end VerifiedLedger
