import VerifiedLedger.Evidence.Transaction
import VerifiedLedger.Proofs.Accumulator.RangeTerms
import VerifiedLedger.Proofs.Bls.Evaluation
import VerifiedLedger.Proofs.Evidence.Info
/-! # Evidence for transactions is right

An info that is proven to be in the ledger commits to the transaction and to the events that were
served with it. So each entry of a run stands for the version that it claims, wherever the run
begins and whatever siblings its range proof has.
-/
namespace VerifiedLedger
variable {ledger : List ExecutedTransaction} {trusted : LedgerInfo} {strings : List (List UInt8)}

section Contents
variable {version : ℕ} {transaction : SignedTransaction} {events : Option (List ContractEvent)}
  {info : TransactionInfo}

/-- Nothing that was served is too long to be written, as nothing held in memory is. -/
structure ContentsFit (transaction : SignedTransaction) (events : Option (List ContractEvent)) :
    Prop where
  transaction : transaction.Fits
  events : ∀ served ∈ events, ∀ e ∈ served, e.Fits

/-- The strings that are hashed when a transaction is checked by itself. -/
def hashedContents (transaction : SignedTransaction) (events : Option (List ContractEvent)) :
    List (List UInt8) :=
  Domain.rawTransaction.preimage (RawTransaction.format.encode transaction.raw) ::
    Domain.signedTransaction.preimage (SignedTransaction.format.encode transaction) ::
    events.toList.flatMap ContractEvent.building

theorem checkContents_eq_ok_iff :
    checkContents version transaction events info = .ok () ↔
      transaction.verify = .ok () ∧ transaction.hash = info.transactionHash ∧
        ∀ served ∈ events, eventRoot served = .ok info.eventRoot := by
  simp only [checkContents, bind_eq_ok_iff, mapError_eq_ok_iff, ofProof, ite_throw_bind_eq_ok_iff,
    ne_eq, Decidable.not_not]
  constructor
  · rintro ⟨_, hsignature, hhash, hevents⟩
    refine ⟨hsignature, hhash, ?_⟩
    rintro served rfl
    obtain ⟨root, hroot, hsame, -⟩ := by simpa only [bind_eq_ok_iff, mapError_eq_ok_iff,
      ite_throw_bind_eq_ok_iff, Decidable.not_not] using hevents
    exact hsame ▸ hroot
  · rintro ⟨hsignature, hhash, hevents⟩
    refine ⟨(), hsignature, hhash, ?_⟩
    cases events with
    | none => rfl
    | some served =>
      simp only [bind_eq_ok_iff, mapError_eq_ok_iff, ite_throw_bind_eq_ok_iff, Decidable.not_not]
      exact ⟨info.eventRoot, hevents served rfl, rfl, rfl⟩

/-- A committed transaction is that of the given version of the ledger. -/
structure CommittedTransaction.Reports (c : CommittedTransaction) (version : ℕ)
    (e : ExecutedTransaction) : Prop where
  version_eq : c.version.toNat = version
  transaction_eq : c.transaction = e.transaction
  gasUsed_eq : c.gasUsed = e.info.gasUsed
  events_eq : c.events = none ∨ c.events = some e.events

/-- What is checked against the info of an executed transaction is the transaction. -/
theorem reports_of_contents {e : ExecutedTransaction} {v : UInt64} (hfree : CollisionFree strings)
    (havoid : AvoidsDigest .accumulatorPlaceholder strings) (hledger : e.committed ⊆ strings)
    (hcheck : hashedContents transaction events ⊆ strings) (hfits : ContentsFit transaction events)
    (hok : checkContents version transaction events e.info = .ok ()) :
    CommittedTransaction.Reports ⟨v, transaction, events, e.info.gasUsed⟩ v.toNat e := by
  obtain ⟨-, hhash, hroot⟩ := checkContents_eq_ok_iff.1 hok
  have htransaction : transaction = e.transaction :=
    SignedTransaction.eq_of_hash_eq hfree (hcheck (List.mem_cons_of_mem _ List.mem_cons_self))
      (hledger List.mem_cons_self) hfits.transaction e.transaction_fits
      (hhash.trans e.transactionHash_eq)
  refine ⟨rfl, htransaction, rfl, ?_⟩
  cases events with
  | none => exact .inl rfl
  | some served =>
    have hserved : ContractEvent.building served ⊆ strings := by
      intro s hs
      refine hcheck (List.mem_cons_of_mem _ (List.mem_cons_of_mem _ ?_))
      exact List.mem_flatMap_of_mem List.mem_cons_self hs
    have hsame := ContractEvent.eq_of_root_eq hfree havoid hserved
      (List.Subset.trans (List.subset_cons_self _ _) hledger) (hfits.events served rfl)
      e.events_fit (hroot served rfl) e.eventRoot_eq
    exact .inr (congrArg some hsame)

end Contents

namespace TransactionEvidence
variable {t : TransactionEvidence} {proven : Proven CommittedTransaction}

/-- The strings that are hashed when the evidence is checked. -/
def hashed (t : TransactionEvidence) : List (List UInt8) :=
  hashedContents t.transaction t.events ++ t.proof.hashed t.version

theorem verify_eq_ok_iff :
    t.verify trusted = .ok proven ↔
      checkContents t.version.toNat t.transaction t.events t.proof.info = .ok () ∧
        t.proof.verify trusted t.version = .ok () ∧
        ⟨⟨t.version, t.transaction, t.events, t.proof.info.gasUsed⟩, trusted⟩ = proven := by
  simp only [verify, bind_eq_ok_iff, pure_eq_ok_iff]
  constructor
  · rintro ⟨_, hcontents, _, hproof, hproven⟩
    exact ⟨hcontents, hproof, hproven⟩
  · rintro ⟨hcontents, hproof, hproven⟩
    exact ⟨(), hcontents, (), hproof, hproven⟩

theorem reports_of_verify (hcovers : trusted.Covers (ledger.map ExecutedTransaction.info))
    (hfits : ContentsFit t.transaction t.events) (hok : t.verify trusted = .ok proven)
    (hfree : CollisionFree strings) (havoid : AvoidsDigest .accumulatorPlaceholder strings)
    (hledger : ExecutedTransaction.building ledger ⊆ strings) (hcheck : t.hashed ⊆ strings) :
    ∃ h : t.version.toNat < ledger.length,
      proven.value.Reports t.version.toNat ledger[t.version.toNat] := by
  obtain ⟨hcontents, hproof, rfl⟩ := verify_eq_ok_iff.1 hok
  have hinfo := InfoEvidence.getElem?_of_verify hcovers hproof hfree havoid
    (List.Subset.trans (List.subset_append_left _ _) hledger)
    (List.Subset.trans (List.subset_append_right _ _) hcheck)
  rw [List.getElem?_map] at hinfo
  obtain ⟨e, he, hsame⟩ := Option.map_eq_some_iff.1 hinfo
  obtain ⟨hlt, rfl⟩ := List.getElem?_eq_some_iff.1 he
  rw [← hsame] at hcontents ⊢
  exact ⟨hlt, reports_of_contents hfree havoid
    (List.Subset.trans (ExecutedTransaction.committed_subset (List.getElem_mem hlt)) hledger)
    (List.Subset.trans (List.subset_append_left _ _) hcheck) hfits hcontents⟩

end TransactionEvidence

namespace RunEvidence
variable {l : RunEvidence} {proven : Proven (List CommittedTransaction)} {entries : List RunEntry}

/-- The strings that are hashed when one entry is checked by itself, and that of its leaf. -/
def hashedEntry (t : RunEntry) : List (List UInt8) :=
  Domain.transactionInfo.preimage (TransactionInfo.format.encode t.info) ::
    hashedContents t.transaction t.events

/-- The strings that are hashed when the evidence is checked. -/
def hashed (l : RunEvidence) : List (List UInt8) :=
  l.transactions.flatMap hashedEntry ++
    (l.proof.computation l.firstVersion (l.transactions.map fun t => t.info.hash)).hashed
      .transaction

theorem checkContiguous_eq_ok_iff {expected : ℕ} :
    checkContiguous expected entries = .ok () ↔
      ∀ i (h : i < entries.length), entries[i].version.toNat = expected + i := by
  induction entries generalizing expected with
  | nil => simp [checkContiguous]
  | cons t rest ih =>
    simp only [checkContiguous, ite_error_eq_ok_iff, ne_eq, Decidable.not_not, ih]
    constructor
    · rintro ⟨hfirst, hrest⟩ i hi
      cases i with
      | zero => exact hfirst
      | succ i =>
        rw [List.getElem_cons_succ, hrest i (Nat.lt_of_succ_lt_succ hi)]
        omega
    · intro h
      refine ⟨h 0 (Nat.zero_lt_succ _), fun i hi => ?_⟩
      have hnext := h (i + 1) (Nat.succ_lt_succ hi)
      rw [List.getElem_cons_succ] at hnext
      omega

theorem checkLast_eq_ok_iff :
    checkLast entries trusted = .ok () ↔
      ∀ t ∈ entries.getLast?, t.version.toNat ≤ trusted.version.toNat := by
  unfold checkLast
  cases entries.getLast? with
  | none => simp
  | some t => simp [UInt64.le_iff_toNat_le]

theorem check_eq_ok_iff {t : RunEntry} {c : CommittedTransaction} :
    t.check = .ok c ↔
      checkContents t.version.toNat t.transaction t.events t.info = .ok () ∧
        ⟨t.version, t.transaction, t.events, t.info.gasUsed⟩ = c := by
  simp only [RunEntry.check, bind_eq_ok_iff, pure_eq_ok_iff]
  constructor
  · rintro ⟨_, hcontents, hc⟩
    exact ⟨hcontents, hc⟩
  · rintro ⟨hcontents, hc⟩
    exact ⟨(), hcontents, hc⟩

theorem verify_eq_ok_iff :
    l.verify trusted = .ok proven ↔
      checkContiguous l.firstVersion l.transactions = .ok () ∧
        checkLast l.transactions trusted = .ok () ∧
        List.Forall₂ (fun t c => t.check = .ok c) l.transactions proven.value ∧
        l.proof.verify l.firstVersion (l.transactions.map fun t => t.info.hash)
          trusted.accumulatorRoot = .ok () ∧
        trusted = proven.ledgerInfo := by
  simp only [verify, bind_eq_ok_iff, pure_eq_ok_iff, ofProof, mapError_eq_ok_iff, mapM_eq_ok_iff]
  constructor
  · rintro ⟨_, hcontiguous, _, hlast, committed, hentries, _, hproof, rfl⟩
    exact ⟨hcontiguous, hlast, hentries, hproof, rfl⟩
  · rintro ⟨hcontiguous, hlast, hentries, hproof, rfl⟩
    exact ⟨(), hcontiguous, (), hlast, proven.value, hentries, (), hproof, rfl⟩

section Ledger
variable (hcovers : trusted.Covers (ledger.map ExecutedTransaction.info))
  (hok : l.verify trusted = .ok proven) (hfree : CollisionFree strings)
  (havoid : AvoidsDigest .accumulatorPlaceholder strings)
  (hledger : ExecutedTransaction.building ledger ⊆ strings) (hcheck : l.hashed ⊆ strings)
include hcovers hok hfree havoid hledger hcheck

/-- The last version is checked against the ledger, and so are the versions before it. -/
theorem info_eq_of_verify {i : ℕ} (hi : i < l.transactions.length) :
    ∃ h : l.firstVersion + i < ledger.length,
      ledger[l.firstVersion + i].info = l.transactions[i].info := by
  obtain ⟨hcontiguous, hlast, -, hproof, -⟩ := verify_eq_ok_iff.1 hok
  -- Of the versions only the last one is compared with the ledger info.
  have hend : l.transactions.length - 1 < l.transactions.length := by omega
  have hlt : l.firstVersion + i < ledger.length := by
    have hversion := checkContiguous_eq_ok_iff.1 hcontiguous _ hend
    have hle := checkLast_eq_ok_iff.1 hlast l.transactions[l.transactions.length - 1] (by
      rw [List.getLast?_eq_getElem?, List.getElem?_eq_getElem hend]
      rfl)
    have hlength := hcovers.length_eq
    rw [List.length_map] at hlength
    omega
  have hleaf : (l.transactions.map fun t => t.info.hash)[i]? =
      some l.transactions[i].info.hash := by
    rw [List.getElem?_map, List.getElem?_eq_getElem hi]
    rfl
  have hpreimage : Domain.transactionInfo.preimage
      (TransactionInfo.format.encode l.transactions[i].info) ∈ strings :=
    hcheck (List.mem_append_left _
      (List.mem_flatMap_of_mem (List.getElem_mem hi) List.mem_cons_self))
  have hrecord := RangeProof.record_of_verify hfree havoid (by decide)
    (List.Subset.trans (List.subset_append_left _ _) hledger) hcovers.rootOf hproof
    (List.Subset.trans (List.subset_append_right _ _) hcheck) hleaf hpreimage
    (by rwa [TransactionInfo.records, List.length_map, List.length_map])
  have hinfo := TransactionInfo.getElem?_of_records hrecord
  rw [List.getElem?_map, List.getElem?_eq_getElem hlt] at hinfo
  exact ⟨hlt, Option.some.inj hinfo⟩

theorem reports_of_verify (hfits : ∀ t ∈ l.transactions, ContentsFit t.transaction t.events) {i : ℕ}
    (hi : i < proven.value.length) :
    ∃ h : l.firstVersion + i < ledger.length,
      proven.value[i].Reports (l.firstVersion + i) ledger[l.firstVersion + i] := by
  obtain ⟨hcontiguous, -, hentries, -⟩ := verify_eq_ok_iff.1 hok
  have hit : i < l.transactions.length := hentries.length_eq.symm ▸ hi
  have hversion := checkContiguous_eq_ok_iff.1 hcontiguous i hit
  have hentry : l.transactions[i].check = .ok proven.value[i] := hentries.get hit hi
  obtain ⟨hcontents, hcommitted⟩ := check_eq_ok_iff.1 hentry
  have hhashed : hashedContents l.transactions[i].transaction l.transactions[i].events ⊆ strings :=
    fun s hs => hcheck (List.mem_append_left _
      (List.mem_flatMap_of_mem (List.getElem_mem hit) (List.mem_cons_of_mem _ hs)))
  obtain ⟨hlt, hinfo⟩ := info_eq_of_verify hcovers hok hfree havoid hledger hcheck hit
  rw [← hinfo] at hcontents
  have hreports := reports_of_contents (v := l.transactions[i].version) hfree havoid
    (List.Subset.trans (ExecutedTransaction.committed_subset (List.getElem_mem hlt)) hledger)
    hhashed (hfits _ (List.getElem_mem hit)) hcontents
  rw [hversion, hinfo, hcommitted] at hreports
  exact ⟨hlt, hreports⟩

end Ledger

end RunEvidence

/-- Whatever is proven of a run is in the ledger at its own versions, and so is whatever is proven
of one transaction. -/
theorem reports_of_proven (hcovers : trusted.Covers (ledger.map ExecutedTransaction.info)) :
    (∀ (l : RunEvidence) (proven : Proven (List CommittedTransaction)),
      l.verify trusted = .ok proven →
      (∀ t ∈ l.transactions, ContentsFit t.transaction t.events) →
      CollisionFree (ExecutedTransaction.building ledger ++ l.hashed) →
      AvoidsDigest .accumulatorPlaceholder (ExecutedTransaction.building ledger ++ l.hashed) →
      proven.value.length = l.transactions.length ∧
        ∀ i (h : i < proven.value.length), ∃ h' : l.firstVersion + i < ledger.length,
          proven.value[i].Reports (l.firstVersion + i) ledger[l.firstVersion + i]) ∧
    ∀ (t : TransactionEvidence) (proven : Proven CommittedTransaction),
      t.verify trusted = .ok proven → ContentsFit t.transaction t.events →
      CollisionFree (ExecutedTransaction.building ledger ++ t.hashed) →
      AvoidsDigest .accumulatorPlaceholder (ExecutedTransaction.building ledger ++ t.hashed) →
      ∃ h : t.version.toNat < ledger.length,
        proven.value.Reports t.version.toNat ledger[t.version.toNat] := by
  constructor
  · intro l proven hok hfits hfree havoid
    obtain ⟨-, -, hentries, -⟩ := RunEvidence.verify_eq_ok_iff.1 hok
    refine ⟨hentries.length_eq.symm, fun i hi => ?_⟩
    exact RunEvidence.reports_of_verify hcovers hok hfree havoid (List.subset_append_left _ _)
      (List.subset_append_right _ _) hfits hi
  · intro t proven hok hfits hfree havoid
    exact TransactionEvidence.reports_of_verify hcovers hfits hok hfree havoid
      (List.subset_append_left _ _) (List.subset_append_right _ _)

/-! ## Two versions

A ledger in which one transaction was executed twice, served as a run without the events of the
first version, and its second version served by itself. -/

namespace TwoVersions

/-- A transaction that writes nothing, signed with the secret one. -/
def transaction : SignedTransaction :=
  .mk ⟨.zero, 0, .writeSet ⟨[], []⟩, 0, 0, 0⟩ .generator <| .ofParts
  0x9209af232a82717fc6eff86e77360f89e177e229d85c5bddc6994c6b07cfadc2aa0428bd3b9c3c5c05d9bdffd03bdd67
  0x199063ad48c49b10de488d3e04e3706611b53bd2d49ba1a67f30e12afac080637db8a5535fc231c56f67297a791d6faf

theorem transaction_verify : transaction.verify = .ok () :=
  verifySignature_of_signatureHolds (by decide +kernel)

theorem transaction_fits : transaction.Fits where
  writes_length := by decide
  paths := nofun
  ops := nofun
  events_length := by decide
  events := nofun

def first : ExecutedTransaction where
  transaction := transaction
  events := []
  info := ⟨transaction.hash, .zero, .accumulatorPlaceholder, 0⟩
  transaction_fits := transaction_fits
  events_fit := nofun
  transactionHash_eq := rfl
  eventRoot_eq := by decide +kernel

def event : ContractEvent := ⟨⟨[]⟩, 0, []⟩

def second : ExecutedTransaction where
  transaction := transaction
  events := [event]
  info := ⟨transaction.hash, .zero, event.hash, 1⟩
  transaction_fits := transaction_fits
  events_fit := List.forall_mem_singleton.2 ⟨by decide, by decide⟩
  transactionHash_eq := rfl
  eventRoot_eq := by decide +kernel

def executed : List ExecutedTransaction := [first, second]

def checkpoint : LedgerInfo :=
  ⟨0, 0, .zero, AccumulatorKind.transaction.node first.info.hash second.info.hash, 1, 0, none,
    .zero⟩

def run : RunEvidence :=
  ⟨[⟨0, transaction, none, first.info⟩, ⟨1, transaction, some [event], second.info⟩], .empty⟩

def single : TransactionEvidence :=
  ⟨1, transaction, none, ⟨⟨[first.info.hash]⟩, second.info⟩⟩

theorem covers : checkpoint.Covers (executed.map ExecutedTransaction.info) :=
  ⟨rfl, by decide +kernel⟩

/-- Nothing that is hashed anywhere collides, or is taken for an empty subtree. -/
theorem hashed_apart :
    CollisionFree (ExecutedTransaction.building executed ++ (run.hashed ++ single.hashed)) ∧
      AvoidsDigest .accumulatorPlaceholder
        (ExecutedTransaction.building executed ++ (run.hashed ++ single.hashed)) := by
  decide +kernel

theorem run_verify : run.verify checkpoint =
    .ok ⟨[⟨0, transaction, none, 0⟩, ⟨1, transaction, some [event], 1⟩], checkpoint⟩ := by
  have hfirst : checkContents 0 transaction none first.info = .ok () :=
    checkContents_eq_ok_iff.2 ⟨transaction_verify, rfl, nofun⟩
  have hsecond : checkContents 1 transaction (some [event]) second.info = .ok () :=
    checkContents_eq_ok_iff.2 ⟨transaction_verify, rfl, by
      rintro _ ⟨⟩
      exact second.eventRoot_eq⟩
  refine RunEvidence.verify_eq_ok_iff.2 ⟨by decide +kernel, by decide +kernel, ?_, ?_, rfl⟩
  · exact .cons (RunEvidence.check_eq_ok_iff.2 ⟨hfirst, rfl⟩)
      (.cons (RunEvidence.check_eq_ok_iff.2 ⟨hsecond, rfl⟩) .nil)
  · decide +kernel

theorem single_verify :
    single.verify checkpoint = .ok ⟨⟨1, transaction, none, 1⟩, checkpoint⟩ := by
  have hcontents : checkContents 1 transaction none second.info = .ok () :=
    checkContents_eq_ok_iff.2 ⟨transaction_verify, rfl, nofun⟩
  exact TransactionEvidence.verify_eq_ok_iff.2 ⟨hcontents, by decide +kernel, rfl⟩

theorem run_fits : ∀ t ∈ run.transactions, ContentsFit t.transaction t.events := by
  have hsecond : ContentsFit transaction (some [event]) :=
    ⟨transaction_fits, by
      rintro _ ⟨⟩
      exact second.events_fit⟩
  exact List.forall_mem_cons.2 ⟨⟨transaction_fits, nofun⟩, List.forall_mem_singleton.2 hsecond⟩

theorem reports_of_proven_two_versions :
    checkpoint.Covers (executed.map ExecutedTransaction.info) ∧
    ∃ committed last, run.verify checkpoint = .ok committed ∧ single.verify checkpoint = .ok last ∧
      (∀ t ∈ run.transactions, ContentsFit t.transaction t.events) ∧
      ContentsFit single.transaction single.events ∧
      CollisionFree (ExecutedTransaction.building executed ++ run.hashed) ∧
      AvoidsDigest .accumulatorPlaceholder (ExecutedTransaction.building executed ++ run.hashed) ∧
      CollisionFree (ExecutedTransaction.building executed ++ single.hashed) ∧
      AvoidsDigest .accumulatorPlaceholder
        (ExecutedTransaction.building executed ++ single.hashed) ∧
      (committed.value.length = run.transactions.length ∧
        ∀ i (h : i < committed.value.length), ∃ h' : run.firstVersion + i < executed.length,
          committed.value[i].Reports (run.firstVersion + i) executed[run.firstVersion + i]) ∧
      ∃ h : single.version.toNat < executed.length,
        last.value.Reports single.version.toNat executed[single.version.toNat] := by
  have hrun : ExecutedTransaction.building executed ++ run.hashed ⊆
      ExecutedTransaction.building executed ++ (run.hashed ++ single.hashed) :=
    List.append_subset.2 ⟨List.subset_append_left _ _,
      List.subset_append_of_subset_right _ (List.subset_append_left _ _)⟩
  have hsingle : ExecutedTransaction.building executed ++ single.hashed ⊆
      ExecutedTransaction.building executed ++ (run.hashed ++ single.hashed) :=
    List.append_subset.2 ⟨List.subset_append_left _ _,
      List.subset_append_of_subset_right _ (List.subset_append_right _ _)⟩
  have hfits : ContentsFit single.transaction single.events := ⟨transaction_fits, nofun⟩
  refine ⟨covers, _, _, run_verify, single_verify, run_fits, hfits, hashed_apart.1.mono hrun,
    hashed_apart.2.mono hrun, hashed_apart.1.mono hsingle, hashed_apart.2.mono hsingle, ?_, ?_⟩
  · exact (reports_of_proven covers).1 run _ run_verify run_fits (hashed_apart.1.mono hrun)
      (hashed_apart.2.mono hrun)
  · exact (reports_of_proven covers).2 single _ single_verify hfits (hashed_apart.1.mono hsingle)
      (hashed_apart.2.mono hsingle)

end TwoVersions
end VerifiedLedger
