import VerifiedLedger.Proofs.Evidence.Transaction
/-! # Runs put together

A node serves a run as lists side by side. They go together if they are of one length, and an entry
then holds what stands at its place in each of them. Its version is counted from the first one on,
so that a run which ends before the last versions there are is never refused for a gap.
-/
namespace VerifiedLedger

/-- Anything but a gap between two versions. -/
def EvidenceError.NoGap (e : EvidenceError) : Prop := ∀ expected got, e ≠ .versionGap expected got

theorem ofProof_noGap {α : Type} {result : Except ProofError α} :
    FailsWith EvidenceError.NoGap (ofProof result) := .mapError fun _ => nofun

theorem checkContents_noGap {version : ℕ} {transaction : SignedTransaction}
    {events : Option (List ContractEvent)} {info : TransactionInfo} :
    FailsWith EvidenceError.NoGap (checkContents version transaction events info) := by
  refine .bind (.mapError fun _ => nofun) fun _ _ => .ite (fun _ => .error nofun) fun _ => ?_
  cases events with
  | none => exact .ok ()
  | some served =>
    exact ofProof_noGap.bind fun _ _ => .ite (fun _ => .error nofun) fun _ => .ok ()

/-- What an entry of a run holds if it is made of the `i`-th items of the lists. -/
structure RunEntry.MadeAt (first : ℕ) (transactions : List SignedTransaction)
    (infos : List TransactionInfo) (events : Option (List (List ContractEvent))) (i : ℕ)
    (t : RunEntry) : Prop where
  version_eq : t.version.toNat = min (first + i) (UInt64.size - 1)
  transaction_eq : transactions[i]? = some t.transaction
  info_eq : infos[i]? = some t.info
  events_eq_none (h : events = none) : t.events = none
  events_eq (lists : List (List ContractEvent)) (h : events = some lists) :
    ∃ served, lists[i]? = some served ∧ t.events = some served

namespace RunEvidence
variable {firstVersion : Option UInt64} {transactions : List SignedTransaction}
  {infos : List TransactionInfo} {events : Option (List (List ContractEvent))}
  {proof : RangeProof .transaction} {l : RunEvidence} {trusted : LedgerInfo}

section Entries

theorem length_entries (version : ℕ) (h : infos.length = transactions.length) :
    (entries version transactions infos events).length = transactions.length := by
  induction transactions generalizing version infos events with
  | nil =>
    obtain rfl := List.eq_nil_of_length_eq_zero h
    rfl
  | cons transaction transactions ih =>
    cases infos with
    | nil => cases h
    | cons info infos =>
      rw [entries, List.length_cons, List.length_cons, ih (version + 1) (Nat.succ.inj h)]

/-- Taking the first event list away moves the others to the places of the rest. -/
theorem getElem?_entries {i : ℕ} {transaction : SignedTransaction} {info : TransactionInfo}
    (version : ℕ) (htransaction : transactions[i]? = some transaction)
    (hinfo : infos[i]? = some info) :
    (entries version transactions infos events)[i]? =
      some ⟨UInt64.ofNat (min (version + i) (UInt64.size - 1)), transaction, events.bind (·[i]?),
        info⟩ := by
  induction i generalizing version transactions infos events with
  | zero =>
    match transactions, infos, htransaction, hinfo with
    | first :: transactions, info :: infos, htransaction, hinfo =>
      cases htransaction
      cases hinfo
      simp only [entries, List.getElem?_cons_zero, Nat.add_zero, List.head?_eq_getElem?]
  | succ i ih =>
    match transactions, infos, htransaction, hinfo with
    | first :: transactions, info :: infos, htransaction, hinfo =>
      rw [List.getElem?_cons_succ] at htransaction hinfo
      have hlists : (events.map (·.drop 1)).bind (·[i]?) = events.bind (·[i + 1]?) := by
        cases events with
        | none => rfl
        | some lists => simp
      rw [entries, List.getElem?_cons_succ, ih (version + 1) htransaction hinfo, hlists,
        Nat.add_right_comm, Nat.add_assoc]

end Entries

/-- Lists that go together. Only a run without transactions may lack a first version. -/
structure Match (firstVersion : Option UInt64) (transactions : List SignedTransaction)
    (infos : List TransactionInfo) (events : Option (List (List ContractEvent))) : Prop where
  length_infos : infos.length = transactions.length
  length_events : ∀ lists ∈ events, lists.length = transactions.length
  firstVersion : firstVersion.isSome ∨ transactions = []

/-- The first version, where a run without transactions that has none begins at zero. -/
def firstOf (firstVersion : Option UInt64) : ℕ := (firstVersion.getD 0).toNat

theorem ofParts_some_eq_ok_iff {version : UInt64} :
    ofParts (some version) transactions infos events proof = .ok l ↔
      transactions.length = infos.length ∧
        (∀ lists ∈ events, lists.length = transactions.length) ∧
        ⟨entries version.toNat transactions infos events, proof⟩ = l := by
  simp only [ofParts, ite_throw_bind_eq_ok_iff, ne_eq, Decidable.not_not]
  refine and_congr_right fun _ => ?_
  cases events with
  | none => simp
  | some lists =>
    simp only [ite_throw_bind_eq_ok_iff, Decidable.not_not, pure_eq_ok_iff, Option.mem_some_iff,
      forall_eq']

theorem ofParts_none_eq_ok_iff :
    ofParts none transactions infos events proof = .ok l ↔
      transactions.length = infos.length ∧
        (∀ lists ∈ events, lists.length = transactions.length) ∧ transactions = [] ∧
        ⟨[], proof⟩ = l := by
  have hnone : (if transactions.isEmpty then pure ⟨[], proof⟩
      else throw (.lengthMismatch .firstVersions 1 0) : Except EvidenceError RunEvidence) =
        .ok l ↔ transactions = [] ∧ ⟨[], proof⟩ = l := by
    cases transactions with
    | nil => simp
    | cons transaction transactions => simp
  simp only [ofParts, ite_throw_bind_eq_ok_iff, ne_eq, Decidable.not_not]
  refine and_congr_right fun _ => ?_
  cases events with
  | none =>
    refine hnone.trans ?_
    simp
  | some lists =>
    simp only [ite_throw_bind_eq_ok_iff, Decidable.not_not, hnone, Option.mem_some_iff, forall_eq']

theorem ofParts_eq_ok_iff :
    ofParts firstVersion transactions infos events proof = .ok l ↔
      Match firstVersion transactions infos events ∧
        ⟨entries (firstOf firstVersion) transactions infos events, proof⟩ = l := by
  cases firstVersion with
  | some version =>
    rw [ofParts_some_eq_ok_iff]
    exact ⟨fun ⟨hinfos, hevents, hl⟩ => ⟨⟨hinfos.symm, hevents, .inl rfl⟩, hl⟩,
      fun ⟨h, hl⟩ => ⟨h.length_infos.symm, h.length_events, hl⟩⟩
  | none =>
    rw [ofParts_none_eq_ok_iff]
    constructor
    · rintro ⟨hinfos, hevents, rfl, hl⟩
      exact ⟨⟨hinfos.symm, hevents, .inr rfl⟩, hl⟩
    · rintro ⟨h, hl⟩
      obtain rfl : transactions = [] := h.firstVersion.resolve_left Bool.false_ne_true
      exact ⟨h.length_infos.symm, h.length_events, rfl, hl⟩

theorem madeAt_of_entries {version i : ℕ} {t : RunEntry}
    (h : Match firstVersion transactions infos events)
    (ht : (entries version transactions infos events)[i]? = some t) :
    t.MadeAt version transactions infos events i := by
  obtain ⟨hi, -⟩ := List.getElem?_eq_some_iff.1 ht
  rw [length_entries version h.length_infos] at hi
  have hinfo : i < infos.length := hi.trans_eq h.length_infos.symm
  rw [getElem?_entries version (List.getElem?_eq_getElem hi) (List.getElem?_eq_getElem hinfo)] at ht
  have hversion : min (version + i) (UInt64.size - 1) < UInt64.size :=
    (Nat.min_le_right _ _).trans_lt (by decide)
  cases ht
  refine ⟨UInt64.toNat_ofNat_of_lt' hversion, List.getElem?_eq_getElem hi,
    List.getElem?_eq_getElem hinfo, ?_, ?_⟩
  · rintro rfl
    rfl
  · rintro lists rfl
    have hlists : i < lists.length := hi.trans_eq (h.length_events lists rfl).symm
    exact ⟨lists[i], List.getElem?_eq_getElem hlists, List.getElem?_eq_getElem hlists⟩

/-- As long as the versions do not stop, they count on from the first one. -/
theorem checkContiguous_entries (version : ℕ) (h : Match firstVersion transactions infos events)
    (hlast : version + transactions.length ≤ UInt64.size) :
    checkContiguous (RunEvidence.firstVersion ⟨entries version transactions infos events, proof⟩)
      (entries version transactions infos events) = .ok () := by
  cases hentries : entries version transactions infos events with
  | nil => rfl
  | cons t rest =>
    have hlength : (entries version transactions infos events).length = transactions.length :=
      length_entries version h.length_infos
    have hmade : ∀ i (hi : i < (t :: rest).length),
        (t :: rest)[i].version.toNat = version + i := by
      rw [← hentries]
      intro i hi
      have hversion := (madeAt_of_entries h (List.getElem?_eq_getElem hi)).version_eq
      omega
    have hfirst : t.version.toNat = version := hmade 0 (Nat.succ_pos _)
    change checkContiguous t.version.toNat (t :: rest) = .ok ()
    rw [hfirst]
    exact checkContiguous_eq_ok_iff.2 hmade

theorem checkLast_noGap {entries : List RunEntry} :
    FailsWith EvidenceError.NoGap (checkLast entries trusted) := by
  unfold checkLast
  cases entries.getLast? with
  | none => exact .ok ()
  | some t => exact .ite (fun _ => .error nofun) fun _ => .ok ()

/-- A run whose versions are contiguous is refused for other reasons, if at all. -/
theorem verify_noGap (h : checkContiguous l.firstVersion l.transactions = .ok ()) :
    FailsWith EvidenceError.NoGap (l.verify trusted) := by
  rw [verify, h, ok_bind]
  refine checkLast_noGap.bind fun _ _ => .bind (.mapM fun t _ => ?_) fun _ _ =>
    .bind ofProof_noGap fun _ _ => .ok _
  exact checkContents_noGap.bind fun _ _ => .ok _

/-- What a run is that was put together from the lists. -/
structure PutTogether (first : ℕ) (transactions : List SignedTransaction)
    (infos : List TransactionInfo) (events : Option (List (List ContractEvent)))
    (proof : RangeProof .transaction) (l : RunEvidence) : Prop where
  proof_eq : l.proof = proof
  length_eq : l.transactions.length = transactions.length
  entry (i : ℕ) (t : RunEntry) (h : l.transactions[i]? = some t) :
    t.MadeAt first transactions infos events i
  contiguous (h : first + transactions.length < UInt64.size - 2) (trusted : LedgerInfo)
    (expected got : ℕ) : l.verify trusted ≠ .error (.versionGap expected got)

/-- Lists are put together exactly if they go together, and then into the run that they describe. -/
theorem putTogether_ofParts (firstVersion : Option UInt64) (transactions : List SignedTransaction)
    (infos : List TransactionInfo) (events : Option (List (List ContractEvent)))
    (proof : RangeProof .transaction) :
    ((∃ l, ofParts firstVersion transactions infos events proof = .ok l) ↔
        Match firstVersion transactions infos events) ∧
      ∀ l, ofParts firstVersion transactions infos events proof = .ok l →
        PutTogether (firstOf firstVersion) transactions infos events proof l := by
  constructor
  · constructor
    · rintro ⟨l, hl⟩
      exact (ofParts_eq_ok_iff.1 hl).1
    · exact fun h => ⟨_, ofParts_eq_ok_iff.2 ⟨h, rfl⟩⟩
  · intro l hl
    obtain ⟨h, rfl⟩ := ofParts_eq_ok_iff.1 hl
    refine ⟨rfl, length_entries _ h.length_infos, fun i t => madeAt_of_entries h, ?_⟩
    intro hlast trusted expected got hgap
    exact verify_noGap (checkContiguous_entries _ h (by omega)) _ hgap expected got rfl

/-- Both transactions of a ledger, numbered as if others stood before them. -/
theorem putTogether_twoVersions :
    ∃ l, ofParts (some 7) [TwoVersions.transaction, TwoVersions.transaction]
        [TwoVersions.first.info, TwoVersions.second.info] (some [[], [TwoVersions.event]]) .empty =
          .ok l ∧
      (l.transactions.map fun t => (t.version, t.events)) =
        [(7, some []), (8, some [TwoVersions.event])] ∧
      PutTogether 7 [TwoVersions.transaction, TwoVersions.transaction]
        [TwoVersions.first.info, TwoVersions.second.info] (some [[], [TwoVersions.event]])
        .empty l :=
  ⟨_, rfl, rfl, (putTogether_ofParts (some 7) _ _ _ _).2 _ rfl⟩

end RunEvidence
end VerifiedLedger
