import VerifiedLedger.Proofs.Evidence.Transaction
import VerifiedLedger.Proofs.Words
/-! # Versions of a run as words

The versions of a run are compared with a counter that is kept in a word. It is counted up before
an entry is looked at, and once more behind the last one, so that a run which gets to one of the
last two words fails. Below them a run is verified as with numbers.
-/
namespace VerifiedLedger.RunEvidence
variable {entries : List RunEntry} {expected : ℕ} {l : RunEvidence} {trusted : LedgerInfo}
  {proven : Proven (List CommittedTransaction)}

def checkContiguousWords (counter : UInt64) :
    List RunEntry → Except (WordFault EvidenceError) Unit
  | [] => (fun _ => ()) <$> Word.add counter 1
  | t :: rest => do
    let next ← Word.add counter 1
    if t.version ≠ counter then
      throw (.refused (.versionGap counter.toNat t.version.toNat))
    else checkContiguousWords next rest

/-- Verifies the run with its versions counted in words. -/
def verifyWords (l : RunEvidence) (trusted : LedgerInfo) :
    Except (WordFault EvidenceError) (Proven (List CommittedTransaction)) := do
  checkContiguousWords (UInt64.ofNat l.firstVersion) l.transactions
  Word.answer id do
    checkLast l.transactions trusted
    let committed ← l.transactions.mapM RunEntry.check
    ofProof (l.proof.verify l.firstVersion (l.transactions.map fun t => t.info.hash)
      trusted.accumulatorRoot)
    return ⟨committed, trusted⟩

section Counter
variable (hexpected : expected < UInt64.size)
include hexpected

theorem nextCounter_eq :
    (Word.add (UInt64.ofNat expected) 1 : Except (WordFault EvidenceError) UInt64) =
      if expected + 1 < UInt64.size then .ok (UInt64.ofNat (expected + 1))
      else .error .overflow := by
  rw [Word.add, UInt64.toNat_ofNat_of_lt' hexpected, UInt64.toNat_one]
  rfl

theorem checkContiguousWords_nil :
    checkContiguousWords (UInt64.ofNat expected) [] =
      if expected + 1 < UInt64.size then .ok () else .error .overflow := by
  rw [checkContiguousWords, nextCounter_eq hexpected]
  split
  · rfl
  · rfl

theorem checkContiguousWords_cons (t : RunEntry) (rest : List RunEntry) :
    checkContiguousWords (UInt64.ofNat expected) (t :: rest) =
      if expected + 1 < UInt64.size then
        if t.version.toNat ≠ expected then
          .error (.refused (.versionGap expected t.version.toNat))
        else checkContiguousWords (UInt64.ofNat (expected + 1)) rest
      else .error .overflow := by
  have hcounter : (UInt64.ofNat expected).toNat = expected := UInt64.toNat_ofNat_of_lt' hexpected
  have hversion : t.version = UInt64.ofNat expected ↔ t.version.toNat = expected := by
    rw [← UInt64.toNat_inj, hcounter]
  rw [checkContiguousWords, nextCounter_eq hexpected, hcounter]
  by_cases hnext : expected + 1 < UInt64.size
  · rw [if_pos hnext, if_pos hnext, ok_bind]
    simp only [ne_eq, hversion]
    rfl
  · rw [if_neg hnext, if_neg hnext]
    rfl

end Counter

theorem checkContiguousWords_eq (hexpected : expected + 1 < UInt64.size)
    (hversions : ∀ t ∈ entries, t.version.toNat + 2 < UInt64.size) :
    checkContiguousWords (UInt64.ofNat expected) entries =
      Word.answer id (checkContiguous expected entries) := by
  have hword : expected < UInt64.size := Nat.lt_of_succ_lt hexpected
  induction entries generalizing expected with
  | nil =>
    rw [checkContiguousWords_nil hword, if_pos hexpected]
    rfl
  | cons t rest ih =>
    rw [checkContiguousWords_cons hword, if_pos hexpected, checkContiguous]
    by_cases hgap : t.version.toNat ≠ expected
    · rw [if_pos hgap, if_pos hgap]
      rfl
    · -- The version that is passed is the counter's, so the bound on it covers the next step.
      have hnext := hversions t List.mem_cons_self
      rw [not_not.1 hgap] at hnext
      rw [if_neg hgap, if_neg hgap]
      exact ih hnext (fun u hu => hversions u (List.mem_cons_of_mem t hu)) hexpected

/-- Without a gap the counter goes one step further than there are entries. -/
theorem checkContiguousWords_of_ok (hexpected : expected < UInt64.size)
    (h : checkContiguous expected entries = .ok ()) :
    checkContiguousWords (UInt64.ofNat expected) entries =
      if expected + entries.length + 1 < UInt64.size then .ok () else .error .overflow := by
  induction entries generalizing expected with
  | nil => exact checkContiguousWords_nil hexpected
  | cons t rest ih =>
    obtain ⟨hversion, hrest⟩ := ite_error_eq_ok_iff.1 h
    rw [checkContiguousWords_cons hexpected, if_neg hversion, List.length_cons]
    by_cases hnext : expected + 1 < UInt64.size
    · rw [if_pos hnext, ih hnext hrest, Nat.add_right_comm expected 1, Nat.add_assoc expected]
    · rw [if_neg hnext, if_neg (by omega)]

theorem firstVersion_lt (l : RunEvidence) : l.firstVersion < UInt64.size := by
  unfold firstVersion
  cases l.transactions with
  | nil => decide
  | cons t rest => exact t.version.toNat_lt

/-- Where no version is one of the last two words, a run is verified on words as on numbers. -/
theorem verifyWords_eq (h : ∀ t ∈ l.transactions, t.version.toNat + 2 < UInt64.size) :
    l.verifyWords trusted = Word.answer id (l.verify trusted) := by
  have hfirst : l.firstVersion + 1 < UInt64.size := by
    unfold firstVersion
    cases htransactions : l.transactions with
    | nil => decide
    | cons t rest => exact Nat.lt_of_succ_lt (h t (by simp [htransactions]))
  rw [verifyWords, checkContiguousWords_eq hfirst h, verify]
  cases checkContiguous l.firstVersion l.transactions with
  | error e => rfl
  | ok => rfl

/-- A run that is verified on numbers is verified on words as well unless the counter gets beyond
the last of them. -/
theorem verifyWords_of_verify (h : l.verify trusted = .ok proven) :
    l.verifyWords trusted =
      if l.firstVersion + l.transactions.length + 1 < UInt64.size then .ok proven
      else .error .overflow := by
  have hcontiguous := (verify_eq_ok_iff.1 h).1
  rw [verify, hcontiguous, ok_bind] at h
  rw [verifyWords, checkContiguousWords_of_ok l.firstVersion_lt hcontiguous, h]
  split
  · rfl
  · rfl

end VerifiedLedger.RunEvidence
