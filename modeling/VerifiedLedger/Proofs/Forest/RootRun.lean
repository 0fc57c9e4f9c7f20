import VerifiedLedger.Proofs.Forest.Steps
/-! # The loop to the root

Hashing the peaks together takes a peak for every one bit and would end early if it found none. A
run that gets through to the last bit is described turn by turn; there is one exactly where peaks and
one bits are as many.
-/
namespace VerifiedLedger.Forest
variable {α : Type} {node : α → α → α} {placeholder current top : α} {bitmap : ℕ} {peaks : List α}

/-- From the current node the loop goes through all the bits, takes all the peaks, each in its turn,
and ends with that node. -/
inductive FoldsUp (node : α → α → α) (placeholder : α) : ℕ → List α → α → α → Prop
  | done (current : α) : FoldsUp node placeholder 0 [] current current
  | peak {bitmap : ℕ} {left current top : α} {peaks : List α} (hodd : bitmap % 2 = 1)
      (hrest : FoldsUp node placeholder (bitmap / 2) peaks (node left current) top) :
      FoldsUp node placeholder bitmap (left :: peaks) current top
  | padding {bitmap : ℕ} {current top : α} {peaks : List α} (hpos : bitmap ≠ 0)
      (heven : bitmap % 2 = 0)
      (hrest : FoldsUp node placeholder (bitmap / 2) peaks (node current placeholder) top) :
      FoldsUp node placeholder bitmap peaks current top

theorem FoldsUp.foldPeaks_eq (h : FoldsUp node placeholder bitmap peaks current top) :
    foldPeaks node placeholder bitmap peaks current = top := by
  induction h with
  | done current => exact foldPeaks_zero
  | peak hodd _ ih => rw [foldPeaks_cons hodd, ih]
  | padding hpos heven _ ih => rw [foldPeaks_even hpos (by omega), ih]

theorem FoldsUp.length_peaks (h : FoldsUp node placeholder bitmap peaks current top) :
    peaks.length = Bits.ones bitmap := by
  induction h with
  | done current => exact Bits.ones_zero.symm
  | peak hodd _ ih =>
    rw [Bits.ones_of_pos (by omega), List.length_cons, ih, hodd, Nat.add_comm]
  | padding hpos heven _ ih =>
    rw [Bits.ones_of_pos (Nat.pos_of_ne_zero hpos), ih, heven, Nat.zero_add]

theorem foldsUp_foldPeaks (node : α → α → α) (placeholder current : α)
    (h : peaks.length = Bits.ones bitmap) :
    FoldsUp node placeholder bitmap peaks current
      (foldPeaks node placeholder bitmap peaks current) := by
  fun_induction foldPeaks node placeholder bitmap peaks current with
  | case1 peaks current =>
    obtain rfl := List.eq_nil_of_length_eq_zero (h.trans Bits.ones_zero)
    exact .done current
  | case2 bitmap current hb ho =>
    rw [Bits.ones_of_pos (Nat.pos_of_ne_zero hb), ho, List.length_nil] at h
    omega
  | case3 bitmap current hb ho peak rest ih =>
    have hones := Bits.ones_of_pos (Nat.pos_of_ne_zero hb)
    rw [List.length_cons] at h
    exact .peak ho (ih (by omega))
  | case4 bitmap peaks current hb he ih =>
    have hones := Bits.ones_of_pos (Nat.pos_of_ne_zero hb)
    exact .padding hb (by omega) (ih (by omega))

theorem foldsUp_iff :
    FoldsUp node placeholder bitmap peaks current top ↔
      peaks.length = Bits.ones bitmap ∧ foldPeaks node placeholder bitmap peaks current = top := by
  constructor
  · exact fun h => ⟨h.length_peaks, h.foldPeaks_eq⟩
  · rintro ⟨hlength, rfl⟩
    exact foldsUp_foldPeaks node placeholder current hlength

/-- Two peaks or more are hashed in a run that gets through. -/
theorem foldsUp_root {f : Forest α} (hf : f.peaks.length = Bits.ones f.leafCount)
    (htwo : 2 ≤ f.peaks.length) :
    FoldsUp node placeholder (f.leafCount >>> Bits.trailingZeros f.leafCount) f.peaks placeholder
      (f.root node placeholder) := by
  obtain ⟨peaks, count⟩ := f
  cases peaks with
  | nil => cases htwo
  | cons first rest =>
    cases rest with
    | nil => exact absurd htwo (by simp)
    | cons second rest =>
      apply foldsUp_iff.2
      exact ⟨hf.trans (Bits.ones_shiftRight_trailingZeros count).symm, rfl⟩

end VerifiedLedger.Forest
