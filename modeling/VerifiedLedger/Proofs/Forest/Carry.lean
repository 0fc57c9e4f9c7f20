import VerifiedLedger.Proofs.Forest.Valid
/-! # Carries in valid forests

A carry joins as many peaks as the count loses one bits. In a valid forest so many are there, hence
neither a leaf nor a subtree finds too few of them, and the forest that comes out is valid again.
-/
namespace VerifiedLedger.Forest
variable {α : Type} {f g : Forest α}

theorem exists_merge (node : α → α → α) {count : ℕ} (current : α) {peaks : List α}
    (h : count ≤ peaks.length) :
    ∃ merged, merge node count current peaks = some merged ∧
      merged.length + count = peaks.length + 1 := by
  induction count generalizing current peaks with
  | zero => exact ⟨current :: peaks, rfl, rfl⟩
  | succ count ih =>
    cases peaks with
    | nil => cases h
    | cons left rest =>
      obtain ⟨merged, hmerged, hlength⟩ := ih (node left current) (Nat.le_of_succ_le_succ h)
      refine ⟨merged, hmerged, ?_⟩
      rw [List.length_cons]
      omega

/-- The first phase moves leaves over to the forest and loses none. -/
theorem total_fill {node : α → α → α} {newLeaves remaining : ℕ} {subtrees : List α}
    {filled : Filling α} (h : fill node newLeaves f remaining subtrees = .ok filled) :
    filled.forest.leafCount + filled.remaining = f.leafCount + remaining := by
  induction subtrees generalizing f remaining with
  | nil =>
    by_cases hstop : f.leafCount = 0 ∨ remaining < 2 ^ Bits.trailingZeros f.leafCount
    · rw [fill_of_stop hstop] at h
      cases h
      rfl
    · exact absurd h (fill_nil_ne_ok hstop)
  | cons subtree subtrees ih =>
    by_cases hstop : f.leafCount = 0 ∨ remaining < 2 ^ Bits.trailingZeros f.leafCount
    · rw [fill_of_stop hstop] at h
      cases h
      rfl
    · obtain ⟨next, hnext, hrest⟩ := (fill_cons_eq_ok_iff hstop).1 h
      have hcount := (addBlock_eq_some_iff.1 hnext).2
      have htotal := ih hrest
      omega

theorem settle_ne_invalidState (filled : Filling α) (newLeaves : ℕ) (cause : InvalidState) :
    filled.settle newLeaves ≠ .error (.invalidState cause) := by
  rw [Filling.settle]
  split
  · exact fun h => nomatch h
  · split
    · exact fun h => nomatch h
    · exact fun h => nomatch h

namespace Valid

/-- A subtree that begins where subtrees of its size begin finds all the peaks that it completes. -/
theorem exists_addBlock (hf : f.Valid) (node : α → α → α) {level : ℕ} (block : α)
    (hd : 2 ^ level ∣ f.leafCount) (hmax : f.leafCount + 2 ^ level ≤ maxLeaves) :
    ∃ next, f.addBlock node (2 ^ level) block = some next ∧ next.Valid ∧
      next.leafCount = f.leafCount + 2 ^ level := by
  obtain ⟨blocks, hblocks⟩ := hd
  have hdiv : f.leafCount / 2 ^ level = blocks := by
    rw [hblocks, Nat.mul_div_cancel_left _ (Nat.two_pow_pos level)]
  have hpeaks : f.peaks.length = Bits.ones blocks := by
    rw [hf.length_peaks, hblocks, Bits.ones_two_pow_mul]
  have henough : Bits.trailingOnes blocks ≤ f.peaks.length := by
    rw [hpeaks]
    exact Bits.trailingOnes_le_ones blocks
  obtain ⟨merged, hmerged, hlength⟩ := exists_merge node block henough
  refine ⟨⟨merged, f.leafCount + 2 ^ level⟩, ?_, ⟨?_, hmax⟩, rfl⟩
  · apply addBlock_eq_some_iff.2
    rw [hdiv]
    exact ⟨hmerged, rfl⟩
  · have hsum : f.leafCount + 2 ^ level = 2 ^ level * (blocks + 1) := by
      rw [hblocks, Nat.mul_succ]
    have hones := Bits.ones_add_one blocks
    rw [hsum, Bits.ones_two_pow_mul]
    dsimp only
    omega

theorem exists_append (hf : f.Valid) (node : α → α → α) (leaf : α) (h : f.leafCount < maxLeaves) :
    ∃ next, f.append node leaf = .ok next ∧ next.Valid ∧ next.leafCount = f.leafCount + 1 := by
  have hd : 2 ^ 0 ∣ f.leafCount := one_dvd f.leafCount
  obtain ⟨next, hnext, hvalid, hcount⟩ := hf.exists_addBlock node leaf hd h
  exact ⟨next, append_eq_ok_iff.2 ⟨h, hnext⟩, hvalid, hcount⟩

theorem append {node : α → α → α} {leaf : α} (hf : f.Valid) (h : f.append node leaf = .ok g) :
    g.Valid := by
  obtain ⟨next, hnext, hvalid, -⟩ := hf.exists_append node leaf (append_eq_ok_iff.1 h).1
  rw [h] at hnext
  cases hnext
  exact hvalid

theorem append_ne_invalidState (hf : f.Valid) (node : α → α → α) (leaf : α) (cause : InvalidState) :
    f.append node leaf ≠ .error (.invalidState cause) := by
  by_cases hmax : f.leafCount < maxLeaves
  · obtain ⟨next, hnext, -⟩ := hf.exists_append node leaf hmax
    rw [hnext]
    exact fun h => nomatch h
  · rw [Forest.append, if_pos (Nat.le_of_not_lt hmax)]
    exact fun h => nomatch h

theorem appendAll {node : α → α → α} {leaves : List α} (hf : f.Valid)
    (h : f.appendAll node leaves = .ok g) : g.Valid := by
  induction leaves generalizing f with
  | nil =>
    cases h
    exact hf
  | cons leaf leaves ih =>
    obtain ⟨next, hnext, hrest⟩ := appendAll_cons_eq_ok_iff.1 h
    exact ih (hf.append hnext) hrest

variable {node : α → α → α} {newLeaves remaining : ℕ} {subtrees : List α} {e : ProofError}

/-- One turn of the first phase: the subtree fits and leaves room for what remains. -/
theorem exists_fill_step (hf : f.Valid) (hroom : f.leafCount + remaining ≤ maxLeaves)
    (hgo : ¬(f.leafCount = 0 ∨ remaining < 2 ^ Bits.trailingZeros f.leafCount)) (subtree : α) :
    ∃ next, f.addBlock node (2 ^ Bits.trailingZeros f.leafCount) subtree = some next ∧
      next.Valid ∧
      next.leafCount + (remaining - 2 ^ Bits.trailingZeros f.leafCount) ≤ maxLeaves := by
  have hd := Bits.two_pow_trailingZeros_dvd f.leafCount
  obtain ⟨next, hnext, hvalid, hcount⟩ := hf.exists_addBlock node subtree hd (by omega)
  refine ⟨next, hnext, hvalid, ?_⟩
  rw [hcount]
  omega

/-- The first phase lacks subtrees or nothing. -/
theorem eq_tooFewSubtrees_of_fill (hf : f.Valid) (hroom : f.leafCount + remaining ≤ maxLeaves)
    (h : fill node newLeaves f remaining subtrees = .error e) : e = .tooFewSubtrees newLeaves := by
  induction subtrees generalizing f remaining with
  | nil =>
    by_cases hstop : f.leafCount = 0 ∨ remaining < 2 ^ Bits.trailingZeros f.leafCount
    · rw [fill_of_stop hstop] at h
      cases h
    · rw [fill_nil hstop] at h
      cases h
      rfl
  | cons subtree subtrees ih =>
    by_cases hstop : f.leafCount = 0 ∨ remaining < 2 ^ Bits.trailingZeros f.leafCount
    · rw [fill_of_stop hstop] at h
      cases h
    · obtain ⟨next, hnext, hvalid, hnextRoom⟩ := hf.exists_fill_step hroom hstop subtree
      rw [fill_cons_of_addBlock hstop hnext] at h
      exact ih hvalid hnextRoom h

theorem appendSubtrees_ne_invalidState (hf : f.Valid) (node : α → α → α) (subtrees : List α)
    (newLeaves : ℕ) (cause : InvalidState) :
    f.appendSubtrees node subtrees newLeaves ≠ .error (.invalidState cause) := by
  have hle := hf.leafCount_le
  intro h
  rw [Forest.appendSubtrees] at h
  split at h
  · cases h
  · next hroom =>
    split at h
    · split at h
      · cases h
      · cases h
    · cases hfill : fill node newLeaves f newLeaves subtrees with
      | error e =>
        have he := hf.eq_tooFewSubtrees_of_fill (by omega) hfill
        rw [hfill, he] at h
        cases h
      | ok filled =>
        rw [hfill] at h
        exact settle_ne_invalidState filled newLeaves cause h

end Valid
end VerifiedLedger.Forest
