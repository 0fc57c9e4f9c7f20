import VerifiedLedger.Proofs.Tree.Tiles
/-! # Valid forests

A forest is valid if it has one peak for every one bit of its leaf count. Counts alone decide what an
operation does, so that a valid forest is related to the forest of as many leaves of a tree without
content, and whatever lengths come out there come out everywhere.
-/
namespace VerifiedLedger.Forest
variable {α β : Type} {node : α → α → α} {node' : β → β → β} {f g : Forest α} {f' g' : Forest β}

structure Valid (f : Forest α) : Prop where
  length_peaks : f.peaks.length = Bits.ones f.leafCount
  leafCount_le : f.leafCount ≤ maxLeaves

theorem Related.length_peaks {R : α → β → Prop} (h : Related R f f') :
    f.peaks.length = f'.peaks.length := h.peaks.length_eq

theorem valid_empty : (empty : Forest α).Valid := ⟨by simp [empty], Nat.zero_le _⟩

theorem valid_prefixForest {placeholder : α} {leaves : List α} {count : ℕ}
    (h : count ≤ maxLeaves) : (prefixForest node placeholder leaves count).Valid :=
  ⟨length_peaksOf _ _ _, h⟩

/-- Both phases take as many subtrees as the counts say, whatever they are. -/
theorem fill_length_eq {newLeaves newLeaves' remaining : ℕ} {subtrees : List α}
    {subtrees' : List β} {filled : Filling α} {filled' : Filling β}
    (hc : f.leafCount = f'.leafCount)
    (h : fill node newLeaves f remaining subtrees = .ok filled)
    (h' : fill node' newLeaves' f' remaining subtrees' = .ok filled') :
    filled.remaining = filled'.remaining ∧
      subtrees.length + filled'.subtrees.length = subtrees'.length + filled.subtrees.length := by
  induction subtrees generalizing f f' remaining subtrees' with
  | nil =>
    by_cases hstop : f.leafCount = 0 ∨ remaining < 2 ^ Bits.trailingZeros f.leafCount
    · rw [fill_of_stop hstop] at h
      rw [hc] at hstop
      rw [fill_of_stop hstop] at h'
      cases h
      cases h'
      exact ⟨rfl, Nat.add_comm _ _⟩
    · exact absurd h (fill_nil_ne_ok hstop)
  | cons subtree subtrees ih =>
    by_cases hstop : f.leafCount = 0 ∨ remaining < 2 ^ Bits.trailingZeros f.leafCount
    · rw [fill_of_stop hstop] at h
      rw [hc] at hstop
      rw [fill_of_stop hstop] at h'
      cases h
      cases h'
      exact ⟨rfl, Nat.add_comm _ _⟩
    · obtain ⟨next, hb, hr⟩ := (fill_cons_eq_ok_iff hstop).1 h
      rw [hc] at hstop hr
      cases subtrees' with
      | nil => exact absurd h' (fill_nil_ne_ok hstop)
      | cons subtree' subtrees' =>
        obtain ⟨next', hb', hr'⟩ := (fill_cons_eq_ok_iff hstop).1 h'
        have hnext : next.leafCount = next'.leafCount := by
          rw [(addBlock_eq_some_iff.1 hb).2, (addBlock_eq_some_iff.1 hb').2, hc]
        obtain ⟨hrem, hlen⟩ := ih hnext hr hr'
        refine ⟨hrem, ?_⟩
        simp only [List.length_cons]
        omega

theorem appendSubtrees_length_eq {newLeaves : ℕ} {subtrees : List α} {subtrees' : List β}
    (hc : f.leafCount = f'.leafCount)
    (h : f.appendSubtrees node subtrees newLeaves = .ok g)
    (h' : f'.appendSubtrees node' subtrees' newLeaves = .ok g') :
    subtrees.length = subtrees'.length := by
  obtain ⟨-, filled, hfill, hsettle⟩ := appendSubtrees_eq_ok_iff.1 h
  obtain ⟨-, filled', hfill', hsettle'⟩ := appendSubtrees_eq_ok_iff.1 h'
  obtain ⟨hrem, hlen⟩ := fill_length_eq hc hfill hfill'
  have hneeded := (settle_eq_ok_iff.1 hsettle).1
  have hneeded' := (settle_eq_ok_iff.1 hsettle').1
  rw [hrem] at hneeded
  omega

/-- A valid forest has the lengths of the first leaves of any tree. -/
theorem Valid.related_prefixForest (hf : f.Valid) (leaves : List Unit) :
    Related (fun _ _ => True) f
      (prefixForest (fun _ _ => ()) () leaves f.leafCount) :=
  ⟨List.forall₂_iff_zip.2 ⟨hf.length_peaks.trans (length_peaksOf _ _ _).symm, fun _ => trivial⟩, rfl⟩

/-- Whatever the subtrees are, a forest that takes them stays valid and grows by the leaves that
were announced. -/
theorem Valid.appendSubtrees {newLeaves : ℕ} {subtrees : List α} (hf : f.Valid)
    (h : f.appendSubtrees node subtrees newLeaves = .ok g) :
    g.Valid ∧ g.leafCount = f.leafCount + newLeaves := by
  have hmax : f.leafCount + newLeaves ≤ maxLeaves := by
    have hle := (appendSubtrees_eq_ok_iff.1 h).1
    have hf := hf.leafCount_le
    omega
  set leaves : List Unit := List.replicate (f.leafCount + newLeaves) () with hleaves
  have hlength : leaves.length = f.leafCount + newLeaves := List.length_replicate
  have hjoins : Joins (fun _ _ => True) node (fun _ _ => ()) := fun _ _ _ _ _ _ => trivial
  have hunits : List.Forall₂ (fun _ _ => True) subtrees (subtrees.map fun _ => ()) :=
    List.forall₂_iff_zip.2 ⟨(List.length_map fun _ => ()).symm, fun _ => trivial⟩
  obtain ⟨g', hg', hgg'⟩ :=
    appendSubtrees_related hjoins (hf.related_prefixForest leaves) hunits h
  have hhonest := appendSubtrees_prefixForest (fun _ _ => ()) () (hlength.trans_le hmax) hlength.ge
  have hsame : subtrees.map (fun _ => ()) =
      tileRoots (fun _ _ => ()) () leaves f.leafCount newLeaves :=
    List.ext_getElem (appendSubtrees_length_eq rfl hg' hhonest) fun _ _ _ => rfl
  rw [hsame, hhonest] at hg'
  cases hg'
  have hcount : g.leafCount = f.leafCount + newLeaves := hgg'.leafCount
  refine ⟨⟨?_, hcount ▸ hmax⟩, hcount⟩
  rw [hgg'.length_peaks, hcount]
  exact length_peaksOf _ _ _

end VerifiedLedger.Forest
