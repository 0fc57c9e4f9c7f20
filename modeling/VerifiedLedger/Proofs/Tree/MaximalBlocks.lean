import Mathlib.Data.Set.Card
import VerifiedLedger.Proofs.Tree.Tiles
/-! # Maximal blocks

The greedy tiles of an interval of leaves are the largest blocks that lie in it: cut off from the
left or looked for anywhere, they are the same. So there is one number of subtrees that the leaves
of an interval form.
-/
namespace VerifiedLedger
variable {start count level index : ℕ}

/-- The block of that level and index is a part of the interval. -/
structure InInterval (start count level index : ℕ) : Prop where
  start_le : start ≤ index * 2 ^ level
  stop_le : (index + 1) * 2 ^ level ≤ start + count

/-- A part of the interval whose parent is not a part of it. -/
structure MaximalBlock (start count level index : ℕ) : Prop where
  inside : InInterval start count level index
  parent : ¬InInterval start count (level + 1) (index / 2)

/-- How many maximal blocks the interval has. -/
noncomputable def blockCount (start count : ℕ) : ℕ :=
  Set.ncard {block : ℕ × ℕ | MaximalBlock start count block.1 block.2}

section Aligned

/-- A multiple of the parent's size that is not beyond a block is not beyond its parent either. -/
theorem parent_start_le {bound : ℕ} (hd : 2 ^ (level + 1) ∣ bound) (h : bound ≤ index * 2 ^ level) :
    bound ≤ index / 2 * 2 ^ (level + 1) := by
  obtain ⟨blocks, rfl⟩ := hd
  have hpos := Nat.two_pow_pos level
  rw [Nat.pow_succ'] at h ⊢
  have hindex : 2 * blocks ≤ index := by
    apply Nat.le_of_mul_le_mul_right _ hpos
    calc 2 * blocks * 2 ^ level = 2 * 2 ^ level * blocks := by ring
      _ ≤ index * 2 ^ level := h
  calc 2 * 2 ^ level * blocks = blocks * (2 * 2 ^ level) := by ring
    _ ≤ index / 2 * (2 * 2 ^ level) := Nat.mul_le_mul_right _ (by omega)

theorem parent_stop_le {bound : ℕ} (hd : 2 ^ (level + 1) ∣ bound) (h : index * 2 ^ level < bound) :
    (index / 2 + 1) * 2 ^ (level + 1) ≤ bound := by
  obtain ⟨blocks, rfl⟩ := hd
  have hpos := Nat.two_pow_pos level
  rw [Nat.pow_succ'] at h ⊢
  have hindex : index < 2 * blocks := by
    apply Nat.lt_of_mul_lt_mul_right (a := 2 ^ level)
    calc index * 2 ^ level < 2 * 2 ^ level * blocks := h
      _ = 2 * blocks * 2 ^ level := by ring
  calc (index / 2 + 1) * (2 * 2 ^ level) ≤ blocks * (2 * 2 ^ level) :=
        Nat.mul_le_mul_right _ (by omega)
    _ = 2 * 2 ^ level * blocks := by ring

/-- Multiples of a size that are nearer to each other than the size are the same. -/
theorem eq_of_dvd_of_near {size a b : ℕ} (ha : size ∣ a) (hb : size ∣ b) (hle : a ≤ b)
    (hnear : b < a + size) : b = a := by
  have hgap : b - a = 0 := Nat.eq_zero_of_dvd_of_lt (Nat.dvd_sub hb ha) (by omega)
  omega

end Aligned

/-- The first tile is the largest block at the start. -/
theorem InInterval.level_le (h : InInterval start count level index)
    (hstart : index * 2 ^ level = start) : level ≤ tileLevel start count := by
  have hend := h.stop_le
  rw [Nat.succ_mul, hstart] at hend
  apply le_tileLevel
  · exact ⟨index, by rw [Nat.mul_comm]; exact hstart.symm⟩
  · exact Nat.le_of_add_le_add_left hend

section First
variable (hpos : 0 < count)
include hpos

theorem start_eq_first : start / 2 ^ tileLevel start count * 2 ^ tileLevel start count = start :=
  Nat.div_mul_cancel (tileLevel_spec start hpos).1

theorem maximalBlock_first :
    MaximalBlock start count (tileLevel start count) (start / 2 ^ tileLevel start count) := by
  have hstart : start / 2 ^ tileLevel start count * 2 ^ tileLevel start count = start :=
    start_eq_first hpos
  obtain ⟨-, hle⟩ := tileLevel_spec start hpos
  refine ⟨⟨hstart.ge, ?_⟩, ?_⟩
  · rw [Nat.succ_mul, hstart]
    exact Nat.add_le_add_left hle start
  · intro hparent
    have hback : start / 2 ^ tileLevel start count / 2 * 2 ^ (tileLevel start count + 1) ≤
        start := by
      rw [Nat.div_div_eq_div_mul, ← Nat.pow_succ]
      exact Nat.div_mul_le_self _ _
    exact Nat.not_succ_le_self _
      (hparent.level_le (Nat.le_antisymm hback hparent.start_le))

/-- What is left of the interval after the first block. -/
theorem InInterval.of_rest
    (h : InInterval (start + 2 ^ tileLevel start count) (count - 2 ^ tileLevel start count) level
      index) : InInterval start count level index := by
  obtain ⟨hbegin, hend⟩ := h
  have hle := (tileLevel_spec start hpos).2
  exact ⟨Nat.le_of_add_right_le hbegin, by omega⟩

/-- No larger block than the first one begins before its end. -/
theorem InInterval.rest_of_large (h : InInterval start count level index)
    (hlarge : tileLevel start count < level) :
    InInterval (start + 2 ^ tileLevel start count) (count - 2 ^ tileLevel start count) level
      index := by
  obtain ⟨hd, hle⟩ := tileLevel_spec start hpos
  have hend := h.stop_le
  refine ⟨?_, by omega⟩
  by_contra hbefore
  have hd' : 2 ^ tileLevel start count ∣ index * 2 ^ level :=
    (Nat.pow_dvd_pow 2 hlarge.le).trans (Nat.dvd_mul_left _ _)
  have hsame := eq_of_dvd_of_near hd hd' h.start_le (Nat.not_le.1 hbefore)
  exact absurd (h.level_le hsame) (Nat.not_le.2 hlarge)

theorem MaximalBlock.first_or_rest (h : MaximalBlock start count level index) :
    (level = tileLevel start count ∧ index = start / 2 ^ tileLevel start count) ∨
      MaximalBlock (start + 2 ^ tileLevel start count) (count - 2 ^ tileLevel start count) level
        index := by
  obtain ⟨hinside, hparent⟩ := h
  have hnoParent := fun hrest => hparent (InInterval.of_rest hpos hrest)
  obtain ⟨hd, hle⟩ := tileLevel_spec start hpos
  rcases Nat.lt_or_ge (tileLevel start count) level with hlarge | hsmall
  · exact .inr ⟨hinside.rest_of_large hpos hlarge, hnoParent⟩
  · obtain ⟨hbegin, hend⟩ := hinside
    rcases Nat.lt_or_ge (index * 2 ^ level) (start + 2 ^ tileLevel start count) with hin | hout
    · rcases Nat.lt_or_ge level (tileLevel start count) with hless | hsame
      · -- A smaller block in the first one has a parent in the first one.
        have hd' : 2 ^ (level + 1) ∣ 2 ^ tileLevel start count := Nat.pow_dvd_pow 2 hless
        have hstop := parent_stop_le (Nat.dvd_add (hd'.trans hd) hd') hin
        exact absurd ⟨parent_start_le (hd'.trans hd) hbegin, by omega⟩ hparent
      · obtain rfl : level = tileLevel start count := Nat.le_antisymm hsmall hsame
        refine .inl ⟨rfl, ?_⟩
        have hindex := eq_of_dvd_of_near hd (Nat.dvd_mul_left _ index) hbegin hin
        exact (Nat.div_eq_of_eq_mul_left (Nat.two_pow_pos _) hindex.symm).symm
    · exact .inr ⟨⟨hout, by omega⟩, hnoParent⟩

theorem MaximalBlock.of_rest
    (h : MaximalBlock (start + 2 ^ tileLevel start count) (count - 2 ^ tileLevel start count) level
      index) : MaximalBlock start count level index := by
  obtain ⟨hinside, hparent⟩ := h
  obtain ⟨hd, hle⟩ := tileLevel_spec start hpos
  refine ⟨hinside.of_rest hpos, fun hbelow => hparent ?_⟩
  rcases Nat.lt_or_ge (tileLevel start count) (level + 1) with hlarge | hsmall
  · exact hbelow.rest_of_large hpos hlarge
  · have hd' : 2 ^ (level + 1) ∣ 2 ^ tileLevel start count := Nat.pow_dvd_pow 2 hsmall
    obtain ⟨-, hend⟩ := hbelow
    exact ⟨parent_start_le (Nat.dvd_add (hd'.trans hd) hd') hinside.start_le, by omega⟩

end First

theorem not_maximalBlock_zero : ¬MaximalBlock start 0 level index := by
  rintro ⟨⟨hbegin, hend⟩, -⟩
  have hpos := Nat.two_pow_pos level
  rw [Nat.succ_mul] at hend
  omega

/-- Each tile is a maximal block, and no maximal block is missing. -/
theorem mem_tiles_iff :
    (level, index) ∈ tiles start count ↔ MaximalBlock start count level index := by
  induction count using Nat.strong_induction_on generalizing start with
  | _ count ih =>
    rcases Nat.eq_zero_or_pos count with rfl | hpos
    · rw [tiles_zero]
      exact ⟨nofun, fun h => absurd h not_maximalBlock_zero⟩
    · have hsize := Nat.two_pow_pos (tileLevel start count)
      rw [tiles_of_pos hpos, List.mem_cons, ih _ (by omega), Prod.mk.injEq]
      constructor
      · rintro (⟨rfl, rfl⟩ | hrest)
        · exact maximalBlock_first hpos
        · exact hrest.of_rest hpos
      · exact fun h => h.first_or_rest hpos

theorem nodup_tiles (start count : ℕ) : (tiles start count).Nodup := by
  induction count using Nat.strong_induction_on generalizing start with
  | _ count ih =>
    rcases Nat.eq_zero_or_pos count with rfl | hpos
    · simp [tiles_zero]
    · have hsize := Nat.two_pow_pos (tileLevel start count)
      rw [tiles_of_pos hpos, List.nodup_cons, mem_tiles_iff]
      refine ⟨fun hfirst => ?_, ih _ (by omega) _⟩
      have hbegin := hfirst.inside.start_le
      rw [start_eq_first hpos] at hbegin
      omega

theorem blockCount_eq (start count : ℕ) : blockCount start count = (tiles start count).length := by
  have hset : {block : ℕ × ℕ | MaximalBlock start count block.1 block.2} =
      ↑(tiles start count).toFinset := by
    ext ⟨level, index⟩
    simp [mem_tiles_iff]
  rw [blockCount, hset, Set.ncard_coe_finset, List.toFinset_card_of_nodup (nodup_tiles start count)]

end VerifiedLedger
