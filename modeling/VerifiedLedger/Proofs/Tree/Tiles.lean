import Mathlib.Data.Nat.Find
import VerifiedLedger.Proofs.Tree.Blocks
/-! # Tiling an interval of leaves

The leaves from one position on are cut greedily into aligned full subtrees, as large as they may be
from left to right. A forest that is given the roots of these subtrees arrives where it would have
arrived leaf by leaf: first each of them fills the smallest peak up, then they are peaks themselves.
-/
namespace VerifiedLedger

/-- The level of the largest aligned block that begins at `start` and has at most `count` leaves. -/
def tileLevel (start count : ℕ) : ℕ :=
  Nat.findGreatest (fun level => 2 ^ level ∣ start ∧ 2 ^ level ≤ count) count

/-- The level and index of each block. -/
def tiles (start count : ℕ) : List (ℕ × ℕ) :=
  if count = 0 then []
  else
    let level := tileLevel start count
    (level, start / 2 ^ level) :: tiles (start + 2 ^ level) (count - 2 ^ level)
termination_by count
decreasing_by
  have := Nat.two_pow_pos (tileLevel start count)
  omega

theorem tileLevel_spec (start : ℕ) {count : ℕ} (h : 0 < count) :
    2 ^ tileLevel start count ∣ start ∧ 2 ^ tileLevel start count ≤ count :=
  Nat.findGreatest_spec (P := fun level => 2 ^ level ∣ start ∧ 2 ^ level ≤ count)
    (Nat.zero_le count) ⟨one_dvd start, h⟩

theorem le_tileLevel {start count level : ℕ} (hd : 2 ^ level ∣ start) (hc : 2 ^ level ≤ count) :
    level ≤ tileLevel start count :=
  Nat.le_findGreatest (Nat.lt_two_pow_self.le.trans hc) ⟨hd, hc⟩

/-- In front of a peak the block has the size of the peak, if so many leaves are left. -/
theorem tileLevel_eq_trailingZeros {start count : ℕ} (h0 : start ≠ 0)
    (hc : 2 ^ Bits.trailingZeros start ≤ count) :
    tileLevel start count = Bits.trailingZeros start := by
  have hpos : 0 < count := (Nat.two_pow_pos _).trans_le hc
  apply Nat.le_antisymm
  · exact (Bits.two_pow_dvd_iff_le_trailingZeros h0 _).1 (tileLevel_spec start hpos).1
  · exact le_tileLevel (Bits.two_pow_trailingZeros_dvd start) hc

theorem tiles_zero (start : ℕ) : tiles start 0 = [] := by
  rw [tiles, if_pos rfl]

theorem tiles_of_pos {start count : ℕ} (h : 0 < count) :
    tiles start count = (tileLevel start count, start / 2 ^ tileLevel start count) ::
      tiles (start + 2 ^ tileLevel start count) (count - 2 ^ tileLevel start count) := by
  rw [tiles, if_neg (by omega)]

/-- The blocks cover the interval, each leaf once and from left to right. -/
theorem tiles_cover (start count : ℕ) :
    (tiles start count).flatMap (fun tile => List.range' (tile.2 * 2 ^ tile.1) (2 ^ tile.1)) =
      List.range' start count := by
  induction count using Nat.strong_induction_on generalizing start with
  | _ count ih =>
    rcases Nat.eq_zero_or_pos count with rfl | hpos
    · simp [tiles_zero]
    · obtain ⟨hd, hc⟩ := tileLevel_spec start hpos
      have hsize := Nat.two_pow_pos (tileLevel start count)
      rw [tiles_of_pos hpos, List.flatMap_cons, ih _ (by omega), Nat.div_mul_cancel hd,
        List.range'_append_1, Nat.add_sub_cancel' hc]

/-- Where larger blocks could begin than are left, the next block is the highest one bit of what is
left. -/
theorem tileLevel_lt {k start count : ℕ} (hd : 2 ^ k ∣ start) (hc : count < 2 ^ k)
    (hpos : 0 < count) :
    tileLevel start count < k ∧
      count - 2 ^ tileLevel start count < 2 ^ tileLevel start count := by
  obtain ⟨-, hle⟩ := tileLevel_spec start hpos
  have hlt : tileLevel start count < k :=
    (Nat.pow_lt_pow_iff_right (by decide)).1 (hle.trans_lt hc)
  refine ⟨hlt, ?_⟩
  by_contra hge
  have hnext : tileLevel start count + 1 ≤ tileLevel start count := by
    apply le_tileLevel ((Nat.pow_dvd_pow 2 hlt).trans hd)
    rw [Nat.pow_succ]
    omega
  omega

theorem length_tiles_of_lt {k start count : ℕ} (hd : 2 ^ k ∣ start) (hc : count < 2 ^ k) :
    (tiles start count).length = Bits.ones count := by
  induction count using Nat.strong_induction_on generalizing start k with
  | _ count ih =>
    rcases Nat.eq_zero_or_pos count with rfl | hpos
    · rw [tiles_zero, Bits.ones_zero, List.length_nil]
    · obtain ⟨hdvd, hle⟩ := tileLevel_spec start hpos
      obtain ⟨-, hsmall⟩ := tileLevel_lt hd hc hpos
      have hsize := Nat.two_pow_pos (tileLevel start count)
      have hrest := ih _ (by omega) (Nat.dvd_add hdvd dvd_rfl) hsmall
      have hones := Bits.ones_two_pow_mul_add (tileLevel start count) 1 _ hsmall
      have hone : Bits.ones 1 = 1 := by decide +kernel
      rw [Nat.mul_one, Nat.add_sub_cancel' hle, hone] at hones
      rw [tiles_of_pos hpos, List.length_cons, hrest, hones, Nat.add_comm]

section Forest
variable {α : Type} (node : α → α → α) (placeholder : α)

/-- The roots of the blocks in the tree over the leaves. -/
def tileRoots (leaves : List α) (start count : ℕ) : List α :=
  (tiles start count).map fun tile => treeNode node placeholder leaves tile.1 tile.2

variable {leaves : List α}

theorem tileRoots_of_pos {start count : ℕ} (h : 0 < count) :
    tileRoots node placeholder leaves start count =
      treeNode node placeholder leaves (tileLevel start count)
          (start / 2 ^ tileLevel start count) ::
        tileRoots node placeholder leaves (start + 2 ^ tileLevel start count)
          (count - 2 ^ tileLevel start count) := by
  rw [tileRoots, tiles_of_pos h, List.map_cons]
  rfl

/-- The first phase takes blocks until the smallest peak is larger than what remains. -/
theorem fill_tileRoots (newLeaves : ℕ) {start count : ℕ} (h : start + count ≤ leaves.length) :
    ∃ middle rest, middle + rest = start + count ∧
      (middle = 0 ∨ rest < 2 ^ Bits.trailingZeros middle) ∧
      Forest.fill node newLeaves (prefixForest node placeholder leaves start) count
          (tileRoots node placeholder leaves start count) =
        .ok ⟨prefixForest node placeholder leaves middle, rest,
          tileRoots node placeholder leaves middle rest⟩ := by
  induction count using Nat.strong_induction_on generalizing start with
  | _ count ih =>
    by_cases hstop : start = 0 ∨ count < 2 ^ Bits.trailingZeros start
    · exact ⟨start, count, rfl, hstop, Forest.fill_of_stop hstop⟩
    · have hsize := Nat.two_pow_pos (Bits.trailingZeros start)
      have hlevel : tileLevel start count = Bits.trailingZeros start :=
        tileLevel_eq_trailingZeros (by omega) (by omega)
      have hnext : start + 2 ^ Bits.trailingZeros start + (count - 2 ^ Bits.trailingZeros start) ≤
          leaves.length := by omega
      obtain ⟨middle, rest, hsum, hend, hfill⟩ := ih _ (by omega) hnext
      refine ⟨middle, rest, by omega, hend, ?_⟩
      rw [tileRoots_of_pos node placeholder (by omega), hlevel]
      have hblock := addBlock_prefixForest node placeholder _ (Bits.two_pow_trailingZeros_dvd start)
        (by omega : start + 2 ^ Bits.trailingZeros start ≤ leaves.length)
      exact (Forest.fill_cons_eq_ok_iff hstop).2 ⟨_, hblock, hfill⟩

/-- Below the smallest peak the blocks are the binary digits of what remains, the largest first, and
none of them completes a subtree. -/
theorem reverse_tileRoots_append {k start count : ℕ} (hd : 2 ^ k ∣ start) (hc : count < 2 ^ k)
    (h : start + count ≤ leaves.length) :
    (tileRoots node placeholder leaves start count).reverse ++
        (prefixForest node placeholder leaves start).peaks =
      (prefixForest node placeholder leaves (start + count)).peaks := by
  induction count using Nat.strong_induction_on generalizing start k with
  | _ count ih =>
    rcases Nat.eq_zero_or_pos count with rfl | hpos
    · simp [tileRoots, tiles_zero]
    · obtain ⟨hdvd, hle⟩ := tileLevel_spec start hpos
      obtain ⟨hlt, hsmall⟩ := tileLevel_lt hd hc hpos
      set level := tileLevel start count with hlevel
      have hsize := Nat.two_pow_pos level
      have hblock := addBlock_prefixForest node placeholder level hdvd
        (by omega : start + 2 ^ level ≤ leaves.length)
      have heven : start / 2 ^ level % 2 = 0 := by
        have h2 := (Nat.pow_dvd_pow 2 hlt).trans hd
        rw [Nat.succ_eq_add_one, Nat.pow_succ, ← Nat.dvd_div_iff_mul_dvd hdvd] at h2
        omega
      obtain ⟨hpeaks, -⟩ := Forest.addBlock_eq_some_iff.1 hblock
      rw [show (prefixForest node placeholder leaves start).leafCount = start from rfl,
        Bits.trailingOnes_of_even heven, Forest.merge, Option.some.injEq] at hpeaks
      rw [tileRoots_of_pos node placeholder hpos, ← hlevel, List.reverse_cons, List.append_assoc,
        List.singleton_append, hpeaks, ih _ (by omega) (Nat.dvd_add hdvd dvd_rfl) hsmall (by omega),
        show start + 2 ^ level + (count - 2 ^ level) = start + count by omega]

theorem appendSubtrees_prefixForest (hmax : leaves.length ≤ Forest.maxLeaves) {start count : ℕ}
    (h : start + count ≤ leaves.length) :
    (prefixForest node placeholder leaves start).appendSubtrees node
        (tileRoots node placeholder leaves start count) count =
      .ok (prefixForest node placeholder leaves (start + count)) := by
  obtain ⟨middle, rest, hsum, hend, hfill⟩ :=
    fill_tileRoots node placeholder count h
  obtain ⟨k, hd, hc⟩ : ∃ k, 2 ^ k ∣ middle ∧ rest < 2 ^ k := by
    rcases hend with rfl | hlt
    · exact ⟨rest, Nat.dvd_zero _, Nat.lt_two_pow_self⟩
    · exact ⟨_, Bits.two_pow_trailingZeros_dvd middle, hlt⟩
  have hpeaks := reverse_tileRoots_append node placeholder hd hc
    (by omega : middle + rest ≤ leaves.length)
  have hlength : (tileRoots node placeholder leaves middle rest).length = Bits.ones rest := by
    rw [tileRoots, List.length_map, length_tiles_of_lt hd hc]
  refine Forest.appendSubtrees_eq_ok_iff.2 ⟨?_, _, hfill, Forest.settle_eq_ok_iff.2 ⟨hlength, ?_⟩⟩
  · change count ≤ Forest.maxLeaves - start
    omega
  · rw [hpeaks, ← hsum]
    rfl

end Forest
end VerifiedLedger
