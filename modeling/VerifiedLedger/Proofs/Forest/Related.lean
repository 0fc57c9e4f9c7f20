import Mathlib.Data.List.Forall2
import VerifiedLedger.Proofs.Forest.Steps
/-! # Related forests

The operations look at counts and lengths only and never into a node. Hence a relation between two
kinds of nodes that passes from children to parents passes from the arguments of an operation to
its result, and one side succeeds where the other does.
-/
namespace VerifiedLedger.Forest
variable {α β : Type} {R : α → β → Prop} {node : α → α → α} {node' : β → β → β}

/-- The relation passes from two nodes to their parents. -/
def Joins (R : α → β → Prop) (node : α → α → α) (node' : β → β → β) : Prop :=
  ∀ ⦃a a'⦄, R a a' → ∀ ⦃b b'⦄, R b b' → R (node a b) (node' a' b')

structure Related (R : α → β → Prop) (f : Forest α) (g : Forest β) : Prop where
  peaks : List.Forall₂ R f.peaks g.peaks
  leafCount : f.leafCount = g.leafCount

theorem merge_related (hR : Joins R node node') {count : ℕ} {current : α} {current' : β}
    {peaks merged : List α} {peaks' : List β} (hp : List.Forall₂ R peaks peaks')
    (hc : R current current') (h : merge node count current peaks = some merged) :
    ∃ merged', merge node' count current' peaks' = some merged' ∧
      List.Forall₂ R merged merged' := by
  induction count generalizing current current' peaks peaks' with
  | zero =>
    cases h
    exact ⟨_, rfl, .cons hc hp⟩
  | succ count ih =>
    cases hp with
    | nil => cases h
    | cons hleft hrest => exact ih hrest (hR hleft hc) h

variable {f g : Forest α} {f' : Forest β}

theorem addBlock_related (hR : Joins R node node') {size : ℕ} {block : α} {block' : β}
    (hf : Related R f f') (hb : R block block') (h : f.addBlock node size block = some g) :
    ∃ g', f'.addBlock node' size block' = some g' ∧ Related R g g' := by
  obtain ⟨hm, hc⟩ := addBlock_eq_some_iff.1 h
  obtain ⟨merged, hm', hp⟩ := merge_related hR hf.peaks hb hm
  refine ⟨⟨merged, f'.leafCount + size⟩, addBlock_eq_some_iff.2 ⟨?_, rfl⟩, hp, ?_⟩
  · rwa [← hf.leafCount]
  · rw [hc, hf.leafCount]

theorem append_related (hR : Joins R node node') {leaf : α} {leaf' : β} (hf : Related R f f')
    (hl : R leaf leaf') (h : f.append node leaf = .ok g) :
    ∃ g', f'.append node' leaf' = .ok g' ∧ Related R g g' := by
  obtain ⟨hmax, hb⟩ := append_eq_ok_iff.1 h
  obtain ⟨g', hb', hg⟩ := addBlock_related hR hf hl hb
  exact ⟨g', append_eq_ok_iff.2 ⟨hf.leafCount ▸ hmax, hb'⟩, hg⟩

theorem appendAll_related (hR : Joins R node node') {leaves : List α} {leaves' : List β}
    (hf : Related R f f') (hl : List.Forall₂ R leaves leaves')
    (h : f.appendAll node leaves = .ok g) :
    ∃ g', f'.appendAll node' leaves' = .ok g' ∧ Related R g g' := by
  induction hl generalizing f f' with
  | nil =>
    cases h
    exact ⟨f', rfl, hf⟩
  | cons hleaf hrest ih =>
    obtain ⟨next, hn, hr⟩ := appendAll_cons_eq_ok_iff.1 h
    obtain ⟨next', hn', hnext⟩ := append_related hR hf hleaf hn
    obtain ⟨g', hr', hg⟩ := ih hnext hr
    exact ⟨g', appendAll_cons_eq_ok_iff.2 ⟨next', hn', hr'⟩, hg⟩

theorem ofLeaves_related (hR : Joins R node node') {leaves : List α} {leaves' : List β}
    (hl : List.Forall₂ R leaves leaves') (h : ofLeaves node leaves = .ok g) :
    ∃ g', ofLeaves node' leaves' = .ok g' ∧ Related R g g' :=
  appendAll_related hR ⟨.nil, rfl⟩ hl h

structure Filling.Related (R : α → β → Prop) (s : Filling α) (t : Filling β) : Prop where
  forest : Forest.Related R s.forest t.forest
  remaining : s.remaining = t.remaining
  subtrees : List.Forall₂ R s.subtrees t.subtrees

theorem fill_related (hR : Joins R node node') {newLeaves remaining : ℕ} {subtrees : List α}
    {subtrees' : List β} {filled : Filling α} (hf : Related R f f')
    (hs : List.Forall₂ R subtrees subtrees')
    (h : fill node newLeaves f remaining subtrees = .ok filled) :
    ∃ filled', fill node' newLeaves f' remaining subtrees' = .ok filled' ∧
      filled.Related R filled' := by
  induction hs generalizing f f' remaining with
  | nil =>
    by_cases hstop : f.leafCount = 0 ∨ remaining < 2 ^ Bits.trailingZeros f.leafCount
    · rw [fill_of_stop hstop] at h
      cases h
      rw [hf.leafCount] at hstop
      exact ⟨_, fill_of_stop hstop, hf, rfl, .nil⟩
    · exact absurd h (fill_nil_ne_ok hstop)
  | cons hsub hrest ih =>
    by_cases hstop : f.leafCount = 0 ∨ remaining < 2 ^ Bits.trailingZeros f.leafCount
    · rw [fill_of_stop hstop] at h
      cases h
      rw [hf.leafCount] at hstop
      exact ⟨_, fill_of_stop hstop, hf, rfl, .cons hsub hrest⟩
    · obtain ⟨next, hb, hr⟩ := (fill_cons_eq_ok_iff hstop).1 h
      obtain ⟨next', hb', hnext⟩ := addBlock_related hR hf hsub hb
      obtain ⟨filled', hr', hfilled⟩ := ih hnext hr
      rw [hf.leafCount] at hstop hb' hr'
      exact ⟨filled', (fill_cons_eq_ok_iff hstop).2 ⟨next', hb', hr'⟩, hfilled⟩

theorem settle_related {newLeaves : ℕ} {s : Filling α} {t : Filling β} (hst : s.Related R t)
    (h : s.settle newLeaves = .ok g) : ∃ g', t.settle newLeaves = .ok g' ∧ Related R g g' := by
  obtain ⟨hl, rfl⟩ := settle_eq_ok_iff.1 h
  refine ⟨_, settle_eq_ok_iff.2 ⟨?_, rfl⟩, ?_, ?_⟩
  · rw [← hst.subtrees.length_eq, hl, hst.remaining]
  · exact List.rel_append (List.rel_reverse hst.subtrees) hst.forest.peaks
  · rw [hst.forest.leafCount, hst.remaining]

theorem appendSubtrees_related (hR : Joins R node node') {newLeaves : ℕ} {subtrees : List α}
    {subtrees' : List β} (hf : Related R f f') (hs : List.Forall₂ R subtrees subtrees')
    (h : f.appendSubtrees node subtrees newLeaves = .ok g) :
    ∃ g', f'.appendSubtrees node' subtrees' newLeaves = .ok g' ∧ Related R g g' := by
  obtain ⟨hmax, filled, hfill, hsettle⟩ := appendSubtrees_eq_ok_iff.1 h
  obtain ⟨filled', hfill', hfilled⟩ := fill_related hR hf hs hfill
  obtain ⟨g', hsettle', hg⟩ := settle_related hfilled hsettle
  exact ⟨g', appendSubtrees_eq_ok_iff.2 ⟨hf.leafCount ▸ hmax, filled', hfill', hsettle'⟩, hg⟩

variable {placeholder : α} {placeholder' : β}

theorem foldPeaks_related (hR : Joins R node node') (h0 : R placeholder placeholder')
    {bitmap : ℕ} {peaks : List α} {peaks' : List β} {current : α} {current' : β}
    (hp : List.Forall₂ R peaks peaks') (hc : R current current') :
    R (foldPeaks node placeholder bitmap peaks current)
      (foldPeaks node' placeholder' bitmap peaks' current') := by
  fun_induction foldPeaks node placeholder bitmap peaks current generalizing peaks' current' with
  | case1 => rwa [foldPeaks_zero]
  | case2 bitmap current _ ho =>
    cases hp
    rwa [foldPeaks_nil ho]
  | case3 bitmap current _ ho peak rest ih =>
    cases hp with
    | cons hpeak hrest =>
      rw [foldPeaks_cons ho]
      exact ih hrest (hR hpeak hc)
  | case4 bitmap peaks current hb he ih =>
    rw [foldPeaks_even hb he]
    exact ih hp (hR hc h0)

theorem root_related (hR : Joins R node node') (h0 : R placeholder placeholder')
    (hf : Related R f f') : R (f.root node placeholder) (f'.root node' placeholder') := by
  obtain ⟨peaks, count⟩ := f
  obtain ⟨peaks', count'⟩ := f'
  obtain ⟨hp, hc⟩ := hf
  dsimp only at hp hc
  subst hc
  unfold root
  cases hp with
  | nil => exact h0
  | cons hfirst hrest =>
    cases hrest with
    | nil => exact hfirst
    | cons hsecond hrest =>
      exact foldPeaks_related hR h0 (.cons hfirst (.cons hsecond hrest)) h0

end VerifiedLedger.Forest
