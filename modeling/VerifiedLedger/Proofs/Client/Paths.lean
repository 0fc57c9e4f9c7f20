import VerifiedLedger.Proofs.Client.History
import VerifiedLedger.Proofs.Client.Runs
import VerifiedLedger.Proofs.Trust.CommonSigners
/-! # Ways through a ledger

A client that starts with nothing is led along growing prefixes of one list of leaves. Whichever
prefixes it stops at, its accumulator is that of the last one: each step only needs that the
accumulator before it is that of a prefix.
-/
namespace VerifiedLedger
variable {leaves : List Digest} {known count last : ℕ} {anchor : TrustAnchor}

/-- The anchor vouches for the ledger info by itself: it trusts everything, or it is a verifier
and a quorum of its validators has signed. -/
inductive TrustAnchor.Backs : TrustAnchor → SignedLedgerInfo → Prop
  | insecure (l : SignedLedgerInfo) : Backs .insecure l
  | endorsed {v : EpochVerifier} {l : SignedLedgerInfo} (h : v.Endorses l) : Backs (.validators v) l

namespace TrustAnchor.Backs
variable {l : SignedLedgerInfo}

theorem verify_eq (h : anchor.Backs l) : anchor.verify l = .ok () := by
  cases h with
  | insecure => rfl
  | endorsed h => exact EpochVerifier.verify_eq_ok_iff_endorses.2 h

theorem needsHandover_eq (h : anchor.Backs l) :
    anchor.needsHandover l.ledgerInfo.epoch = false := by
  cases h with
  | insecure => rfl
  | endorsed h =>
    rw [needsHandover, EpochVerifier.needsHandover, h.epoch_eq]
    exact decide_eq_false (UInt64.lt_irrefl _)

end TrustAnchor.Backs

/-- The update to the first `count` leaves, for a client that knows `known` of them: it names their
root and brings the subtrees that cover the leaves in between. -/
structure LedgerUpdate.Covers (leaves : List Digest) (known count : ℕ) (u : LedgerUpdate) :
    Prop where
  version_eq : u.ledgerInfo.ledgerInfo.version.toNat + 1 = count
  root_eq : ∃ tree : Accumulator .transaction, Accumulator.ofLeaves (leaves.take count) = .ok tree ∧
    tree.root = u.ledgerInfo.ledgerInfo.accumulatorRoot
  subtrees_eq : u.consistency.subtrees =
    tileRoots AccumulatorKind.transaction.node .accumulatorPlaceholder leaves known (count - known)

/-- The updates lead from one prefix of the leaves to another one, through prefixes that do not get
shorter. -/
inductive LedgerUpdate.Path (leaves : List Digest) : ℕ → List LedgerUpdate → ℕ → Prop
  | done (count : ℕ) : Path leaves count [] count
  | next {known count last : ℕ} {u : LedgerUpdate} {us : List LedgerUpdate} (hle : known ≤ count)
      (hlength : count ≤ leaves.length) (hu : u.Covers leaves known count)
      (hrest : Path leaves count us last) : Path leaves known (u :: us) last

theorem LedgerUpdate.Path.last_le {us : List LedgerUpdate} (h : Path leaves known us last)
    (hknown : known ≤ leaves.length) : last ≤ leaves.length := by
  induction h with
  | done count => exact hknown
  | next _ hlength _ _ ih => exact ih hlength

namespace LightClient
open LedgerUpdate (Path)
variable {u : LedgerUpdate} {us : List LedgerUpdate}

/-- The client with that anchor and the accumulator of the first leaves. -/
def atPrefix (anchor : TrustAnchor) (leaves : List Digest) (count : ℕ) : LightClient :=
  ⟨anchor, .ofPrefix leaves count⟩

theorem start_eq_atPrefix (anchor : TrustAnchor) (leaves : List Digest) :
    start anchor = atPrefix anchor leaves 0 := by
  have hforest : Forest.empty = prefixForest AccumulatorKind.transaction.node
      .accumulatorPlaceholder leaves 0 := by
    rw [prefixForest, peaksOf_zero, Forest.empty]
  rw [start, atPrefix, Accumulator.ofPrefix, ← hforest]
  rfl

theorem ofLeaves_take_eq (hmax : leaves.length ≤ Forest.maxLeaves)
    (hlength : count ≤ leaves.length) :
    Accumulator.ofLeaves (leaves.take count) =
      .ok (.ofPrefix leaves count : Accumulator .transaction) :=
  Accumulator.ofLeaves_eq_ok_iff.2 (ofLeaves_take _ _ hmax hlength)

theorem checkNotStale_atPrefix (hle : known ≤ count) (hu : u.Covers leaves known count) :
    (atPrefix anchor leaves known).checkNotStale u.ledgerInfo.ledgerInfo = .ok () := by
  have hversion := hu.version_eq
  rw [checkNotStale]
  split
  · rfl
  · next version h =>
    have hknown := lastVersion?_eq_some_iff.1 h
    refine if_neg ?_
    change known = version + 1 at hknown
    omega

section Step
variable (hmax : leaves.length ≤ Forest.maxLeaves) (hle : known ≤ count)
  (hlength : count ≤ leaves.length) (hu : u.Covers leaves known count)
include hmax hle hlength hu

theorem extend_atPrefix :
    u.consistency.extend (.ofPrefix leaves known) u.ledgerInfo.ledgerInfo =
      .ok (.ofPrefix leaves count) := by
  have hversion : u.ledgerInfo.ledgerInfo.version.toNat + 1 = known + (count - known) := by
    rw [hu.version_eq, Nat.add_sub_cancel' hle]
  have hgrown := appendSubtrees_prefixForest AccumulatorKind.transaction.node
    .accumulatorPlaceholder hmax ((Nat.add_sub_cancel' hle).trans_le hlength)
  rw [Nat.add_sub_cancel' hle, ← hu.subtrees_eq] at hgrown
  have hsize : u.ledgerInfo.ledgerInfo.version.toNat + 1 < UInt64.size := by
    have hhalf : Forest.maxLeaves < UInt64.size := by decide
    rw [hu.version_eq]
    exact (hlength.trans hmax).trans_lt hhalf
  obtain ⟨tree, htree, hroot⟩ := hu.root_eq
  rw [ofLeaves_take_eq hmax hlength, Except.ok.injEq] at htree
  refine ConsistencyProof.extend_eq_ok_iff.2 ⟨hsize, ?_, ?_, htree ▸ hroot⟩
  · exact hversion ▸ Nat.le_add_right known (count - known)
  · have hnew : u.ledgerInfo.ledgerInfo.version.toNat + 1 - known = count - known := by
      rw [hu.version_eq]
    exact Accumulator.appendSubtrees_eq_ok_iff.2 (hnew ▸ hgrown)

/-- From any prefix, the update to a longer one goes there and leaves the anchor. -/
theorem update_atPrefix (hbacks : anchor.Backs u.ledgerInfo) :
    (atPrefix anchor leaves known).update u =
      .ok (atPrefix anchor leaves count, u.ledgerInfo.ledgerInfo) := by
  have hanchor : (atPrefix anchor leaves known).anchorFor u = .ok anchor :=
    anchorFor_eq_ok_iff.2 (.inl ⟨hbacks.needsHandover_eq, rfl⟩)
  exact update_eq_ok_iff.2 ⟨rfl, hanchor, hbacks.verify_eq,
    checkNotStale_atPrefix hle hu, extend_atPrefix hmax hle hlength hu⟩

end Step

theorem follow_atPrefix (hmax : leaves.length ≤ Forest.maxLeaves)
    (hpath : Path leaves known us last) (hbacks : ∀ u ∈ us, anchor.Backs u.ledgerInfo) :
    (atPrefix anchor leaves known).answers (us.map .update) =
        us.map (fun u => .ok (.advanced u.ledgerInfo.ledgerInfo)) ∧
      (atPrefix anchor leaves known).follow us = atPrefix anchor leaves last := by
  induction hpath with
  | done count => exact ⟨rfl, rfl⟩
  | next hle hlength hu _ ih =>
    obtain ⟨hfirst, hothers⟩ := List.forall_mem_cons.1 hbacks
    have hupdate := update_atPrefix hmax hle hlength hu hfirst
    have hperform := perform_of_ok (run_update_eq_ok_iff.2 ⟨_, hupdate, rfl⟩)
    obtain ⟨hanswers, hend⟩ := ih hothers
    refine ⟨?_, (follow_cons_of_ok hupdate).trans hend⟩
    rw [List.map_cons, answers, hperform, hanswers, List.map_cons]

/-- On every way through a ledger a client accepts all updates, and it ends with the accumulator of
the last prefix, as if one update had taken it there. -/
theorem follow_path (hmax : leaves.length ≤ Forest.maxLeaves) (hpath : Path leaves 0 us last)
    (hbacks : ∀ u ∈ us, anchor.Backs u.ledgerInfo) :
    (start anchor).answers (us.map .update) =
        us.map (fun u => .ok (.advanced u.ledgerInfo.ledgerInfo)) ∧
      ∃ tree, Accumulator.ofLeaves (leaves.take last) = .ok tree ∧
        (start anchor).follow us = ⟨anchor, tree⟩ ∧
        ∀ u, u.Covers leaves 0 last → anchor.Backs u.ledgerInfo →
          (start anchor).update u =
            .ok ((start anchor).follow us, u.ledgerInfo.ledgerInfo) := by
  have hlength : last ≤ leaves.length := hpath.last_le (Nat.zero_le _)
  rw [start_eq_atPrefix anchor leaves]
  obtain ⟨hanswers, hend⟩ := follow_atPrefix hmax hpath hbacks
  refine ⟨hanswers, .ofPrefix leaves last, ofLeaves_take_eq hmax hlength, hend, fun u hu h => ?_⟩
  rw [hend]
  exact update_atPrefix hmax (Nat.zero_le last) hlength hu h

/-! ## Three equal leaves

A client that trusts everything goes from one leaf to three, and one with a verifier is told of the
first leaf twice. -/

namespace ThreeLeaves
open ConsistencyProof (checkpoint threeLeaves)
open EpochChain (Fork.verifier Fork.left Fork.verify_left)

def zeros : List Digest := [.zero, .zero, .zero]

def covering (l : SignedLedgerInfo) (known count : ℕ) : LedgerUpdate :=
  ⟨l, none, ⟨tileRoots AccumulatorKind.transaction.node .accumulatorPlaceholder zeros known
    (count - known)⟩⟩

def unsigned (version : UInt64) (root : Digest) : SignedLedgerInfo :=
  ⟨checkpoint 0 version root, .empty⟩

theorem covers_one {l : SignedLedgerInfo} (known : ℕ) (hversion : l.ledgerInfo.version = 0)
    (hroot : l.ledgerInfo.accumulatorRoot = .zero) : (covering l known 1).Covers zeros known 1 := by
  have htree : Accumulator.ofLeaves (zeros.take 1) = .ok oneLeaf := by decide +kernel
  refine ⟨?_, ⟨oneLeaf, htree, hroot.symm⟩, rfl⟩
  rw [covering, hversion]
  rfl

theorem covers_three {root : Digest} (hroot : threeLeaves.root = root) :
    (covering (unsigned 2 root) 1 3).Covers zeros 1 3 := by
  have htree : Accumulator.ofLeaves (zeros.take 3) = .ok threeLeaves := by decide +kernel
  exact ⟨rfl, ⟨threeLeaves, htree, hroot⟩, rfl⟩

def unsignedUpdates : List LedgerUpdate :=
  [covering (unsigned 0 .zero) 0 1, covering (unsigned 0 .zero) 1 1,
    covering (unsigned 2 threeLeaves.root) 1 3]

def signedUpdates : List LedgerUpdate := [covering Fork.left 0 1, covering Fork.left 1 1]

theorem path_unsigned : Path zeros 0 unsignedUpdates 3 :=
  .next (by decide) (by decide) (covers_one 0 rfl rfl) <|
    .next (by decide) (by decide) (covers_one 1 rfl rfl) <|
    .next (by decide) (by decide) (covers_three rfl) <| .done 3

theorem path_signed : Path zeros 0 signedUpdates 1 :=
  .next (by decide) (by decide) (covers_one 0 rfl rfl) <|
    .next (by decide) (by decide) (covers_one 1 rfl rfl) <| .done 1

theorem follow_path_three_leaves :
    zeros.length ≤ Forest.maxLeaves ∧ Path zeros 0 unsignedUpdates 3 ∧
      (∃ tree, Accumulator.ofLeaves zeros = .ok tree ∧
        (start .insecure).follow unsignedUpdates = ⟨.insecure, tree⟩) ∧
      Path zeros 0 signedUpdates 1 ∧ Fork.verifier.Endorses Fork.left ∧
      ∃ tree, Accumulator.ofLeaves [.zero] = .ok tree ∧
        (start (.validators Fork.verifier)).follow signedUpdates =
          ⟨.validators Fork.verifier, tree⟩ := by
  have hmax : zeros.length ≤ Forest.maxLeaves := by decide
  have hendorses := EpochVerifier.verify_eq_ok_iff_endorses.1 Fork.verify_left
  have hsigned : ∀ u ∈ signedUpdates, (TrustAnchor.validators Fork.verifier).Backs u.ledgerInfo :=
    List.forall_mem_cons.2 ⟨.endorsed hendorses, List.forall_mem_singleton.2 (.endorsed hendorses)⟩
  obtain ⟨-, tree, htree, hend, -⟩ :=
    follow_path hmax path_unsigned fun u _ => .insecure u.ledgerInfo
  obtain ⟨-, tree', htree', hend', -⟩ := follow_path hmax path_signed hsigned
  exact ⟨hmax, path_unsigned, ⟨tree, htree, hend⟩, path_signed, hendorses, tree', htree', hend'⟩

end ThreeLeaves
end LightClient
end VerifiedLedger
