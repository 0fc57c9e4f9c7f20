import VerifiedLedger.Proofs.Client.Update
import VerifiedLedger.Proofs.Tree.Prefix
/-! # One history

Between two checkpoints of trees a client may be led through any roots. Still each accumulator on
the way is that of a prefix of the later tree. This goes backwards: the later root binds the
accumulator before it, and the peaks of an accumulator bind the one before it in turn.
-/
namespace VerifiedLedger.LightClient
variable {c next : LightClient} {u : LedgerUpdate} {us : List LedgerUpdate} {l : LedgerInfo}
  {leaves : List Digest} {strings : List (List UInt8)}

section Step
variable (hc : c.accumulator.Valid) (h : c.update u = .ok (next, l)) (hfree : CollisionFree strings)
  (hrun : (u.consistency.computation c.accumulator l).hashed .transaction ⊆ strings)
  (hbuild : (Forest.treeTerm leaves).hashed .transaction ⊆ strings)
include hc h hfree hrun hbuild

/-- Before it grew to a prefix of the tree, the accumulator was a prefix of the tree. -/
theorem eq_ofPrefix_of_next (hmax : leaves.length ≤ Forest.maxLeaves)
    (hle : next.accumulator.leafCount ≤ leaves.length)
    (hnext : next.accumulator = .ofPrefix leaves next.accumulator.leafCount) :
    c.accumulator = .ofPrefix leaves c.accumulator.leafCount := by
  obtain ⟨-, -, -, -, hextend⟩ := update_eq_ok_iff.1 h
  obtain ⟨-, hcount, happ, -⟩ := ConsistencyProof.extend_eq_ok_iff.1 hextend
  have hgrown : c.accumulator.leafCount + (l.version.toNat + 1 - c.accumulator.leafCount) =
      next.accumulator.leafCount :=
    (Nat.add_sub_cancel' hcount).trans (update_valid hc h).2.1.symm
  have hforest := Forest.eq_prefixForest_of_grown hc hmax
    (Accumulator.appendSubtrees_eq_ok_iff.1 happ)
    (HashTree.keepsApart_of_collisionFree hfree hrun hbuild) (hgrown.trans_le hle)
    (hgrown ▸ congrArg Accumulator.toForest hnext)
  exact Accumulator.toForest_injective hforest

/-- Where the ledger info has the root of the tree, the accumulator was a prefix of the tree and is
now the accumulator of the tree. -/
theorem eq_ofPrefix_of_root {tree : Accumulator .transaction}
    (hlength : leaves.length = l.version.toNat + 1)
    (htree : Accumulator.ofLeaves leaves = .ok tree) (hroot : tree.root = l.accumulatorRoot) :
    c.accumulator = .ofPrefix leaves c.accumulator.leafCount ∧ next.accumulator = tree ∧
      tree = .ofPrefix leaves leaves.length := by
  obtain ⟨-, -, -, -, hextend⟩ := update_eq_ok_iff.1 h
  obtain ⟨-, hcount, happ, hnext⟩ := ConsistencyProof.extend_eq_ok_iff.1 hextend
  obtain ⟨hvalid, hgrown, -⟩ := update_valid hc h
  have hmax : leaves.length ≤ Forest.maxLeaves := by
    rw [hlength, ← hgrown]
    exact hvalid.leafCount_le
  have hprefix : tree = .ofPrefix leaves leaves.length :=
    Except.ok.inj (htree.symm.trans (Accumulator.ofLeaves_eq_ofPrefix hmax))
  have hroots : next.accumulator.root =
      (Accumulator.ofPrefix leaves leaves.length : Accumulator .transaction).root := by
    rw [hnext, ← hroot, hprefix]
  obtain ⟨hknown, hextended⟩ := Forest.eq_prefixForest_of_root hc hmax
    (Accumulator.appendSubtrees_eq_ok_iff.1 happ)
    (HashTree.keepsApart_of_collisionFree hfree hrun hbuild)
    ((Nat.add_sub_cancel' hcount).trans hlength.symm) hroots
  exact ⟨Accumulator.toForest_injective hknown,
    (Accumulator.toForest_injective hextended).trans hprefix.symm, hprefix⟩

end Step

/-- If a run ends in a prefix of the tree, it began in one. -/
theorem eq_ofPrefix_of_follow (hc : c.accumulator.Valid) (hfree : CollisionFree strings)
    (hrun : c.hashedAlong us ⊆ strings)
    (hbuild : (Forest.treeTerm leaves).hashed .transaction ⊆ strings)
    (hmax : leaves.length ≤ Forest.maxLeaves)
    (hle : (c.follow us).accumulator.leafCount ≤ leaves.length)
    (hend : (c.follow us).accumulator = .ofPrefix leaves (c.follow us).accumulator.leafCount) :
    c.accumulator = .ofPrefix leaves c.accumulator.leafCount := by
  induction us generalizing c with
  | nil => exact hend
  | cons u us ih =>
    cases hu : c.update u with
    | error e =>
      rw [hashedAlong_cons_of_error hu] at hrun
      rw [follow_cons_of_error hu] at hle hend
      exact ih hc hrun hle hend
    | ok result =>
      obtain ⟨next, l⟩ := result
      rw [hashedAlong_cons_of_ok hu, List.append_subset] at hrun
      rw [follow_cons_of_ok hu] at hle hend
      have hvalid := (update_valid hc hu).1
      have hnext := ih hvalid hrun.2 hle hend
      exact eq_ofPrefix_of_next hc hu hfree hrun.1 hbuild hmax
        ((leafCount_le_follow hvalid).trans hle) hnext

variable {anchor : TrustAnchor} {before between : List LedgerUpdate} {earlier later : LedgerUpdate}
  {c₁ c₂ : LightClient} {info₁ info₂ : LedgerInfo} {leaves₁ leaves₂ : List Digest}
  {tree₁ tree₂ : Accumulator .transaction}

/-- Two checkpoints of trees that one client accepts belong to one history, whatever it is led
through in between. -/
theorem prefix_of_accepted
    (h₁ : ((start anchor).follow before).update earlier = .ok (c₁, info₁))
    (h₂ : (c₁.follow between).update later = .ok (c₂, info₂))
    (hlength₁ : leaves₁.length = info₁.version.toNat + 1)
    (hlength₂ : leaves₂.length = info₂.version.toNat + 1)
    (htree₁ : Accumulator.ofLeaves leaves₁ = .ok tree₁)
    (htree₂ : Accumulator.ofLeaves leaves₂ = .ok tree₂)
    (hroot₁ : tree₁.root = info₁.accumulatorRoot) (hroot₂ : tree₂.root = info₂.accumulatorRoot)
    (hfree : CollisionFree ((Forest.treeTerm leaves₁).hashed .transaction ++
      (Forest.treeTerm leaves₂).hashed .transaction ++
      (start anchor).hashedAlong (before ++ earlier :: (between ++ [later])))) :
    leaves₁ <+: leaves₂ ∧ c₁.accumulator = tree₁ ∧ c₂.accumulator = tree₂ := by
  generalize hstrings : (_ ++ _ ++ _ : List (List UInt8)) = strings at hfree
  have hbuild₁ : (Forest.treeTerm leaves₁).hashed .transaction ⊆ strings :=
    hstrings ▸ List.subset_append_of_subset_left _ (List.subset_append_left _ _)
  have hbuild₂ : (Forest.treeTerm leaves₂).hashed .transaction ⊆ strings :=
    hstrings ▸ List.subset_append_of_subset_left _ (List.subset_append_right _ _)
  have hrun : (start anchor).hashedAlong (before ++ earlier :: (between ++ [later])) ⊆ strings :=
    hstrings ▸ List.subset_append_right _ _
  rw [hashedAlong_append, hashedAlong_cons_of_ok h₁, hashedAlong_append, hashedAlong_cons_of_ok h₂]
    at hrun
  simp only [List.append_subset] at hrun
  obtain ⟨-, hrun₁, hbetween, hrun₂, -⟩ := hrun
  have hc : ((start anchor).follow before).accumulator.Valid := follow_valid Forest.valid_empty
  obtain ⟨hvalid₁, hcount₁, -⟩ := update_valid hc h₁
  have hvalid : (c₁.follow between).accumulator.Valid := follow_valid hvalid₁
  obtain ⟨hvalid₂, hcount₂, hle₂⟩ := update_valid hvalid h₂
  -- Each of the two roots binds the accumulator that reached it and the one before.
  obtain ⟨-, heq₁, hprefix₁⟩ :=
    eq_ofPrefix_of_root hc h₁ hfree hrun₁ hbuild₁ hlength₁ htree₁ hroot₁
  obtain ⟨hbefore, heq₂, -⟩ :=
    eq_ofPrefix_of_root hvalid h₂ hfree hrun₂ hbuild₂ hlength₂ htree₂ hroot₂
  have hmax₂ : leaves₂.length ≤ Forest.maxLeaves := by
    rw [hlength₂, ← hcount₂]
    exact hvalid₂.leafCount_le
  have hend : (c₁.follow between).accumulator.leafCount ≤ leaves₂.length := by
    rw [hlength₂, ← hcount₂]
    exact hle₂
  have hearlier : c₁.accumulator = .ofPrefix leaves₂ c₁.accumulator.leafCount :=
    eq_ofPrefix_of_follow hvalid₁ hfree hbetween hbuild₂ hmax₂ hend hbefore
  have hshort : leaves₁.length ≤ leaves₂.length := by
    rw [hlength₁, ← hcount₁]
    exact (leafCount_le_follow hvalid₁).trans hend
  have hsame : prefixForest AccumulatorKind.transaction.node .accumulatorPlaceholder leaves₁
        leaves₁.length =
      prefixForest AccumulatorKind.transaction.node .accumulatorPlaceholder leaves₂
        leaves₁.length := by
    rw [hcount₁, ← hlength₁, heq₁, hprefix₁] at hearlier
    exact congrArg Accumulator.toForest hearlier
  have htake := Forest.eq_take_of_prefixForest_eq hmax₂ hshort
    (HashTree.keepsApart_of_collisionFree hfree hbuild₁ hbuild₂) hsame
  exact ⟨List.prefix_iff_eq_take.2 htake, heq₁, heq₂⟩

def updateTo (version : UInt64) (root : Digest) (subtrees : List Digest) : LedgerUpdate :=
  ⟨⟨ConsistencyProof.checkpoint 0 version root, .empty⟩, none, ⟨subtrees⟩⟩

def oneLeaf : Accumulator .transaction := ⟨⟨[.zero], 1⟩⟩

/-- From one leaf to three, with an update in between that is refused. -/
theorem prefix_of_accepted_three_leaves :
    ((start .insecure).follow []).update (updateTo 0 .zero [.zero]) =
        .ok (⟨.insecure, oneLeaf⟩, ConsistencyProof.checkpoint 0 0 .zero) ∧
      ((⟨.insecure, oneLeaf⟩ : LightClient).follow [updateTo 1 .zero []]).update
          (updateTo 2 ConsistencyProof.threeLeaves.root [.zero, .zero]) =
        .ok (⟨.insecure, ConsistencyProof.threeLeaves⟩,
          ConsistencyProof.checkpoint 0 2 ConsistencyProof.threeLeaves.root) ∧
      [Digest.zero] <+: [.zero, .zero, .zero] ∧ oneLeaf = oneLeaf ∧
      ConsistencyProof.threeLeaves = ConsistencyProof.threeLeaves := by
  have h₁ : ((start .insecure).follow []).update (updateTo 0 .zero [.zero]) =
      .ok (⟨.insecure, oneLeaf⟩, ConsistencyProof.checkpoint 0 0 .zero) := by decide +kernel
  have h₂ : ((⟨.insecure, oneLeaf⟩ : LightClient).follow [updateTo 1 .zero []]).update
        (updateTo 2 ConsistencyProof.threeLeaves.root [.zero, .zero]) =
      .ok (⟨.insecure, ConsistencyProof.threeLeaves⟩,
        ConsistencyProof.checkpoint 0 2 ConsistencyProof.threeLeaves.root) := by decide +kernel
  have htree₁ : Accumulator.ofLeaves [.zero] = .ok oneLeaf := by decide +kernel
  have htree₂ : Accumulator.ofLeaves [.zero, .zero, .zero] = .ok ConsistencyProof.threeLeaves := by
    decide +kernel
  exact ⟨h₁, h₂, prefix_of_accepted h₁ h₂ rfl rfl htree₁ htree₂ (by decide +kernel) rfl
    (by decide +kernel)⟩

end VerifiedLedger.LightClient
