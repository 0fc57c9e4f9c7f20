import VerifiedLedger.Proofs.Hash.Collision
/-! # Separate domains

The seeds of the domains are different digests. So a string that is hashed in one domain is never
hashed in another, and records and nodes of different kinds have different digests unless the two
strings collide.
-/
namespace VerifiedLedger

/-- The strings hash to none of the values that stand for an empty subtree. -/
def AvoidsDigest (placeholder : Digest) (strings : List (List UInt8)) : Prop :=
  ∀ s ∈ strings, sha3 s ≠ placeholder

instance (placeholder : Digest) (strings : List (List UInt8)) :
    Decidable (AvoidsDigest placeholder strings) :=
  inferInstanceAs (Decidable (∀ s ∈ strings, sha3 s ≠ placeholder))

theorem AvoidsDigest.mono {placeholder : Digest} {more fewer : List (List UInt8)}
    (h : AvoidsDigest placeholder more) (hs : fewer ⊆ more) : AvoidsDigest placeholder fewer :=
  fun s hm => h s (hs hm)

namespace Domain

theorem mem_all (d : Domain) : d ∈ all := by
  cases d <;> decide

/-- The seeds are hashed out, so that nothing has to be assumed of the tags. -/
theorem seed_injective : Function.Injective seed := by
  have hseeds : ∀ d ∈ all, ∀ e ∈ all, d.seed = e.seed → d = e := by decide +kernel
  intro d e h
  exact hseeds d (mem_all d) e (mem_all e) h

theorem preimage_inj {d e : Domain} {x y : List UInt8} (h : d.preimage x = e.preimage y) :
    d = e ∧ x = y := by
  have hlength : d.seed.toList.length = e.seed.toList.length :=
    d.seed.length_toList.trans e.seed.length_toList.symm
  obtain ⟨hseed, hdata⟩ := List.append_inj h hlength
  exact ⟨seed_injective (Digest.toList_inj.1 hseed), hdata⟩

variable {strings : List (List UInt8)} {d e : Domain} {x y : List UInt8}

theorem eq_of_hash_eq (hfree : CollisionFree strings) (hx : d.preimage x ∈ strings)
    (hy : e.preimage y ∈ strings) (h : d.hash x = e.hash y) : d = e ∧ x = y :=
  preimage_inj (hfree _ hx _ hy h)

theorem hash_ne_of_ne (hfree : CollisionFree strings) (hne : d ≠ e)
    (hx : d.preimage x ∈ strings) (hy : e.preimage y ∈ strings) : d.hash x ≠ e.hash y := by
  intro h
  exact hne (eq_of_hash_eq hfree hx hy h).1

theorem hash_ne_placeholder {placeholder : Digest} (havoid : AvoidsDigest placeholder strings)
    (hx : d.preimage x ∈ strings) : d.hash x ≠ placeholder :=
  havoid _ hx

end Domain
end VerifiedLedger
