import VerifiedLedger.Hash.Domain
/-! # Collisions among given strings

A hash function of fixed length has collisions somewhere. What is assumed of SHA3-256 is never more
than that the strings hashed in the computations at hand have none among them.
-/
namespace VerifiedLedger

/-- No two different strings of the list have the same digest. -/
def CollisionFree (strings : List (List UInt8)) : Prop :=
  ∀ s ∈ strings, ∀ t ∈ strings, sha3 s = sha3 t → s = t

instance (strings : List (List UInt8)) : Decidable (CollisionFree strings) :=
  inferInstanceAs (Decidable (∀ s ∈ strings, ∀ t ∈ strings, sha3 s = sha3 t → s = t))

theorem CollisionFree.mono {more fewer : List (List UInt8)} (h : CollisionFree more)
    (hs : fewer ⊆ more) : CollisionFree fewer :=
  fun s hm t ht => h s (hs hm) t (hs ht)

namespace Domain

/-- The string that is hashed into the parent of two nodes. -/
def pairString (d : Domain) (pair : Digest × Digest) : List UInt8 :=
  d.preimage (pair.1.toList ++ pair.2.toList)

theorem hashPair_eq_sha3 (d : Domain) (left right : Digest) :
    d.hashPair left right = sha3 (d.pairString (left, right)) := rfl

/-- The seed and both digests have fixed lengths, so that the string gives the nodes back. -/
theorem pairString_inj {d : Domain} {p q : Digest × Digest}
    (h : d.pairString p = d.pairString q) : p = q := by
  obtain ⟨hl, hr⟩ := List.append_inj (List.append_cancel_left h)
    (p.1.length_toList.trans q.1.length_toList.symm)
  exact Prod.ext (Digest.toList_inj.1 hl) (Digest.toList_inj.1 hr)

theorem eq_of_hashPair_eq {d : Domain} {strings : List (List UInt8)} (h : CollisionFree strings)
    {p q : Digest × Digest} (hp : d.pairString p ∈ strings) (hq : d.pairString q ∈ strings)
    (he : d.hashPair p.1 p.2 = d.hashPair q.1 q.2) : p = q := by
  rw [hashPair_eq_sha3, hashPair_eq_sha3] at he
  exact pairString_inj (h _ hp _ hq he)

end Domain
end VerifiedLedger
