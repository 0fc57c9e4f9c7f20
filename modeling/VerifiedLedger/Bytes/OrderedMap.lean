import VerifiedLedger.Bytes.Fixed
/-! # Maps in key order

A map keeps its entries in the lexicographic order of the bytes of their keys, each key once.
Writing an entry to a key that is there replaces it, so of repeated keys the last one counts.
-/
namespace VerifiedLedger

/-- Keys that are told apart and ordered by their bytes. -/
class ByteKey (κ : Type) where
  keyBytes : κ → List UInt8
  keyBytes_inj : ∀ a b, keyBytes a = keyBytes b → a = b

instance : ByteKey (List UInt8) := ⟨id, fun _ _ h => h⟩

structure OrderedMap (κ β : Type) [ByteKey κ] where
  entries : List (κ × β)
  sorted : entries.Pairwise fun a b => ByteKey.keyBytes a.1 < ByteKey.keyBytes b.1

namespace OrderedMap

open ByteKey (keyBytes)

variable {κ β : Type} [ByteKey κ]

instance [DecidableEq κ] [DecidableEq β] : DecidableEq (OrderedMap κ β)
  | ⟨a, _⟩, ⟨b, _⟩ => decidable_of_iff (a = b) (by simp)

def empty : OrderedMap κ β := ⟨[], .nil⟩

def size (m : OrderedMap κ β) : Nat := m.entries.length

def isEmpty (m : OrderedMap κ β) : Bool := m.entries.isEmpty

def keys (m : OrderedMap κ β) : List κ := m.entries.map (·.1)

def values (m : OrderedMap κ β) : List β := m.entries.map (·.2)

def lookup (k : κ) : List (κ × β) → Option β
  | [] => none
  | (k', v) :: rest => if keyBytes k = keyBytes k' then some v else lookup k rest

def get? (m : OrderedMap κ β) (k : κ) : Option β := lookup k m.entries

def insertEntry (k : κ) (v : β) : List (κ × β) → List (κ × β)
  | [] => [(k, v)]
  | (k', v') :: rest =>
    if keyBytes k < keyBytes k' then (k, v) :: (k', v') :: rest
    else if keyBytes k = keyBytes k' then (k, v) :: rest
    else (k', v') :: insertEntry k v rest

theorem mem_insertEntry {k : κ} {v : β} {entries : List (κ × β)} {e : κ × β}
    (h : e ∈ insertEntry k v entries) : e = (k, v) ∨ e ∈ entries := by
  induction entries with
  | nil => simpa [insertEntry] using h
  | cons head rest ih =>
    obtain ⟨k', v'⟩ := head
    unfold insertEntry at h
    split at h
    · simpa using h
    · split at h
      · rcases List.mem_cons.1 h with h | h
        · exact .inl h
        · exact .inr (List.mem_cons_of_mem _ h)
      · rcases List.mem_cons.1 h with h | h
        · exact .inr (h ▸ List.mem_cons_self)
        · exact (ih h).imp_right (List.mem_cons_of_mem _)

theorem sorted_insertEntry (k : κ) (v : β) {entries : List (κ × β)}
    (h : entries.Pairwise fun a b => keyBytes a.1 < keyBytes b.1) :
    (insertEntry k v entries).Pairwise fun a b => keyBytes a.1 < keyBytes b.1 := by
  induction entries with
  | nil => simp [insertEntry]
  | cons head rest ih =>
    obtain ⟨k', v'⟩ := head
    obtain ⟨first, later⟩ := List.pairwise_cons.1 h
    unfold insertEntry
    split
    · next lt =>
      refine List.pairwise_cons.2 ⟨fun e he => ?_, h⟩
      rcases List.mem_cons.1 he with rfl | he
      · exact lt
      · exact List.lt_trans lt (first e he)
    · next notLt =>
      split
      · next eq =>
        exact List.pairwise_cons.2 ⟨fun e he => eq ▸ first e he, later⟩
      · next ne =>
        refine List.pairwise_cons.2 ⟨fun e he => ?_, ih later⟩
        rcases mem_insertEntry he with rfl | he
        · rcases List.le_total (keyBytes k') (keyBytes k) with le | le
          · rcases List.le_iff_lt_or_eq.1 le with lt | eq
            · exact lt
            · exact absurd eq.symm ne
          · rcases List.le_iff_lt_or_eq.1 le with lt | eq
            · exact absurd lt notLt
            · exact absurd eq ne
        · exact first e he

def insert (m : OrderedMap κ β) (k : κ) (v : β) : OrderedMap κ β :=
  ⟨insertEntry k v m.entries, sorted_insertEntry k v m.sorted⟩

/-- The map of the entries; the last one of a key counts. -/
def ofList (entries : List (κ × β)) : OrderedMap κ β :=
  entries.foldl (fun m e => m.insert e.1 e.2) empty

end OrderedMap
end VerifiedLedger
