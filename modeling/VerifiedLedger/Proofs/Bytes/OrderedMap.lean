import VerifiedLedger.Bytes.OrderedMap
/-! # Maps in key order, from their entries

The entries of a map make the map again. Entries in key order go in one behind the other. What a
key is looked up to is the last of the entries that were given for it.
-/
namespace VerifiedLedger.OrderedMap
open ByteKey (keyBytes)
variable {κ β : Type} [ByteKey κ]

theorem ne_of_keyBytes_lt {k k' : κ} (h : keyBytes k < keyBytes k') : k ≠ k' := by
  rintro rfl
  exact List.lt_irrefl _ h

theorem insertEntry_of_last {k : κ} {v : β} {entries : List (κ × β)}
    (h : ∀ e ∈ entries, keyBytes e.1 < keyBytes k) :
    insertEntry k v entries = entries ++ [(k, v)] := by
  induction entries with
  | nil => rfl
  | cons e entries ih =>
    have he := h e List.mem_cons_self
    have hnot : ¬ keyBytes k < keyBytes e.1 := List.lt_asymm he
    have hne : keyBytes k ≠ keyBytes e.1 := fun heq => List.lt_irrefl _ (heq ▸ he)
    rw [insertEntry, if_neg hnot, if_neg hne, ih fun b hb => h b (List.mem_cons_of_mem e hb)]
    rfl

theorem entries_foldl_insert {m : OrderedMap κ β} {entries : List (κ × β)}
    (h : (m.entries ++ entries).Pairwise fun a b => keyBytes a.1 < keyBytes b.1) :
    (entries.foldl (fun m e => m.insert e.1 e.2) m).entries = m.entries ++ entries := by
  induction entries generalizing m with
  | nil => exact (List.append_nil _).symm
  | cons e entries ih =>
    have hlast : (m.insert e.1 e.2).entries = m.entries ++ [e] :=
      insertEntry_of_last fun b hb => (List.pairwise_append.1 h).2.2 b hb e List.mem_cons_self
    rw [List.append_cons, ← hlast] at h
    rw [List.foldl_cons, ih h, hlast, ← List.append_cons]

theorem eq_of_entries_eq {m m' : OrderedMap κ β} (h : m.entries = m'.entries) : m = m' := by
  cases m
  cases m'
  cases h
  rfl

theorem ofList_entries (m : OrderedMap κ β) : ofList m.entries = m :=
  eq_of_entries_eq (entries_foldl_insert m.sorted)

section Lookup
variable {k k' : κ} {v : β} {m : OrderedMap κ β} {entries : List (κ × β)}

theorem lookup_insertEntry (k k' : κ) (v : β) (entries : List (κ × β)) :
    lookup k' (insertEntry k v entries) =
      if keyBytes k' = keyBytes k then some v else lookup k' entries := by
  induction entries with
  | nil => rfl
  | cons e entries ih =>
    obtain ⟨first, w⟩ := e
    rw [insertEntry]
    split
    · rfl
    · split
      · next heq =>
        rw [lookup, lookup, heq]
        split
        · rfl
        · rfl
      · next hne =>
        rw [lookup, ih, lookup]
        split
        · next hfirst => rw [if_neg (hfirst ▸ Ne.symm hne)]
        · rfl

theorem get?_insert (m : OrderedMap κ β) (k k' : κ) (v : β) :
    (m.insert k v).get? k' = if keyBytes k' = keyBytes k then some v else m.get? k' :=
  lookup_insertEntry k k' v m.entries

/-- An entry goes in last if no other one with its key comes behind it. -/
theorem get?_foldl_insert_eq_some_iff :
    (entries.foldl (fun m e => m.insert e.1 e.2) m).get? k = some v ↔
      (∃ before after, entries = before ++ (k, v) :: after ∧ ∀ e ∈ after, e.1 ≠ k) ∨
        m.get? k = some v ∧ ∀ e ∈ entries, e.1 ≠ k := by
  induction entries generalizing m with
  | nil => simp
  | cons e entries ih =>
    obtain ⟨first, w⟩ := e
    rw [List.foldl_cons, ih, get?_insert]
    constructor
    · rintro (⟨before, after, rfl, hafter⟩ | ⟨hget, hrest⟩)
      · exact .inl ⟨(first, w) :: before, after, rfl, hafter⟩
      · split at hget
        · next hkey =>
          obtain rfl := ByteKey.keyBytes_inj _ _ hkey
          cases hget
          exact .inl ⟨[], entries, rfl, hrest⟩
        · next hkey =>
          exact .inr ⟨hget, List.forall_mem_cons.2 ⟨fun h => hkey (h ▸ rfl), hrest⟩⟩
    · rintro (⟨before, after, hentries, hafter⟩ | ⟨hget, hall⟩)
      · rcases List.cons_eq_append_iff.1 hentries with ⟨rfl, hentry⟩ | ⟨before, rfl, hrest⟩
        · cases hentry
          exact .inr ⟨if_pos rfl, hafter⟩
        · exact .inl ⟨before, after, hrest, hafter⟩
      · obtain ⟨hfirst, hrest⟩ := List.forall_mem_cons.1 hall
        refine .inr ⟨?_, hrest⟩
        rwa [if_neg fun hkey => hfirst (ByteKey.keyBytes_inj _ _ hkey).symm]

/-- Of the entries with one key the last one counts. -/
theorem get?_ofList_eq_some_iff :
    (ofList entries).get? k = some v ↔
      ∃ before after, entries = before ++ (k, v) :: after ∧ ∀ e ∈ after, e.1 ≠ k := by
  rw [ofList, get?_foldl_insert_eq_some_iff, or_iff_left]
  rintro ⟨hget, -⟩
  cases hget

theorem lookup_eq_some_iff (h : entries.Pairwise fun a b => keyBytes a.1 < keyBytes b.1) :
    lookup k entries = some v ↔ (k, v) ∈ entries := by
  induction entries with
  | nil => simp [lookup]
  | cons e entries ih =>
    obtain ⟨first, w⟩ := e
    obtain ⟨hfirst, hrest⟩ := List.pairwise_cons.1 h
    rw [lookup, List.mem_cons]
    split
    · next hkey =>
      obtain rfl := ByteKey.keyBytes_inj _ _ hkey
      have hlater : (k, v) ∉ entries := fun hmem => ne_of_keyBytes_lt (hfirst (k, v) hmem) rfl
      rw [or_iff_left hlater, Option.some.injEq, Prod.mk.injEq, eq_comm, and_iff_right rfl]
    · next hkey =>
      have hne : (k, v) ≠ (first, w) := fun heq => hkey (congrArg (keyBytes ∘ Prod.fst) heq)
      rw [or_iff_right hne, ih hrest]

theorem get?_eq_some_iff : m.get? k = some v ↔ (k, v) ∈ m.entries :=
  lookup_eq_some_iff m.sorted

theorem nodup_keys (m : OrderedMap κ β) : m.keys.Nodup :=
  List.pairwise_map.2 (m.sorted.imp ne_of_keyBytes_lt)

end Lookup
end VerifiedLedger.OrderedMap
