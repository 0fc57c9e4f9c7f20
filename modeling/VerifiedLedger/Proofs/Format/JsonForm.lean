import VerifiedLedger.Format.Record
import VerifiedLedger.Format.Variant
import VerifiedLedger.Format.Collection
import VerifiedLedger.Format.Hex
import VerifiedLedger.Proofs.Bytes.Hex
import VerifiedLedger.Proofs.Bytes.OrderedMap
import VerifiedLedger.Proofs.Json.Values
/-! # JSON forms read back

What a format writes as JSON it reads as the value, with every budget that covers the nesting of
what is written and with no other. Each way to make a format out of others passes this on, with the
nesting that it adds.
-/
namespace VerifiedLedger
variable {α β σ : Type}

namespace Json

mutual

/-- How many arrays and objects are open at once in the text of the value. -/
def nesting : Json → ℕ
  | .array items => nestingOfAll items + 1
  | .object members => nestingOfMembers members + 1
  | .null | .bool _ | .nat _ | .numeral _ | .text _ => 0

def nestingOfAll : List Json → ℕ
  | [] => 0
  | item :: items => max item.nesting (nestingOfAll items)

def nestingOfMembers : List (JsonText × Json) → ℕ
  | [] => 0
  | (_, value) :: members => max value.nesting (nestingOfMembers members)

end

theorem nestingOfMembers_append (ms ns : List (JsonText × Json)) :
    nestingOfMembers (ms ++ ns) = max (nestingOfMembers ms) (nestingOfMembers ns) := by
  induction ms with
  | nil => exact (Nat.zero_max _).symm
  | cons m ms ih => rw [List.cons_append, nestingOfMembers, ih, nestingOfMembers, Nat.max_assoc]

end Json

/-- Gives the value with every budget from `level` on, and nothing with less. -/
def ReadsFrom (read : ℕ → Option α) (level : ℕ) (a : α) : Prop :=
  ∀ budget, read budget = if level ≤ budget then some a else none

namespace ReadsFrom
variable {read : ℕ → Option α} {read' : ℕ → Option β} {level level' : ℕ} {a : α} {b : β}

theorem const (a : α) : ReadsFrom (fun _ => some a) 0 a :=
  fun budget => (if_pos (Nat.zero_le budget)).symm

theorem bind {accept : α → Option β} (h : ReadsFrom read level a) (haccept : accept a = some b) :
    ReadsFrom (fun budget => read budget >>= accept) level b := by
  intro budget
  simp only [h budget]
  split
  · exact haccept
  · rfl

theorem map (g : α → β) (h : ReadsFrom read level a) :
    ReadsFrom (fun budget => g <$> read budget) level (g a) := by
  intro budget
  simp only [h budget]
  split <;> rfl

theorem both (g : α → β → σ) (h : ReadsFrom read level a) (h' : ReadsFrom read' level' b) :
    ReadsFrom (fun budget => do
      let a ← read budget
      let b ← read' budget
      return g a b) (max level level') (g a b) := by
  intro budget
  simp only [h budget, h' budget, Nat.max_le]
  by_cases hlevel : level ≤ budget
  · by_cases hlevel' : level' ≤ budget
    · rw [if_pos hlevel, if_pos hlevel', if_pos ⟨hlevel, hlevel'⟩]
      rfl
    · have hboth : ¬(level ≤ budget ∧ level' ≤ budget) := fun h => hlevel' h.2
      rw [if_pos hlevel, if_neg hlevel', if_neg hboth]
      rfl
  · have hboth : ¬(level ≤ budget ∧ level' ≤ budget) := fun h => hlevel h.1
    rw [if_neg hlevel, if_neg hboth]
    rfl

/-- Opening an array or an object takes one off the budget. -/
theorem succ {outer : ℕ → Option α} (h : ReadsFrom read level a) (hzero : outer 0 = none)
    (hsucc : ∀ budget, outer (budget + 1) = read budget) : ReadsFrom outer (level + 1) a := by
  rintro (_ | budget)
  · rw [hzero, if_neg (Nat.not_succ_le_zero level)]
  · rw [hsucc, h budget]
    simp only [Nat.add_le_add_iff_right]

end ReadsFrom

namespace Format
variable {f : Format α} {g : Format β} {a : α} {b : β} {j : Json} {depth : ℕ}

structure JsonForm (f : Format α) (a : α) (j : Json) : Prop where
  toJson_eq : f.toJson a = some j
  plain : j.Plain
  reads : ReadsFrom (f.ofJson · j) j.nesting a

/-- The value is written as JSON that is nested `depth` deep at most, and read back. -/
def HasJson (f : Format α) (depth : ℕ) (a : α) : Prop := ∃ j, f.JsonForm a j ∧ j.nesting ≤ depth

theorem HasJson.mono {depth' : ℕ} (h : f.HasJson depth a) (hle : depth ≤ depth') :
    f.HasJson depth' a := by
  obtain ⟨j, hj, hdepth⟩ := h
  exact ⟨j, hj, Nat.le_trans hdepth hle⟩

theorem HasJson.of_toJson (h : f.HasJson depth a) (hj : f.toJson a = some j) :
    f.JsonForm a j ∧ j.nesting ≤ depth := by
  obtain ⟨k, hk, hdepth⟩ := h
  obtain rfl := Option.some.inj (hj.symm.trans hk.toJson_eq)
  exact ⟨hk, hdepth⟩

/-- The text of a value is read back unless more is nested in it than a reader allows. -/
theorem JsonForm.parse_render (h : f.JsonForm a j) (layout : Json.Layout) :
    (Json.parse (j.render layout)).bind (f.ofJson nestingLimit) =
      if j.nesting ≤ nestingLimit then some a else none := by
  rw [h.plain.parse_render]
  exact h.reads nestingLimit

theorem jsonForm_byte (b : UInt8) : byte.JsonForm b (.nat b.toNat) := by
  refine ⟨rfl, .nat _, fun budget => ?_⟩
  rw [Json.nesting, if_pos (Nat.zero_le budget)]
  exact (if_pos b.toNat_lt).trans (congrArg some UInt8.ofNat_toNat)

theorem jsonForm_word (w : UInt64) : word.JsonForm w (.nat w.toNat) := by
  refine ⟨rfl, .nat _, fun budget => ?_⟩
  rw [Json.nesting, if_pos (Nat.zero_le budget)]
  exact (if_pos w.toNat_lt).trans (congrArg some UInt64.ofNat_toNat)

theorem hasJson_byte (b : UInt8) : byte.HasJson depth b := ⟨_, jsonForm_byte b, Nat.zero_le _⟩

theorem hasJson_word (w : UInt64) : word.HasJson depth w := ⟨_, jsonForm_word w, Nat.zero_le _⟩

theorem hasJson_bool (b : Bool) : bool.HasJson depth b :=
  ⟨.bool b, ⟨rfl, .bool b, .const b⟩, Nat.zero_le _⟩

theorem hasJson_text (s : String) : text.HasJson depth s :=
  ⟨.string s, ⟨rfl, .string s, .const s⟩, Nat.zero_le _⟩

theorem HasJson.refine {accept : α → Except String β} {forget : β → α}
    (haccept : accept (forget b) = .ok b) (h : f.HasJson depth (forget b)) :
    (f.refine accept forget).HasJson depth b := by
  obtain ⟨j, hj, hdepth⟩ := h
  have hread : (accept (forget b)).toOption = some b := congrArg Except.toOption haccept
  exact ⟨j, ⟨hj.toJson_eq, hj.plain, hj.reads.bind hread⟩, hdepth⟩

theorem JsonForm.map {wrap : α → β} {unwrap : β → α} (hwrap : wrap (unwrap b) = b)
    (h : f.JsonForm (unwrap b) j) : (f.map wrap unwrap).JsonForm b j := by
  have hread := h.reads.map wrap
  rw [hwrap] at hread
  exact ⟨h.toJson_eq, h.plain, hread⟩

theorem HasJson.map {wrap : α → β} {unwrap : β → α} (hwrap : wrap (unwrap b) = b)
    (h : f.HasJson depth (unwrap b)) : (f.map wrap unwrap).HasJson depth b := by
  obtain ⟨j, hj, hdepth⟩ := h
  exact ⟨j, hj.map hwrap, hdepth⟩

theorem HasJson.delay {f : Unit → Format α} (h : (f ()).HasJson depth a) :
    (Format.delay f).HasJson depth a := by
  obtain ⟨j, hj, hdepth⟩ := h
  exact ⟨j, ⟨hj.toJson_eq, hj.plain, hj.reads⟩, hdepth⟩

/-- A format that writes a value as all the formats of a family from some point on, and reads within
a budget as all of them from some point on, has the value's JSON form in common with them. -/
theorem HasJson.of_family {family : ℕ → Format α} {n : ℕ} (level : ℕ → ℕ)
    (hjson : ∀ d, n ≤ d → (family d).HasJson (level d) a)
    (hwritten : ∀ d, n ≤ d → (family d).toJson a = f.toJson a)
    (hread : ∀ budget d, budget < d → f.ofJson budget = (family d).ofJson budget) :
    f.HasJson (level n) a := by
  obtain ⟨j, hj, hdepth⟩ := hjson n (Nat.le_refl n)
  have htoJson : f.toJson a = some j := (hwritten n (Nat.le_refl n)).symm.trans hj.toJson_eq
  refine ⟨j, ⟨htoJson, hj.plain, fun budget => ?_⟩, hdepth⟩
  have hlevel : n ≤ max (budget + 1) n := Nat.le_max_right _ _
  have hform := ((hjson _ hlevel).of_toJson ((hwritten _ hlevel).trans htoJson)).1
  exact (congrFun (hread budget _ (Nat.le_max_left _ _)) j).trans (hform.reads budget)

section Collections

theorem exists_items {as : List α} (h : ∀ a ∈ as, f.HasJson depth a) :
    ∃ items, as.mapM f.toJson = some items ∧ (∀ item ∈ items, item.Plain) ∧
      ReadsFrom (fun budget => items.mapM (f.ofJson budget)) (Json.nestingOfAll items) as ∧
      Json.nestingOfAll items ≤ depth := by
  induction as with
  | nil => exact ⟨[], rfl, nofun, .const [], Nat.zero_le _⟩
  | cons a as ih =>
    obtain ⟨⟨item, hitem, hdepth⟩, has⟩ := List.forall_mem_cons.1 h
    obtain ⟨items, htoJson, hplain, hread, hdepths⟩ := ih has
    refine ⟨item :: items, ?_, List.forall_mem_cons.2 ⟨hitem.plain, hplain⟩, ?_,
      Nat.max_le.2 ⟨hdepth, hdepths⟩⟩
    · rw [List.mapM_cons, hitem.toJson_eq, htoJson]
      rfl
    · simp only [List.mapM_cons]
      exact hitem.reads.both List.cons hread

theorem HasJson.list {as : List α} (h : ∀ a ∈ as, f.HasJson depth a) :
    (Format.list f).HasJson (depth + 1) as := by
  obtain ⟨items, htoJson, hplain, hread, hdepth⟩ := exists_items h
  have hwritten : (Format.list f).toJson as = some (.array items) :=
    congrArg (Json.array <$> ·) htoJson
  exact ⟨.array items, ⟨hwritten, .array hplain, hread.succ rfl fun _ => rfl⟩,
    Nat.add_le_add_right hdepth 1⟩

theorem hasJson_bytes (bs : List UInt8) : Format.bytes.HasJson (depth + 1) bs :=
  .list fun b _ => hasJson_byte b

theorem HasJson.pair (ha : f.HasJson depth a) (hb : g.HasJson depth b) :
    (Format.pair f g).HasJson (depth + 1) (a, b) := by
  obtain ⟨j, hj, hdepth⟩ := ha
  obtain ⟨k, hk, hdepth'⟩ := hb
  have hwritten : (Format.pair f g).toJson (a, b) = some (.array [j, k]) := by
    simp only [Format.pair, hj.toJson_eq, hk.toJson_eq]
    rfl
  have hlevel : Json.nestingOfAll [j, k] = max j.nesting k.nesting := by
    rw [Json.nestingOfAll, Json.nestingOfAll, Json.nestingOfAll, Nat.max_zero]
  have hread : ReadsFrom ((Format.pair f g).ofJson · (.array [j, k])) _ (a, b) :=
    (hj.reads.both Prod.mk hk.reads).succ rfl fun _ => rfl
  refine ⟨.array [j, k], ⟨hwritten, .array ?_, ?_⟩, ?_⟩
  · exact List.forall_mem_cons.2 ⟨hj.plain, List.forall_mem_singleton.2 hk.plain⟩
  · rwa [Json.nesting, hlevel]
  · rw [Json.nesting, hlevel]
    exact Nat.add_le_add_right (Nat.max_le.2 ⟨hdepth, hdepth'⟩) 1

/-- A value that is there must not be written like one that is not. -/
theorem HasJson.option {o : Option α} (hnull : f.ofJson 0 .null = none)
    (h : ∀ a ∈ o, f.HasJson depth a) : (Format.option f).HasJson depth o := by
  cases o with
  | none => exact ⟨.null, ⟨rfl, .null, .const none⟩, Nat.zero_le _⟩
  | some a =>
    obtain ⟨j, hj, hdepth⟩ := h a rfl
    refine ⟨j, ⟨hj.toJson_eq, hj.plain, fun budget => ?_⟩, hdepth⟩
    have hread : (Format.option f).ofJson budget j = some <$> f.ofJson budget j := by
      cases j with
      | null => exact absurd (hnull.symm.trans (hj.reads 0)) nofun
      | _ => rfl
    exact hread.trans (hj.reads.map some budget)

/-- Keys are written as texts, whatever the budget. -/
theorem exists_entries {κ : Type} {key : Format κ} {entries : List (κ × β)}
    (hkeys : ∀ e ∈ entries, ∃ name, key.JsonForm e.1 (.string name))
    (h : ∀ e ∈ entries, g.HasJson depth e.2) :
    ∃ members : List (String × Json),
      entries.mapM (memberOf key g) = some (Json.named members) ∧
      (∀ m ∈ members, m.2.Plain) ∧
      ReadsFrom (fun budget => (Json.named members).mapM (entryOf key g budget))
        (Json.nestingOfMembers (Json.named members)) entries ∧
      Json.nestingOfMembers (Json.named members) ≤ depth := by
  induction entries with
  | nil => exact ⟨[], rfl, nofun, .const [], Nat.zero_le _⟩
  | cons e entries ih =>
    obtain ⟨⟨name, hname⟩, hkeys⟩ := List.forall_mem_cons.1 hkeys
    obtain ⟨⟨j, hj, hdepth⟩, h⟩ := List.forall_mem_cons.1 h
    obtain ⟨members, htoJson, hplain, hread, hdepths⟩ := ih hkeys h
    have hwritten : memberOf key g e = some (some name, j) := by
      simp only [memberOf, hname.toJson_eq, hj.toJson_eq, Json.string]
      rfl
    have hentry : ReadsFrom (entryOf key g · (some name, j)) j.nesting e := by
      have h := hname.reads.both Prod.mk hj.reads
      rwa [Json.string, Json.nesting, Nat.zero_max] at h
    refine ⟨(name, j) :: members, ?_, List.forall_mem_cons.2 ⟨hj.plain, hplain⟩, ?_,
      Nat.max_le.2 ⟨hdepth, hdepths⟩⟩
    · rw [List.mapM_cons, hwritten, htoJson]
      rfl
    · simp only [Json.named, List.map_cons, List.mapM_cons]
      exact hentry.both List.cons hread

theorem HasJson.orderedMap {κ : Type} [ByteKey κ] {key : Format κ} {m : OrderedMap κ β}
    (hkeys : ∀ e ∈ m.entries, ∃ name, key.JsonForm e.1 (.string name))
    (h : ∀ e ∈ m.entries, g.HasJson depth e.2) :
    (Format.orderedMap key g).HasJson (depth + 1) m := by
  obtain ⟨members, htoJson, hplain, hread, hdepth⟩ := exists_entries hkeys h
  have hwritten : (Format.orderedMap key g).toJson m = some (.record members) :=
    congrArg (Json.object <$> ·) htoJson
  have hback := hread.map OrderedMap.ofList
  rw [OrderedMap.ofList_entries] at hback
  exact ⟨.record members, ⟨hwritten, .record hplain, hback.succ rfl fun _ => rfl⟩,
    Nat.add_le_add_right hdepth 1⟩

end Collections

section Hexadecimal

theorem hexOfJson_hexJson (bytes : List UInt8) : hexOfJson (hexJson bytes) = some bytes := by
  rw [hexJson, Json.string, hexOfJson, Hex.decode_encode]
  rfl

variable {n : ℕ} {lengthFault : String}

/-- Bytes written as hexadecimal text are nested in nothing. -/
theorem jsonForm_fixed (b : FixedBytes n) :
    (fixed n).JsonForm b (.string (Hex.encode b.toList)) := by
  refine ⟨rfl, .string _, fun budget => ?_⟩
  have hread : hexOfJson (.string (Hex.encode b.toList)) = some b.toList :=
    hexOfJson_hexJson b.toList
  simp only [fixed, hread]
  exact FixedBytes.ofList?_toList b

theorem jsonForm_sized (b : FixedBytes n) :
    (sized n lengthFault).JsonForm b (.string (Hex.encode b.toList)) :=
  ⟨rfl, (jsonForm_fixed b).plain, (jsonForm_fixed b).reads⟩

end Hexadecimal
end Format

/-- A value that is not written is the one that an absent field has. -/
def FieldRule.Restores (rule : FieldRule α) : Prop :=
  ∀ a, rule.skips a = true → rule.absent = some a

namespace FieldRule

theorem restores_required : (required : FieldRule α).Restores := nofun

theorem restores_optional : (optional : FieldRule (Option α)).Restores := nofun

theorem restores_withDefault (a : α) : (withDefault a).Restores := nofun

theorem restores_sparse : (sparse : FieldRule (Option α)).Restores := by
  rintro (_ | a) h
  · rfl
  · cases h

end FieldRule

namespace Fields
open Json (named nestingOfMembers nestingOfMembers_append)
variable {fields : Fields α} {f : Format α} {rest : Fields β} {rule : FieldRule α} {name : String}
  {names : List String} {members : List (String × Json)} {a : α} {b : β} {depth : ℕ}

/-- The fields are written as the members, and read back from among members of other names. -/
structure JsonForm (fields : Fields α) (names : List String) (a : α)
    (members : List (String × Json)) : Prop where
  toMembers_eq : fields.toMembers a = some members
  mem_names : ∀ m ∈ members, m.1 ∈ names
  plain : ∀ m ∈ members, m.2.Plain
  reads : names.Nodup → ∀ others : List (JsonText × Json),
    (∀ m ∈ others, ∀ name ∈ names, m.1 ≠ some name) →
    ReadsFrom (fields.ofMembers · (others ++ named members)) (nestingOfMembers (named members)) a

def HasJson (fields : Fields α) (names : List String) (depth : ℕ) (a : α) : Prop :=
  ∃ members, fields.JsonForm names a members ∧ nestingOfMembers (named members) ≤ depth

theorem filter_eq_nil {others : List (JsonText × Json)} (h : ∀ m ∈ others, m.1 ≠ some name) :
    others.filter (fun m => m.1 == some name) = [] := by
  refine List.filter_eq_nil_iff.2 fun m hm => ?_
  rw [beq_iff_eq]
  exact h m hm

theorem filter_named (h : ∀ m ∈ members, m.1 = name) :
    (named members).filter (fun m => m.1 == some name) = named members := by
  refine List.filter_eq_self.2 fun m hm => ?_
  obtain ⟨n, hn, rfl⟩ := List.mem_map.1 hm
  exact beq_iff_eq.2 (congrArg some (h n hn))

theorem ne_of_mem_named {m : JsonText × Json} (hmembers : ∀ m ∈ members, m.1 ∈ names)
    (hname : name ∉ names) (hm : m ∈ named members) : m.1 ≠ some name := by
  obtain ⟨n, hn, rfl⟩ := List.mem_map.1 hm
  intro heq
  exact hname (Option.some.inj heq ▸ hmembers n hn)

/-- One field: what is written for it, and how it is found. -/
theorem exists_fieldMembers (name : String) (hrule : rule.Restores) (h : f.HasJson depth a) :
    ∃ own, fieldMembers name rule f a = some own ∧ (∀ m ∈ own, m.1 = name) ∧
      (∀ m ∈ own, m.2.Plain) ∧ nestingOfMembers (named own) ≤ depth ∧
      ∀ members, members.filter (fun m => m.1 == some name) = named own →
        ReadsFrom (fieldOfMembers name rule f · members) (nestingOfMembers (named own)) a := by
  cases hskips : rule.skips a with
  | true =>
    refine ⟨[], if_pos hskips, nofun, nofun, Nat.zero_le _, fun members hfound budget => ?_⟩
    simp only [fieldOfMembers, hfound]
    exact (hrule a hskips).trans (if_pos (Nat.zero_le budget)).symm
  | false =>
    obtain ⟨j, hj, hdepth⟩ := h
    have hwritten : fieldMembers name rule f a = some [(name, j)] := by
      rw [fieldMembers, hskips, hj.toJson_eq]
      rfl
    have hlevel : nestingOfMembers (named [(name, j)]) = j.nesting := Nat.max_zero _
    refine ⟨[(name, j)], hwritten, List.forall_mem_singleton.2 rfl,
      List.forall_mem_singleton.2 hj.plain, Nat.le_trans (Nat.le_of_eq hlevel) hdepth,
      fun members hfound budget => ?_⟩
    simp only [fieldOfMembers, hfound, hlevel]
    exact hj.reads budget

theorem HasJson.last (hrule : rule.Restores) (h : f.HasJson depth a) :
    (Fields.last name rule f).HasJson [name] depth a := by
  obtain ⟨own, hwritten, hname, hplain, hdepth, hread⟩ := exists_fieldMembers name hrule h
  refine ⟨own, ⟨hwritten, fun m hm => List.mem_singleton.2 (hname m hm), hplain, ?_⟩, hdepth⟩
  intro _ others hothers
  refine hread _ ?_
  rw [List.filter_append, filter_named hname,
    filter_eq_nil fun m hm => hothers m hm name List.mem_cons_self]
  rfl

theorem HasJson.field (hrule : rule.Restores) (ha : f.HasJson depth a)
    (hb : rest.HasJson names depth b) :
    (Fields.field name rule f rest).HasJson (name :: names) depth (a, b) := by
  obtain ⟨own, hwritten, hname, hplain, hdepth, hread⟩ := exists_fieldMembers name hrule ha
  obtain ⟨members, hrest, hdepths⟩ := hb
  have hmembers : (Fields.field name rule f rest).toMembers (a, b) = some (own ++ members) := by
    simp only [Fields.field, hwritten, hrest.toMembers_eq]
    rfl
  have hsplit : named (own ++ members) = named own ++ named members := List.map_append
  refine ⟨own ++ members, ⟨hmembers, ?_, ?_, fun hnames others hothers => ?_⟩, ?_⟩
  · rintro m hm
    rcases List.mem_append.1 hm with hm | hm
    · exact hname m hm ▸ List.mem_cons_self
    · exact List.mem_cons_of_mem name (hrest.mem_names m hm)
  · rintro m hm
    rcases List.mem_append.1 hm with hm | hm
    · exact hplain m hm
    · exact hrest.plain m hm
  · obtain ⟨hfresh, hnames⟩ := List.nodup_cons.1 hnames
    rw [hsplit, nestingOfMembers_append, ← List.append_assoc]
    refine (hread _ ?_).both Prod.mk (hrest.reads hnames _ ?_)
    · rw [List.filter_append, List.filter_append, filter_named hname,
        filter_eq_nil fun m hm => hothers m hm name List.mem_cons_self,
        filter_eq_nil fun m hm => ne_of_mem_named hrest.mem_names hfresh hm]
      exact List.append_nil _
    · intro m hm other hother
      rcases List.mem_append.1 hm with hm | hm
      · exact hothers m hm other (List.mem_cons_of_mem name hother)
      · obtain ⟨n, hn, rfl⟩ := List.mem_map.1 hm
        intro heq
        exact hfresh (hname n hn ▸ Option.some.inj heq ▸ hother)
  · rw [hsplit, nestingOfMembers_append]
    exact Nat.max_le.2 ⟨hdepth, hdepths⟩

end Fields

theorem Format.HasJson.record {fields : Fields α} {split : σ → α} {join : α → σ} {s : σ}
    {names : List String} {depth : ℕ} (hnames : names.Nodup) (hjoin : join (split s) = s)
    (h : fields.HasJson names depth (split s)) :
    (fields.record split join).HasJson (depth + 1) s := by
  obtain ⟨members, hmembers, hdepth⟩ := h
  have hwritten : (fields.record split join).toJson s = some (.record members) :=
    congrArg (Json.record <$> ·) hmembers.toMembers_eq
  have hread := (hmembers.reads hnames [] nofun).map join
  rw [hjoin, List.nil_append] at hread
  have hnone : (Json.named members).any (fun m => m.1.isNone) = false := by
    rw [List.any_eq_false]
    rintro m hm
    obtain ⟨n, -, rfl⟩ := List.mem_map.1 hm
    exact Bool.false_ne_true
  refine ⟨.record members, ⟨hwritten, .record hmembers.plain, hread.succ rfl fun budget => ?_⟩,
    Nat.add_le_add_right hdepth 1⟩
  exact (if_neg (Bool.eq_false_iff.1 hnone) :)

namespace Variants
variable {variants : Variants α} {others : Variants β} {f : Format α} {name : String}
  {names names' : List String} {depth : ℕ} {P : α → Prop} {Q : β → Prop}

/-- A variant's name, alone or with its data. -/
def tagged (name : String) : Option Json → Json
  | none => .string name
  | some payload => .record [(name, payload)]

def levelOf (payload : Option Json) : ℕ := payload.elim 0 Json.nesting

/-- The variant that the value has is written, and read back by its name. -/
structure JsonForm (variants : Variants α) (names : List String) (a : α) (name : String)
    (payload : Option Json) : Prop where
  toJson_eq : variants.toJson a = some (tagged name payload)
  mem_names : name ∈ names
  plain : ∀ j ∈ payload, j.Plain
  reads : names.Nodup → ReadsFrom (variants.ofName · name payload) (levelOf payload) a

/-- The variants have these names, and values that satisfy `P` are written and read back. -/
structure HasJson (variants : Variants α) (names : List String) (depth : ℕ) (P : α → Prop) :
    Prop where
  unknown : ∀ budget name payload, name ∉ names → variants.ofName budget name payload = none
  written : ∀ a, P a → ∃ name payload, variants.JsonForm names a name payload ∧
    levelOf payload ≤ depth

theorem HasJson.last : (Variants.last name f).HasJson [name] depth (f.HasJson depth) := by
  constructor
  · intro budget key payload hkey
    exact if_neg fun heq => hkey (List.mem_singleton.2 heq)
  · rintro a ⟨j, hj, hdepth⟩
    have hwritten : (Variants.last name f).toJson a = some (tagged name (some j)) := by
      simp only [Variants.last, dataJson, hj.toJson_eq]
      rfl
    refine ⟨name, some j, ⟨hwritten, List.mem_cons_self, ?_, fun _ budget => ?_⟩, hdepth⟩
    · rintro _ ⟨⟩
      exact hj.plain
    · exact (if_pos rfl).trans (hj.reads budget)

theorem HasJson.lastBare : (Variants.lastBare name).HasJson [name] depth fun _ => True := by
  constructor
  · intro budget key payload hkey
    exact if_neg fun heq => hkey (List.mem_singleton.2 heq)
  · rintro ⟨⟩ -
    refine ⟨name, none, ⟨rfl, List.mem_cons_self, nofun, fun _ budget => ?_⟩, Nat.zero_le _⟩
    exact (if_pos rfl).trans (if_pos (Nat.zero_le budget)).symm

section OrElse
variable {budget : ℕ} {payload : Option Json}

theorem ofName_orElse_left (h : others.ofName budget name payload = none) :
    (variants.orElse others).ofName budget name payload =
      Sum.inl <$> variants.ofName budget name payload := by
  simp only [Variants.orElse]
  split
  · next heq => rw [heq]; rfl
  · next heq => rw [heq, h]; rfl

theorem ofName_orElse_right (h : variants.ofName budget name payload = none) :
    (variants.orElse others).ofName budget name payload =
      Sum.inr <$> others.ofName budget name payload := by
  simp only [Variants.orElse, h]

theorem HasJson.orElse (h : variants.HasJson names depth P) (h' : others.HasJson names' depth Q) :
    (variants.orElse others).HasJson (names ++ names') depth (Sum.elim P Q) := by
  constructor
  · intro budget key payload hkey
    rw [List.mem_append, not_or] at hkey
    rw [ofName_orElse_left (h'.unknown budget key payload hkey.2),
      h.unknown budget key payload hkey.1]
    rfl
  -- The name of a variant of one side is no name of the other side.
  · rintro (a | b) hP
    · obtain ⟨key, payload, hkey, hdepth⟩ := h.written a hP
      refine ⟨key, payload, ⟨hkey.toJson_eq, List.mem_append_left names' hkey.mem_names, hkey.plain,
        fun hnames budget => ?_⟩, hdepth⟩
      obtain ⟨hnodup, -, hdisjoint⟩ := List.nodup_append.1 hnames
      have hother : key ∉ names' := fun hmem => hdisjoint key hkey.mem_names key hmem rfl
      exact (ofName_orElse_left (h'.unknown budget key payload hother)).trans
        ((hkey.reads hnodup).map Sum.inl budget)
    · obtain ⟨key, payload, hkey, hdepth⟩ := h'.written b hP
      refine ⟨key, payload, ⟨hkey.toJson_eq, List.mem_append_right names hkey.mem_names, hkey.plain,
        fun hnames budget => ?_⟩, hdepth⟩
      obtain ⟨-, hnodup, hdisjoint⟩ := List.nodup_append.1 hnames
      have hother : key ∉ names := fun hmem => hdisjoint key hmem key hkey.mem_names rfl
      exact (ofName_orElse_right (h.unknown budget key payload hother)).trans
        ((hkey.reads hnodup).map Sum.inr budget)

end OrElse
end Variants

theorem Format.HasJson.variants {variants : Variants α} {split : σ → α} {join : α → σ} {s : σ}
    {names : List String} {depth : ℕ} {P : α → Prop} (hnames : names.Nodup)
    (hjoin : join (split s) = s) (h : variants.HasJson names depth P) (hs : P (split s)) :
    (variants.format split join).HasJson (depth + 1) s := by
  obtain ⟨name, payload, hname, hdepth⟩ := h.written (split s) hs
  have hread := (hname.reads hnames).map join
  rw [hjoin] at hread
  cases payload with
  | none => exact ⟨.string name, ⟨hname.toJson_eq, .string name, hread⟩, Nat.zero_le _⟩
  | some payload =>
    have hlevel : Json.nestingOfMembers [(some name, payload)] = payload.nesting := Nat.max_zero _
    refine ⟨.record [(name, payload)], ⟨hname.toJson_eq, .record ?_, ?_⟩, ?_⟩
    · exact List.forall_mem_singleton.2 (hname.plain payload rfl)
    · rw [Json.record, List.map_singleton, Json.nesting, hlevel]
      exact hread.succ rfl fun _ => rfl
    · rw [Json.record, List.map_singleton, Json.nesting, hlevel]
      exact Nat.add_le_add_right hdepth 1

end VerifiedLedger
