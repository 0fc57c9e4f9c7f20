import VerifiedLedger.Proofs.Json.Tokens
/-! # JSON values read back

A value is read back from its text in either layout. Blanks come only where a value, a comma or a
bracket comes next, and the length of a text is fuel enough to read it.
-/
namespace VerifiedLedger.Json
variable {layout : Layout} {j : Json} {blanks cs rest : List Char}

/-- Values whose text says everything: no number keeps a spelling, and no string has lost half of a
surrogate pair. -/
inductive Plain : Json → Prop
  | null : Plain .null
  | bool (value : Bool) : Plain (.bool value)
  | nat (value : ℕ) : Plain (.nat value)
  | string (s : String) : Plain (.string s)
  | array {items : List Json} (h : ∀ item ∈ items, Plain item) : Plain (.array items)
  | record {members : List (String × Json)} (h : ∀ m ∈ members, Plain m.2) : Plain (.record members)

section Blanks

def Blank (cs : List Char) : Prop := ∀ c ∈ cs, isBlank c = true

theorem blank_lineBreak (layout : Layout) (depth : ℕ) : Blank (layout.lineBreak depth) := by
  cases layout with
  | compact => nofun
  | pretty =>
    refine List.forall_mem_cons.2 ⟨rfl, fun c hc => ?_⟩
    rw [List.eq_of_mem_replicate hc]
    rfl

theorem skipBlanks_append (h : Blank blanks) (cs : List Char) :
    skipBlanks (blanks ++ cs) = skipBlanks cs :=
  List.dropWhile_append_of_pos h

theorem skipBlanks_cons {c : Char} (h : isBlank c = false) (cs : List Char) :
    skipBlanks (c :: cs) = c :: cs :=
  List.dropWhile_cons_of_neg (by rw [h]; decide)

theorem Blank.ends_append (h : Blank blanks) (hcs : Ends cs) : Ends (blanks ++ cs) := by
  cases blanks with
  | nil => exact hcs
  | cons c blanks =>
    have hc := h c List.mem_cons_self
    simp only [isBlank, Bool.or_eq_true, beq_iff_eq] at hc
    refine ends_cons ?_ _
    rcases hc with ((rfl | rfl) | rfl) | rfl <;> decide

theorem parseValue_append (h : Blank blanks) (fuel : ℕ) (cs : List Char) :
    parseValue fuel (blanks ++ cs) = parseValue fuel cs := by
  cases fuel with
  | zero => rfl
  | succ fuel => rw [parseValue, parseValue, skipBlanks_append h]

theorem parseItems_append (h : Blank blanks) (fuel : ℕ) (cs : List Char) :
    parseItems fuel (blanks ++ cs) = parseItems fuel cs := by
  cases fuel with
  | zero => rfl
  | succ fuel => rw [parseItems, parseItems, parseValue_append h]

theorem parseMembers_append (h : Blank blanks) (fuel : ℕ) (cs : List Char) :
    parseMembers fuel (blanks ++ cs) = parseMembers fuel cs := by
  cases fuel with
  | zero => rfl
  | succ fuel => rw [parseMembers, parseMembers, skipBlanks_append h]

theorem isBlank_of_isDigit {c : Char} (h : isDigit c = true) : isBlank c = false := by
  rw [← Bool.not_eq_true]
  intro hblank
  simp only [isBlank, Bool.or_eq_true, beq_iff_eq] at hblank
  rcases hblank with ((rfl | rfl) | rfl) | rfl <;> cases h

end Blanks

section Values

/-- The text of a value begins with a character that is neither blank nor closes a list. -/
theorem Plain.exists_renderChars (h : j.Plain) (layout : Layout) (depth : ℕ) :
    ∃ c cs, renderChars layout depth j = c :: cs ∧ isBlank c = false ∧ c ≠ ']' := by
  cases h with
  | null => exact ⟨_, _, rfl, by decide, by decide⟩
  | bool value =>
    cases value with
    | false => exact ⟨_, _, rfl, by decide, by decide⟩
    | true => exact ⟨_, _, rfl, by decide, by decide⟩
  | nat value =>
    obtain ⟨c, digits, hdigits, hc⟩ := exists_toDigits_eq_cons value
    refine ⟨c, digits, hdigits, isBlank_of_isDigit hc, ?_⟩
    rintro rfl
    cases hc
  | string s => exact ⟨_, _, rfl, by decide, by decide⟩
  | @array items _ =>
    cases items with
    | nil => exact ⟨_, _, rfl, by decide, by decide⟩
    | cons item items => exact ⟨_, _, rfl, by decide, by decide⟩
  | @record members _ =>
    cases members with
    | nil => exact ⟨_, _, rfl, by decide, by decide⟩
    | cons m members => exact ⟨_, _, rfl, by decide, by decide⟩

/-- The text of the value is read as the value, if what ends it cannot belong to a number. -/
def Readable (layout : Layout) (j : Json) : Prop :=
  ∀ depth fuel rest, Ends rest → 2 * (renderChars layout depth j).length ≤ fuel →
    parseValue fuel (renderChars layout depth j ++ rest) = some (j, rest)

/-- A text is not empty, so that there is fuel for one step. -/
theorem Plain.readable_of_step (h : j.Plain)
    (hstep : ∀ depth fuel rest, Ends rest → 2 * (renderChars layout depth j).length ≤ fuel + 1 →
      parseValue (fuel + 1) (renderChars layout depth j ++ rest) = some (j, rest)) :
    Readable layout j := by
  intro depth fuel rest hrest hfuel
  cases fuel with
  | zero =>
    obtain ⟨c, cs, htext, -⟩ := h.exists_renderChars layout depth
    rw [htext] at hfuel
    cases hfuel
  | succ fuel => exact hstep depth fuel rest hrest hfuel

theorem parseValue_digits (n fuel : ℕ) (hrest : Ends rest) :
    parseValue (fuel + 1) (Nat.toDigits 10 n ++ rest) = some (.nat n, rest) := by
  obtain ⟨c, digits, hdigits, hc⟩ := exists_toDigits_eq_cons n
  have hnumber := parseNumber_toDigits n hrest
  rw [hdigits, List.cons_append] at hnumber ⊢
  rw [parseValue, skipBlanks_cons (isBlank_of_isDigit hc)]
  split
  case h_7 => exact hnumber
  -- A digit begins no other kind of value.
  all_goals
    rename_i heq
    obtain ⟨rfl, -⟩ := List.cons_eq_cons.1 heq
    cases hc

theorem parseValue_string (s : String) (fuel : ℕ) (rest : List Char) :
    parseValue (fuel + 1) (renderText (some s) ++ rest) = some (.string s, rest) := by
  rw [renderText, List.cons_append, List.cons_append, List.append_assoc, List.singleton_append,
    parseValue, skipBlanks_cons (by decide)]
  simp only [parseText_escaped, Option.bind_eq_bind, Option.bind_some]
  rfl

theorem parseItems_rendered {item : Json} {items : List Json} {depth fuel : ℕ}
    (hall : ∀ i ∈ item :: items, Readable layout i) (hblanks : Blank blanks)
    (hfuel : 2 * (renderChars layout depth item ++ renderItems layout depth items).length < fuel)
    (rest : List Char) :
    parseItems fuel (renderChars layout depth item ++
        (renderItems layout depth items ++ (blanks ++ ']' :: rest))) =
      some (item :: items, rest) := by
  induction items generalizing item fuel with
  | nil =>
    cases fuel with
    | zero => cases hfuel
    | succ fuel =>
      rw [List.length_append] at hfuel
      have hends : Ends (blanks ++ ']' :: rest) := hblanks.ends_append (ends_cons (by decide) rest)
      rw [renderItems, List.nil_append, parseItems,
        hall item List.mem_cons_self depth fuel _ hends (by omega)]
      simp only [Option.bind_eq_bind, Option.bind_some, skipBlanks_append hblanks,
        skipBlanks_cons (by decide : isBlank ']' = false)]
      rfl
  | cons next items ih =>
    cases fuel with
    | zero => cases hfuel
    | succ fuel =>
      have hrest := @ih next fuel fun i hi => hall i (List.mem_cons_of_mem item hi)
      simp only [renderItems, List.length_append, List.length_cons] at hfuel hrest
      rw [renderItems, parseItems]
      simp only [List.cons_append, List.append_assoc]
      rw [hall item List.mem_cons_self depth fuel _ (ends_cons (by decide) _) (by omega)]
      simp only [Option.bind_eq_bind, Option.bind_some,
        skipBlanks_cons (by decide : isBlank ',' = false),
        parseItems_append (blank_lineBreak layout depth), hrest (by omega)]
      rfl

theorem parseValue_items {items : List Json} {c : Char} {fuel : ℕ} (hblanks : Blank blanks)
    (hc : isBlank c = false) (hclose : c ≠ ']')
    (hitems : parseItems fuel (c :: cs) = some (items, rest)) :
    parseValue (fuel + 1) ('[' :: (blanks ++ c :: cs)) = some (.array items, rest) := by
  rw [parseValue, skipBlanks_cons (by decide)]
  simp only [skipBlanks_append hblanks, skipBlanks_cons hc]
  split
  · next heq => exact absurd (List.cons_eq_cons.1 heq).1 hclose
  · rw [hitems]
    rfl

theorem readable_array {items : List Json} (hplain : ∀ item ∈ items, item.Plain)
    (h : ∀ item ∈ items, Readable layout item) : Readable layout (.array items) := by
  refine (Plain.array hplain).readable_of_step fun depth fuel rest _ hfuel => ?_
  cases items with
  | nil => rfl
  | cons item items =>
    obtain ⟨c, cs, htext, hc, hclose⟩ :=
      (hplain item List.mem_cons_self).exists_renderChars layout (depth + 1)
    rw [renderChars] at hfuel ⊢
    simp only [List.cons_append, List.append_assoc, List.nil_append, List.length_cons,
      List.length_append] at hfuel ⊢
    have hlong : 2 * (renderChars layout (depth + 1) item ++
        renderItems layout (depth + 1) items).length < fuel := by
      rw [List.length_append]
      omega
    have hitems := parseItems_rendered h (blank_lineBreak layout depth) hlong rest
    rw [htext, List.cons_append] at hitems ⊢
    exact parseValue_items (blank_lineBreak layout (depth + 1)) hc hclose hitems

theorem exists_colon (layout : Layout) :
    ∃ blanks, layout.colon = ':' :: blanks ∧ Blank blanks := by
  cases layout with
  | compact => exact ⟨[], rfl, nofun⟩
  | pretty => exact ⟨[' '], rfl, List.forall_mem_singleton.2 rfl⟩

section Member
variable {value : Json} {after : List Char} {fuel : ℕ} (name : String)
  (hvalue : parseValue fuel cs = some (value, after))
include hvalue

theorem parseMembers_last (hclose : skipBlanks after = '\x7d' :: rest) :
    parseMembers (fuel + 1) (renderText (some name) ++ (layout.colon ++ cs)) =
      some ([(some name, value)], rest) := by
  obtain ⟨blanks, hcolon, hblanks⟩ := exists_colon layout
  rw [hcolon, renderText, parseMembers]
  simp only [List.cons_append, List.append_assoc, List.nil_append,
    skipBlanks_cons (by decide : isBlank '"' = false), parseText_escaped, Option.bind_eq_bind,
    Option.bind_some, skipBlanks_cons (by decide : isBlank ':' = false),
    parseValue_append hblanks, hvalue, hclose, Option.pure_def]

theorem parseMembers_next {next : List Char} {members : List (JsonText × Json)}
    (hcomma : skipBlanks after = ',' :: next)
    (hmembers : parseMembers fuel next = some (members, rest)) :
    parseMembers (fuel + 1) (renderText (some name) ++ (layout.colon ++ cs)) =
      some ((some name, value) :: members, rest) := by
  obtain ⟨blanks, hcolon, hblanks⟩ := exists_colon layout
  rw [hcolon, renderText, parseMembers]
  simp only [List.cons_append, List.append_assoc, List.nil_append,
    skipBlanks_cons (by decide : isBlank '"' = false), parseText_escaped, Option.bind_eq_bind,
    Option.bind_some, skipBlanks_cons (by decide : isBlank ':' = false),
    parseValue_append hblanks, hvalue, hcomma, hmembers, Option.pure_def]

end Member

/-- Members as they stand in a record. -/
def named (members : List (String × Json)) : List (JsonText × Json) :=
  members.map fun (name, value) => (some name, value)

theorem parseMembers_rendered {m : String × Json} {members : List (String × Json)}
    {depth fuel : ℕ} (hall : ∀ n ∈ m :: members, Readable layout n.2) (hblanks : Blank blanks)
    (hfuel : 2 * (renderChars layout depth m.2 ++
      renderMembers layout depth (named members)).length < fuel) (rest : List Char) :
    parseMembers fuel (renderText (some m.1) ++ (layout.colon ++ (renderChars layout depth m.2 ++
        (renderMembers layout depth (named members) ++ (blanks ++ '\x7d' :: rest))))) =
      some (named (m :: members), rest) := by
  induction members generalizing m fuel with
  | nil =>
    cases fuel with
    | zero => cases hfuel
    | succ fuel =>
      rw [List.length_append] at hfuel
      have hends : Ends (blanks ++ '\x7d' :: rest) :=
        hblanks.ends_append (ends_cons (by decide) rest)
      have hvalue := hall m List.mem_cons_self depth fuel _ hends (by omega)
      have hclose : skipBlanks (blanks ++ '\x7d' :: rest) = '\x7d' :: rest := by
        rw [skipBlanks_append hblanks, skipBlanks_cons (by decide)]
      exact parseMembers_last m.1 hvalue hclose
  | cons next members ih =>
    cases fuel with
    | zero => cases hfuel
    | succ fuel =>
      have hrest := @ih next fuel fun n hn => hall n (List.mem_cons_of_mem m hn)
      have htext : renderMembers layout depth (named (next :: members)) =
          ',' :: (layout.lineBreak depth ++ (renderText (some next.1) ++ (layout.colon ++
            (renderChars layout depth next.2 ++ renderMembers layout depth (named members))))) := by
        rw [named, List.map_cons, renderMembers]
        simp only [List.append_assoc, List.cons_append]
        rfl
      rw [htext, List.length_append, List.length_cons] at hfuel
      simp only [List.length_append] at hfuel hrest
      have hvalue := hall m List.mem_cons_self depth fuel
        (',' :: (layout.lineBreak depth ++ (renderText (some next.1) ++ (layout.colon ++
          (renderChars layout depth next.2 ++ (renderMembers layout depth (named members) ++
            (blanks ++ '\x7d' :: rest))))))) (ends_cons (by decide) _) (by omega)
      rw [htext]
      simp only [List.cons_append, List.append_assoc]
      refine parseMembers_next m.1 hvalue (skipBlanks_cons (by decide) _) ?_
      rw [parseMembers_append (blank_lineBreak layout depth)]
      exact hrest (by omega)

theorem parseValue_members {members : List (JsonText × Json)} {fuel : ℕ} (hblanks : Blank blanks)
    (hmembers : parseMembers fuel ('"' :: cs) = some (members, rest)) :
    parseValue (fuel + 1) ('\x7b' :: (blanks ++ '"' :: cs)) = some (.object members, rest) := by
  rw [parseValue, skipBlanks_cons (by decide)]
  simp only [skipBlanks_append hblanks, skipBlanks_cons (by decide : isBlank '"' = false)]
  split
  · next heq => exact absurd (List.cons_eq_cons.1 heq).1 (by decide)
  · rw [hmembers]
    rfl

theorem readable_record {members : List (String × Json)} (hplain : ∀ m ∈ members, m.2.Plain)
    (h : ∀ m ∈ members, Readable layout m.2) : Readable layout (.record members) := by
  refine (Plain.record hplain).readable_of_step fun depth fuel rest _ hfuel => ?_
  cases members with
  | nil => rfl
  | cons m members =>
    have htext : renderChars layout depth (.record (m :: members)) =
        '\x7b' :: (layout.lineBreak (depth + 1) ++ (renderText (some m.1) ++ (layout.colon ++
          (renderChars layout (depth + 1) m.2 ++
            (renderMembers layout (depth + 1) (named members) ++
              (layout.lineBreak depth ++ ['\x7d'])))))) := by
      rw [Json.record, List.map_cons, renderChars]
      simp only [List.append_assoc, List.cons_append]
      rfl
    rw [htext] at hfuel ⊢
    simp only [List.cons_append, List.append_assoc, List.nil_append, List.length_cons,
      List.length_append] at hfuel ⊢
    have hlong : 2 * (renderChars layout (depth + 1) m.2 ++
        renderMembers layout (depth + 1) (named members)).length < fuel := by
      rw [List.length_append]
      omega
    have hmembers := parseMembers_rendered h (blank_lineBreak layout depth) hlong rest
    rw [renderText, List.cons_append, List.cons_append] at hmembers ⊢
    exact parseValue_members (blank_lineBreak layout (depth + 1)) hmembers

/-- By induction on the value, whose items and members are read back where they stand. -/
theorem Plain.readable (h : j.Plain) : Readable layout j := by
  induction h with
  | null => exact Plain.null.readable_of_step fun _ _ _ _ _ => rfl
  | bool value =>
    refine (Plain.bool value).readable_of_step fun _ _ _ _ _ => ?_
    cases value with
    | false => rfl
    | true => rfl
  | nat value =>
    refine (Plain.nat value).readable_of_step fun depth fuel rest hrest _ => ?_
    rw [renderChars]
    exact parseValue_digits value fuel hrest
  | string s =>
    refine (Plain.string s).readable_of_step fun depth fuel rest _ _ => ?_
    rw [Json.string, renderChars]
    exact parseValue_string s fuel rest
  | array hplain ih => exact readable_array hplain ih
  | record hplain ih => exact readable_record hplain ih

/-- A value is read back from its text. -/
theorem Plain.parse_render (h : j.Plain) : parse (j.render layout) = some j := by
  have hreadable : Readable layout j := h.readable
  have hread := hreadable 0 (2 * (renderChars layout 0 j).length + 2) [] ends_nil
    (Nat.le_add_right _ _)
  rw [List.append_nil] at hread
  rw [parse, render, String.toList_ofList, parseChars, hread]
  rfl

end Values
end VerifiedLedger.Json
