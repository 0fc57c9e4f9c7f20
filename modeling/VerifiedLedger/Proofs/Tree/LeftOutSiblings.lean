import Mathlib.Data.List.Basic
import VerifiedLedger.Tree.Siblings
/-! # Siblings left out

Placeholders are left out of a list of siblings, and one bit for each sibling says whether it is
given. Putting the placeholders back undoes that, and is undone by it if as many siblings are given
as the bits announce and none of them is a placeholder.
-/
namespace VerifiedLedger
variable {α : Type} [DecidableEq α] {placeholder : α} {bits : List Bool}
  {siblings given : List α}

/-- Which siblings are given: all but the placeholders. -/
def givenFlags (placeholder : α) (siblings : List α) : List Bool :=
  siblings.map fun sibling => decide (sibling ≠ placeholder)

def givenSiblings (placeholder : α) (siblings : List α) : List α :=
  siblings.filter fun sibling => decide (sibling ≠ placeholder)

section Cons
variable {sibling : α}

theorem givenFlags_cons_placeholder :
    givenFlags placeholder (placeholder :: siblings) = false :: givenFlags placeholder siblings := by
  rw [givenFlags, List.map_cons, decide_eq_false (not_not_intro rfl)]
  rfl

theorem givenFlags_cons_of_ne (h : sibling ≠ placeholder) :
    givenFlags placeholder (sibling :: siblings) = true :: givenFlags placeholder siblings := by
  rw [givenFlags, List.map_cons, decide_eq_true h]
  rfl

theorem givenSiblings_cons_placeholder :
    givenSiblings placeholder (placeholder :: siblings) = givenSiblings placeholder siblings :=
  List.filter_cons_of_neg (by rw [decide_eq_true_eq]; exact not_not_intro rfl)

theorem givenSiblings_cons_of_ne (h : sibling ≠ placeholder) :
    givenSiblings placeholder (sibling :: siblings) =
      sibling :: givenSiblings placeholder siblings :=
  List.filter_cons_of_pos (decide_eq_true h)

end Cons

theorem length_givenFlags : (givenFlags placeholder siblings).length = siblings.length :=
  List.length_map _

theorem head?_givenFlags_ne_iff :
    (givenFlags placeholder siblings).head? ≠ some false ↔ siblings.head? ≠ some placeholder := by
  rw [givenFlags, List.head?_map]
  cases siblings.head? <;> simp

theorem getLast?_givenFlags_ne_iff :
    (givenFlags placeholder siblings).getLast? ≠ some false ↔
      siblings.getLast? ≠ some placeholder := by
  rw [givenFlags, List.getLast?_map]
  cases siblings.getLast? <;> simp

theorem count_givenFlags :
    (givenFlags placeholder siblings).count true = (givenSiblings placeholder siblings).length := by
  induction siblings with
  | nil => rfl
  | cons sibling siblings ih =>
    by_cases h : sibling = placeholder
    · rw [h, givenFlags_cons_placeholder, givenSiblings_cons_placeholder, ← ih]
      rfl
    · rw [givenFlags_cons_of_ne h, givenSiblings_cons_of_ne h, List.count_cons_self, ih,
        List.length_cons]

theorem expandSiblings_givenFlags :
    expandSiblings placeholder (givenFlags placeholder siblings)
      (givenSiblings placeholder siblings) = siblings := by
  induction siblings with
  | nil => rfl
  | cons sibling siblings ih =>
    by_cases h : sibling = placeholder
    · rw [h, givenFlags_cons_placeholder, givenSiblings_cons_placeholder, expandSiblings, ih]
    · rw [givenFlags_cons_of_ne h, givenSiblings_cons_of_ne h, expandSiblings, ih]

section Expand
variable (hcount : given.length = bits.count true)
include hcount

omit [DecidableEq α] in
theorem length_expandSiblings : (expandSiblings placeholder bits given).length = bits.length := by
  fun_induction expandSiblings placeholder bits given with
  | case1 => rfl
  | case2 bits given ih => exact congrArg Nat.succ (ih hcount)
  | case3 bits sibling given ih =>
    rw [List.count_cons_self, List.length_cons, Nat.add_right_cancel_iff] at hcount
    exact congrArg Nat.succ (ih hcount)
  | case4 bits =>
    rw [List.count_cons_self] at hcount
    cases hcount

/-- What is given, and where, is told from the siblings. -/
theorem given_expandSiblings (hgiven : placeholder ∉ given) :
    givenFlags placeholder (expandSiblings placeholder bits given) = bits ∧
      givenSiblings placeholder (expandSiblings placeholder bits given) = given := by
  fun_induction expandSiblings placeholder bits given with
  | case1 given => exact ⟨rfl, (List.eq_nil_of_length_eq_zero hcount).symm⟩
  | case2 bits given ih =>
    obtain ⟨hflags, hsiblings⟩ := ih hcount hgiven
    rw [givenFlags_cons_placeholder, givenSiblings_cons_placeholder, hflags, hsiblings]
    exact ⟨rfl, rfl⟩
  | case3 bits sibling given ih =>
    rw [List.count_cons_self, List.length_cons, Nat.add_right_cancel_iff] at hcount
    rw [List.mem_cons, not_or] at hgiven
    obtain ⟨hflags, hsiblings⟩ := ih hcount hgiven.2
    rw [givenFlags_cons_of_ne (Ne.symm hgiven.1), givenSiblings_cons_of_ne (Ne.symm hgiven.1),
      hflags, hsiblings]
    exact ⟨rfl, rfl⟩
  | case4 bits =>
    rw [List.count_cons_self] at hcount
    cases hcount

end Expand
end VerifiedLedger
