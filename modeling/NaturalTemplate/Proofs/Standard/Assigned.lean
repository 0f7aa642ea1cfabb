import NaturalTemplate.Proofs.Expression.Separators
import NaturalTemplate.Proofs.Standard.Declared

/-!
# How assignments are read

A list of assignments is cut at its commas, and each of them at its first equals sign, which is the
one after the name. So the list is read as the assignments that it is made of exactly if the
expressions can be told apart: no comma is seen in one of them, and each but the last closes what it
opens.
-/
namespace NaturalTemplate
open Grammar Nesting

/-! ## Commas -/

namespace Text

theorem count_trimStart {c : Char} (hc : isBlank c = false) (cs : List Char) :
    (trimStart cs).count c = cs.count c := by
  have hdropped : (cs.takeWhile isBlank).count c = 0 := by
    refine List.count_eq_zero.mpr fun hmem => ?_
    exact Bool.false_ne_true (hc.symm.trans (List.all_eq_true.mp List.all_takeWhile c hmem))
  conv_rhs => rw [← List.takeWhile_append_dropWhile (p := isBlank) (l := cs)]
  rw [List.count_append, hdropped, Nat.zero_add, trimStart]

/-- What is not white space stays. -/
theorem count_trim {c : Char} (hc : isBlank c = false) (cs : List Char) :
    (trim cs).count c = cs.count c := by
  have hstart := count_trimStart hc (trimStart cs).reverse
  rw [trim, trimEnd, List.count_reverse]
  rwa [trimStart, List.count_reverse, count_trimStart hc] at hstart

end Text

namespace Standard

/-- An assignment has as many commas as its name and its expression. -/
theorem count_of_assignment {part : List Char} {name text : String}
    (h : assignment part = .ok (name, text)) :
    part.count ',' = name.toList.count ',' + text.toList.count ',' := by
  unfold assignment at h
  split at h
  · next name expression hcut =>
    cases h
    rw [splitOnce?_eq_some hcut, String.toList_ofList, String.toList_ofList,
      Text.count_trim (by decide), Text.count_trim (by decide)]
    simp
  · cases h

/-! ## Assignments as they are written -/

/-- `name=expression`, with white space around both. -/
structure Assignment where
  name : Segment
  before : Layout
  expression : Phrase .expression
  after : Layout

namespace Assignment

def chars (a : Assignment) : List Char :=
  a.name.chars ++ '=' :: (a.before.chars ++ (a.expression.chars ++ a.after.chars))

/-- The name and the text of the expression. -/
def assigned (a : Assignment) : String × String :=
  (a.name.name.name, String.ofList a.expression.chars)

/-- A list of assignments, with commas between them. -/
def list (as : List Assignment) : List Char := [','].intercalate (as.map chars)

/-- Whether the assignments of a list can be told apart: no comma is seen at the top level of an
expression, and each expression that another assignment follows closes what it opens. -/
def Apart (as : List Assignment) : Prop :=
  Nesting.Apart ',' (as.map fun a => a.expression.chars)

theorem assignment_chars (a : Assignment) : assignment a.chars = .ok a.assigned := by
  have hcut : splitOnce? '=' {} (a.name.chars ++ '=' :: _) = _ :=
    splitOnce?_of_plain (fun c hc => (a.name.plain c hc).1)
      (a.name.ne_of_mem (by decide +kernel) (by decide))
      (a.before.chars ++ (a.expression.chars ++ a.after.chars))
  rw [assignment, chars, hcut]
  simp only [a.name.trim_chars, Text.trim_append_of_blank a.before.blank,
    a.expression.solid.trim_append a.after.blank, String.ofList_toList, assigned]

/-- What stands before the expression of an assignment. -/
theorem separable_front (a : Assignment) :
    Separable ',' (a.name.chars ++ '=' :: a.before.chars) := by
  have hname : Separable ',' a.name.chars :=
    .of_plain (fun c hc => (a.name.plain c hc).1)
      (a.name.ne_of_mem (by decide +kernel) (by decide))
  have hequals : Separable ',' ['='] := ⟨rfl, rfl⟩
  exact hname.append (hequals.append (separable_blank a.before.blank))

theorem chars_eq (a : Assignment) :
    a.chars = (a.name.chars ++ '=' :: a.before.chars) ++ (a.expression.chars ++ a.after.chars) := by
  simp [chars]

theorem whole_chars (a : Assignment) :
    whole ',' {} a.chars = whole ',' {} a.expression.chars := by
  have hafter : whole ',' (Nesting.after {} a.expression.chars) a.after.chars = true :=
    whole_of_ne fun c hc => by
      rintro rfl
      exact absurd (a.after.blank ',' hc) (by decide)
  rw [chars_eq, whole_append, a.separable_front.whole, a.separable_front.closes, whole_append,
    hafter, Bool.true_and, Bool.and_true]

theorem closes_chars_iff (a : Assignment) :
    Nesting.after {} a.chars = {} ↔ Nesting.after {} a.expression.chars = {} := by
  rw [← atTop_after_iff, ← atTop_after_iff, chars_eq, after_append, a.separable_front.closes,
    after_append, atTop_after_of_plain fun c hc => (plain_of_isBlank (a.after.blank c hc)).2.1]

theorem apart_chars_iff (as : List Assignment) :
    Nesting.Apart ',' (as.map chars) ↔ Apart as := by
  simp only [Apart, Nesting.Apart, ← List.map_dropLast, List.forall_mem_map, whole_chars,
    closes_chars_iff]

/-! ## Lists of assignments -/

theorem mapM_assignment_iff {parts : List (List Char)} {assigned : List (String × String)} :
    parts.mapM assignment = .ok assigned ↔
      List.Forall₂ (fun part x => assignment part = .ok x) parts assigned := by
  induction parts generalizing assigned with
  | nil =>
    rw [List.mapM_nil, List.forall₂_nil_left_iff]
    exact ⟨fun h => (Except.ok.inj h).symm, fun h => congrArg _ h.symm⟩
  | cons part parts ih =>
    rw [List.mapM_cons, List.forall₂_cons_left_iff]
    cases assignment part with
    | error cause => exact iff_of_false nofun nofun
    | ok x =>
      cases hparts : parts.mapM assignment with
      | error cause =>
        refine iff_of_false nofun fun ⟨_, _, _, h, _⟩ => ?_
        cases hparts.symm.trans (ih.mpr h)
      | ok rest =>
        constructor
        · rintro ⟨⟩
          exact ⟨x, rest, rfl, ih.mp hparts, rfl⟩
        · rintro ⟨_, others, ⟨⟩, hothers, rfl⟩
          cases hparts.symm.trans (ih.mpr hothers)
          rfl

/-- A list of assignments is read as those that it is made of exactly if they can be told apart. -/
theorem assignments_list_iff {as : List Assignment} (hne : as ≠ []) :
    assignments (String.ofList (list as)) = .ok (as.map assigned) ↔ Apart as := by
  have hne' : as.map chars ≠ [] := by simpa using hne
  rw [← apart_chars_iff, ← splitAll_intercalate_iff (by decide) hne', assignments,
    String.toList_ofList, mapM_assignment_iff, List.forall₂_map_right_iff, ← list]
  constructor
  · intro h
    refine eq_of_intercalate_eq ?_ (intercalate_splitAll ',' {} (list as))
    refine List.forall₂_map_right_iff.mpr (h.imp fun part a hpart => ?_)
    rw [count_of_assignment hpart, count_of_assignment a.assignment_chars]
  · intro h
    rw [h, List.forall₂_map_left_iff]
    exact List.forall₂_same.mpr fun a _ => a.assignment_chars

/-- Expressions in which each substitution in brackets closes what it opens can be told apart. -/
theorem apart_of_sheltered {as : List Assignment}
    (h : ∀ a ∈ as, a.expression.Sheltered false) : Apart as := by
  refine ⟨List.forall_mem_map.mpr fun a ha => (Phrase.separable (h a ha)).whole, ?_⟩
  rw [← List.map_dropLast]
  exact List.forall_mem_map.mpr fun a ha =>
    (Phrase.separable (h a (List.mem_of_mem_dropLast ha))).closes

end Assignment
end Standard
end NaturalTemplate
