import NaturalTemplate.Proofs.Decimal.Characters
import NaturalTemplate.Proofs.Expression.Grammar

/-!
# Texts that can stand as operands

An atom has no white space at its ends and closes what it opens, and no operator can stand at its
top level. The same holds of whatever is in brackets. So an expression is not cut there, whatever
stands around it.
-/
namespace NaturalTemplate
open Nesting Grammar

/-! ## White space at the ends -/

namespace Text

/-- A text with no white space at its ends. -/
def Solid (cs : List Char) : Prop :=
  (∃ c, cs.head? = some c ∧ isBlank c = false) ∧ ∃ c, cs.getLast? = some c ∧ isBlank c = false

variable {cs ds : List Char}

theorem Solid.trimStart_eq (h : Solid cs) : trimStart cs = cs := by
  obtain ⟨⟨c, hhead, hc⟩, -⟩ := h
  obtain ⟨rest, rfl⟩ := List.head?_eq_some_iff.mp hhead
  simp [trimStart, hc]

theorem Solid.trimEnd_eq (h : Solid cs) : trimEnd cs = cs := by
  obtain ⟨-, c, hlast, hc⟩ := h
  obtain ⟨front, rfl⟩ := List.getLast?_eq_some_iff.mp hlast
  simp [trimEnd, hc]

theorem Solid.trim_eq (h : Solid cs) : trim cs = cs := by
  rw [trim, h.trimStart_eq, h.trimEnd_eq]

theorem Solid.ne_nil (h : Solid cs) : cs ≠ [] := by
  rintro rfl
  obtain ⟨⟨c, hhead, -⟩, -⟩ := h
  simp at hhead

/-- What is between two solid texts does not matter. -/
theorem Solid.append_append (hcs : Solid cs) (hds : Solid ds) (middle : List Char) :
    Solid (cs ++ (middle ++ ds)) := by
  obtain ⟨⟨c, hhead, hc⟩, -⟩ := hcs
  obtain ⟨-, d, hlast, hd⟩ := hds
  obtain ⟨rest, rfl⟩ := List.head?_eq_some_iff.mp hhead
  obtain ⟨front, rfl⟩ := List.getLast?_eq_some_iff.mp hlast
  refine ⟨⟨c, rfl, hc⟩, d, ?_, hd⟩
  rw [← List.append_assoc, ← List.append_assoc, List.getLast?_append]
  rfl

theorem solid_of_ends {c d : Char} (cs : List Char) (hc : isBlank c = false)
    (hd : isBlank d = false) : Solid (c :: (cs ++ [d])) := by
  refine ⟨⟨c, rfl, hc⟩, d, ?_, hd⟩
  rw [← List.cons_append, List.getLast?_append]
  rfl

end Text

theorem Identifier.exists_chars (i : Identifier) :
    ∃ c cs, i.name.toList = c :: cs ∧ ∀ d ∈ c :: cs, Text.isNameChar d = true := by
  have hvalid := i.valid
  unfold isIdentifier at hvalid
  split at hvalid
  · contradiction
  · next c cs hname =>
    simp only [Bool.and_eq_true, Bool.or_eq_true, beq_iff_eq, List.all_eq_true] at hvalid
    refine ⟨c, cs, hname, fun d hd => ?_⟩
    simp only [Text.isNameChar, Text.isAlphanumeric, Bool.or_eq_true, beq_iff_eq]
    obtain rfl | hd := List.mem_cons.mp hd
    · obtain halpha | hline := hvalid.1
      · exact .inl (.inl halpha)
      · exact .inr hline
    · simpa [Text.isAlphanumeric] using hvalid.2 d hd

theorem plain_of_isNameChar {c : Char} (h : Text.isNameChar c = true) :
    c ∉ Balanced.openers ∧ c ≠ '.' := by
  have hspecial : ∀ d ∈ '.' :: Balanced.openers, Text.isNameChar d = false :=
    Text.forall_of_all (by decide +kernel)
  constructor
  · intro hmem
    rw [hspecial c (List.mem_cons_of_mem _ hmem)] at h
    contradiction
  · rintro rfl
    rw [hspecial '.' List.mem_cons_self] at h
    exact Bool.false_ne_true h

namespace Identifier

theorem isNameChar (i : Identifier) : ∀ c ∈ i.name.toList, Text.isNameChar c = true := by
  obtain ⟨d, ds, hchars, hall⟩ := i.exists_chars
  exact hchars ▸ hall

theorem solid (i : Identifier) : Text.Solid i.name.toList := by
  obtain ⟨d, ds, hchars, hall⟩ := i.exists_chars
  have hblank := fun c hc => Text.isBlank_of_isNameChar (hall c hc)
  rw [hchars]
  exact ⟨⟨d, rfl, hblank d List.mem_cons_self⟩, _, List.getLast?_eq_some_getLast (by simp),
    hblank _ (List.getLast_mem _)⟩

end Identifier

/-! ## Operands -/

/-- All that expressions are cut at. -/
def allOperators : List (List Char) :=
  [['?'], [':'], ['o', 'r'], ['a', 'n', 'd'], ['+']] ++
    (Expr.equalityOperators.map Prod.fst ++ Expr.relationOperators.map Prod.fst)

/-- The characters that operators begin with. -/
def operatorHeads : List Char :=
  ['?', ':', 'o', 'a', '+', '=', '!', 'e', 'n', '>', '<', 'g', 'l']

theorem exists_operatorHead :
    ∀ o ∈ allOperators, ∃ d ∈ operatorHeads, ∃ rest, o = d :: rest := by
  simp [allOperators, operatorHeads, Expr.equalityOperators, Expr.relationOperators]

theorem mayStand_of_not_mem {c : Char} (hc : c ∉ operatorHeads) (p : Char) (cs : List Char) :
    ∀ o ∈ allOperators, mayStand p (c :: cs) o = false := by
  intro o ho
  obtain ⟨d, hd, rest, rfl⟩ := exists_operatorHead o ho
  have hne : d ≠ c := by
    rintro rfl
    exact hc hd
  simp [mayStand, hne, Ne.symm hne]

/-- No operator stands where none can begin. -/
theorem quiet_head {c : Char} {cs : List Char} {n : Nesting} (hc : c ∉ operatorHeads)
    (previous : Option Char) :
    quiet allOperators n previous (c :: cs) = quiet allOperators (n.step c) (some c) cs := by
  have hmay : (previous.all fun p => allOperators.all fun o => !mayStand p (c :: cs) o) = true := by
    simp only [Option.all_eq_true, List.all_eq_true, Bool.not_eq_true']
    exact fun p _ => mayStand_of_not_mem hc p cs
  rw [quiet, hmay, Bool.or_true, Bool.true_and]

/-- A text that can stand as an operand: no operator in it is seen. -/
structure Closed (cs : List Char) : Prop where
  solid : Text.Solid cs
  balanced : Balanced cs
  quiet : ∀ previous, quiet allOperators {} previous cs = true

theorem Closed.bracket {cs : List Char} (h : Balanced cs) : Closed ('(' :: (cs ++ [')'])) where
  solid := Text.solid_of_ends cs (by decide) (by decide)
  balanced := h.bracket (.inl rfl) (.inl rfl)
  quiet _ := quiet_bracket (.inl rfl) h fun p =>
    mayStand_of_not_mem (by decide) p _

theorem quiet_cons {c : Char} {cs : List Char} (hhead : c ∉ operatorHeads)
    (hplain : c ∉ Balanced.openers) (h : quiet allOperators {} (some c) cs = true)
    (previous : Option Char) : quiet allOperators {} previous (c :: cs) = true := by
  rw [quiet_head hhead, Balanced.step_of_not_mem hplain 0]
  exact h

/-! ## White space -/

/-- White space is no part of an operator, and opens nothing. -/
theorem plain_of_isBlank {c : Char} (h : Text.isBlank c = true) :
    c ∉ operatorHeads ∧ c ∉ Balanced.openers ∧ c ≠ '.' := by
  have hno : ∀ d ∈ operatorHeads ++ '.' :: Balanced.openers, Text.isBlank d = false :=
    Text.forall_of_all (by decide)
  refine ⟨fun hmem => ?_, fun hmem => ?_, ?_⟩
  · rw [hno c (List.mem_append_left _ hmem)] at h
    exact Bool.false_ne_true h
  · rw [hno c (List.mem_append_right _ (List.mem_cons_of_mem _ hmem))] at h
    exact Bool.false_ne_true h
  · rintro rfl
    rw [hno '.' (by decide)] at h
    exact Bool.false_ne_true h

/-! ## Atoms -/

namespace Grammar

theorem Segment.plain (s : Segment) : ∀ c ∈ s.chars, c ∉ Balanced.openers ∧ c ≠ '.' := by
  intro c hc
  rw [Segment.chars, List.mem_append, List.mem_append] at hc
  obtain hc | hc | hc := hc
  · exact (plain_of_isBlank (s.before.blank c hc)).2
  · exact plain_of_isNameChar (s.name.isNameChar c hc)
  · exact (plain_of_isBlank (s.after.blank c hc)).2

theorem Names.plain (p : Names) : ∀ c ∈ p.chars, c ∉ Balanced.openers := by
  intro c hc
  obtain hc | hc := List.mem_append.mp hc
  · exact (p.first.plain c hc).1
  · obtain ⟨s, -, hc⟩ := List.mem_flatMap.mp hc
    obtain rfl | hc := List.mem_cons.mp hc
    · decide
    · exact (s.plain c hc).1

theorem Names.balanced (p : Names) : Balanced p.chars := .of_plain p.plain

end Grammar

/-- A path in braces, after the mark that says where it starts from. -/
theorem closed_braced {mark : Char} (hhead : mark ∉ operatorHeads)
    (hplain : mark ∉ Balanced.openers) (hmark : Text.isBlank mark = false) {path : List Char}
    (hpath : Balanced path) : Closed (mark :: '{' :: (path ++ ['}'])) where
  solid := Text.solid_of_ends ('{' :: path) hmark (by decide)
  balanced := .cons (.of_plain (by simpa using hplain)) (hpath.bracket (.inr rfl) (.inr rfl))
  quiet := quiet_cons hhead hplain <| quiet_bracket (.inr rfl) hpath fun p =>
    mayStand_of_not_mem (by decide) p _

theorem after_quoted (cs : List Quoted) (depth : Int) :
    after { quoted := true, depth } (cs.flatMap Quoted.chars) = { quoted := true, depth } ∧
      StaysAt depth { quoted := true, depth } (cs.flatMap Quoted.chars) := by
  induction cs with
  | nil => exact ⟨rfl, trivial⟩
  | cons c cs ih =>
    have hc : after { quoted := true, depth } c.chars = { quoted := true, depth } ∧
        StaysAt depth { quoted := true, depth } c.chars := by
      cases c with
      | plain c h => simp [Quoted.chars, step, StaysAt, h]
      | escaped c => simp [Quoted.chars, step, StaysAt]
    rw [List.flatMap_cons, after_append, hc.1]
    refine ⟨ih.1, hc.2.append ?_⟩
    rw [hc.1]
    exact ih.2

theorem quiet_quoted {operators : List (List Char)} (cs : List Quoted) (previous : Option Char) :
    quiet operators { quoted := true } previous (cs.flatMap Quoted.chars ++ ['\'']) = true := by
  induction cs generalizing previous with
  | nil => simp [quiet, atTop]
  | cons c cs ih =>
    have hc : after { quoted := true } c.chars = { quoted := true } ∧
        quiet operators { quoted := true } previous c.chars = true := by
      cases c with
      | plain c h => simp [Quoted.chars, step, quiet, atTop, h]
      | escaped c => simp [Quoted.chars, step, quiet, atTop]
    rw [List.flatMap_cons, List.append_assoc]
    refine quiet_append hc.2 ?_
    rw [hc.1]
    exact ih _

theorem closed_string (cs : List Quoted) :
    Closed ('\'' :: (cs.flatMap Quoted.chars ++ ['\''])) where
  solid := Text.solid_of_ends _ (by decide) (by decide)
  balanced depth := by
    obtain ⟨hafter, hstays⟩ := after_quoted cs depth
    have hopen : step { depth } '\'' = { quoted := true, depth } := by simp [step]
    have hclose : step { quoted := true, depth } '\'' = { depth } := by simp [step]
    refine ⟨by simp [hopen, hafter, hclose], ?_⟩
    rw [StaysAt, hopen]
    refine ⟨Int.le_refl depth, hstays.append ?_⟩
    rw [hafter, StaysAt, hclose]
    exact ⟨Int.le_refl depth, trivial⟩
  quiet previous := by
    have hopen : step {} '\'' = { quoted := true } := by simp [step]
    rw [quiet_head (by decide), hopen, quiet_quoted]

namespace Grammar.Number

theorem isNumberChar (n : Number) : ∀ c ∈ n.chars, Decimal.isNumberChar c = true := by
  have hnumber := n.isNumber
  unfold number? at hnumber
  split at hnumber
  · next hread => exact Decimal.isNumberChar_of_int64? hread
  · obtain ⟨x, hread⟩ := Option.isSome_iff_exists.mp (by simpa using hnumber)
    exact Decimal.isNumberChar_of_float? hread

/-- No sign of an operator is written in a number. -/
theorem ne_sign (n : Number) : ∀ c ∈ n.chars, c ∉ ['?', ':', '+', '=', '!', '>', '<'] := by
  intro c hc hmem
  have hno : ∀ d ∈ ['?', ':', '=', '!', '>', '<'], Decimal.isNumberChar d = false :=
    Text.forall_of_all (by decide)
  by_cases hplus : c = '+'
  · exact n.unsigned (hplus ▸ hc)
  · have hmem' : c ∈ ['?', ':', '=', '!', '>', '<'] := by
      simp only [List.mem_cons, hplus, false_or] at hmem ⊢
      exact hmem
    have hnumber := n.isNumberChar c hc
    rw [hno c hmem'] at hnumber
    exact Bool.false_ne_true hnumber

end Grammar.Number

/-- The operators are words or begin with a sign. -/
theorem allOperators_cases : ∀ o ∈ allOperators, (o.head?.map Char.isAlpha).getD false = true ∨
    ∃ d ∈ ['?', ':', '+', '=', '!', '>', '<'], o.head? = some d := by
  simp [allOperators, Expr.equalityOperators, Expr.relationOperators]

/-- No operator is seen in characters that are no signs and no white space, except for a word that
could stand at the beginning. -/
theorem quiet_of_signless {cs : List Char} {p : Char} (hp : Text.isAsciiBlank p = false)
    (h : ∀ c ∈ cs, c ∉ ['?', ':', '+', '=', '!', '>', '<'] ∧ c ∉ Balanced.openers ∧
      Text.isAsciiBlank c = false) : quiet allOperators {} (some p) cs = true := by
  induction cs generalizing p with
  | nil => rfl
  | cons c cs ih =>
    obtain ⟨hsign, hplain, hblank⟩ := h c List.mem_cons_self
    have hmay : ∀ o ∈ allOperators, mayStand p (c :: cs) o = false := by
      intro o ho
      obtain halpha | ⟨d, hd, hhead⟩ := allOperators_cases o ho
      · simp [mayStand, halpha, hp]
      · obtain ⟨rest, rfl⟩ := List.head?_eq_some_iff.mp hhead
        have hne : d ≠ c := by
          rintro rfl
          exact hsign hd
        simp [mayStand, hne, Ne.symm hne]
    rw [quiet, Balanced.step_of_not_mem hplain 0, Bool.and_eq_true]
    refine ⟨?_, ih hblank fun d hd => h d (List.mem_cons_of_mem c hd)⟩
    simp only [Option.all_some, Bool.or_eq_true, List.all_eq_true, Bool.not_eq_true']
    exact .inr hmay

theorem isAsciiBlank_of_isBlank {c : Char} (h : Text.isBlank c = false) :
    Text.isAsciiBlank c = false := by
  by_contra hblank
  rw [Bool.not_eq_false, Text.isAsciiBlank] at hblank
  simp only [Bool.or_eq_true, beq_iff_eq] at hblank
  obtain (((rfl | rfl) | rfl) | rfl) | rfl := hblank <;> contradiction

theorem Grammar.Number.closed (n : Number) : Closed n.chars := by
  obtain ⟨c, hhead, hc⟩ := n.starts
  obtain ⟨rest, hchars⟩ := List.head?_eq_some_iff.mp hhead
  have hblank : ∀ c ∈ n.chars, Text.isBlank c = false := fun c hc =>
    Decimal.isBlank_of_isNumberChar (n.isNumberChar c hc)
  have hplain : ∀ c ∈ n.chars, c ∉ Balanced.openers := by
    intro c hc hmem
    have hno : ∀ d ∈ Balanced.openers, Decimal.isNumberChar d = false :=
      Text.forall_of_all (by decide)
    have hnumber := n.isNumberChar c hc
    rw [hno c hmem] at hnumber
    exact Bool.false_ne_true hnumber
  have hhead : c ∉ operatorHeads := by
    obtain hc | rfl := hc
    · intro hmem
      have hno : ∀ d ∈ operatorHeads, d.isDigit = false := Text.forall_of_all (by decide)
      rw [hno c hmem] at hc
      contradiction
    · decide
  have hall : ∀ d ∈ n.chars, d ∉ ['?', ':', '+', '=', '!', '>', '<'] ∧ d ∉ Balanced.openers ∧
      Text.isAsciiBlank d = false := fun d hd =>
    ⟨n.ne_sign d hd, hplain d hd, isAsciiBlank_of_isBlank (hblank d hd)⟩
  rw [hchars] at hblank hplain hall ⊢
  refine ⟨⟨⟨c, rfl, hblank c List.mem_cons_self⟩, _, List.getLast?_eq_some_getLast (by simp),
    hblank _ (List.getLast_mem _)⟩, .of_plain hplain, ?_⟩
  exact quiet_cons hhead (hplain c List.mem_cons_self) <|
    quiet_of_signless (hall c List.mem_cons_self).2.2 fun d hd => hall d (List.mem_cons_of_mem c hd)

theorem closed_bool (b : Bool) : Closed (toString b).toList := by
  cases b with
  | false =>
    exact ⟨⟨⟨'f', rfl, by decide⟩, 'e', rfl, by decide⟩, .of_plain (Text.forall_of_all (by decide)),
      fun previous => by cases previous <;> rfl⟩
  | true =>
    exact ⟨⟨⟨'t', rfl, by decide⟩, 'e', rfl, by decide⟩, .of_plain (Text.forall_of_all (by decide)),
      fun previous => by cases previous <;> rfl⟩

theorem closed_null : Closed ['n', 'u', 'l', 'l'] :=
  ⟨⟨⟨'n', rfl, by decide⟩, 'l', rfl, by decide⟩, .of_plain (Text.forall_of_all (by decide)),
    fun previous => by cases previous <;> rfl⟩

/-- An atom that is no literal substitution. -/
theorem closed_atom {a : Atom} (h : ∀ s, a ≠ .substitution s) : Closed a.chars := by
  cases a with
  | «variable» p | selected p => exact closed_braced (by decide) (by decide) (by decide) p.balanced
  | string cs => exact closed_string cs
  | number n => exact n.closed
  | bool b => exact closed_bool b
  | null => exact closed_null
  | substitution s => exact absurd rfl (h s)

end NaturalTemplate
