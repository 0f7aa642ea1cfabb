import NaturalTemplate.Text.Blank

/-!
# What stands at the top level of an expression

Operators and separators count only outside string literals, literal substitutions and brackets. An
expression is walked character by character with a record of what is open; from it come the ways to
cut an expression in parts. Each part is shorter than the whole.
-/
namespace NaturalTemplate

/-- What is open at a place in an expression. -/
structure Nesting where
  quoted : Bool := false
  /-- The next character of the string literal stands for itself. -/
  escaped : Bool := false
  substituting : Bool := false
  /-- The brackets and braces that are open, less those closed without being open. -/
  depth : Int := 0
deriving DecidableEq, Inhabited

namespace Nesting

/-- What is open after one more character. A bar opens and closes a substitution outside brackets
only, and a quote inside a substitution is an ordinary character. -/
def step (n : Nesting) (c : Char) : Nesting :=
  if n.quoted then
    if n.escaped then { n with escaped := false }
    else if c = '\\' then { n with escaped := true }
    else if c = '\'' then { n with quoted := false }
    else n
  else if c = '\'' ∧ ¬ n.substituting then { n with quoted := true }
  else if c = '|' ∧ n.depth = 0 then { n with substituting := !n.substituting }
  else if c = '{' ∨ c = '(' then { n with depth := n.depth + 1 }
  else if c = '}' ∨ c = ')' then { n with depth := n.depth - 1 }
  else n

def atTop (n : Nesting) : Bool :=
  !n.quoted && !n.substituting && n.depth == 0

/-- Whether no bracket is closed here that was not opened here. -/
def neverBelow (n : Nesting) : List Char → Bool
  | [] => true
  | c :: cs => 0 ≤ (n.step c).depth && (n.step c).neverBelow cs

/-- Cuts at the first separator at the top level. -/
def splitOnce? (separator : Char) (n : Nesting) : List Char → Option (List Char × List Char)
  | [] => none
  | c :: cs =>
    if c = separator ∧ n.atTop then some ([], cs)
    else (splitOnce? separator (n.step c) cs).map fun (left, right) => (c :: left, right)

/-- Cuts at every separator at the top level. -/
def splitAll (separator : Char) (n : Nesting) : List Char → List (List Char)
  | [] => [[]]
  | c :: cs =>
    if c = separator ∧ n.atTop then [] :: splitAll separator (n.step c) cs
    else
      match splitAll separator (n.step c) cs with
      | [] => [[c]]
      | part :: parts => (c :: part) :: parts

/-- Whether an operator stands here. One that is spelled as a word needs white space on both
sides. -/
def operatorAt (previous : Char) (cs operator : List Char) : Bool :=
  operator.isPrefixOf cs &&
    if (operator.head?.map Char.isAlpha).getD false then
      Text.isAsciiBlank previous && (cs[operator.length]?.map Text.isAsciiBlank).getD false
    else true

/-- Cuts at the first of some operators at the top level. One at the very start has no left operand
and does not count. -/
def splitFirst? {α : Type} (operators : List (List Char × α)) (n : Nesting)
    (previous : Option Char) : List Char → Option (List Char × (List Char × α) × List Char)
  | [] => none
  | c :: cs =>
    match previous.bind fun p =>
        if n.atTop then operators.find? fun o => operatorAt p (c :: cs) o.1 else none with
    | some o => some ([], o, (c :: cs).drop o.1.length)
    | none =>
      (splitFirst? operators (n.step c) (some c) cs).map fun (left, o, right) =>
        (c :: left, o, right)

/-- Cuts at the last occurrence of an operator of one character. -/
def splitLast? (operator : Char) (n : Nesting) (previous : Option Char) :
    List Char → Option (List Char × List Char)
  | [] => none
  | c :: cs =>
    match splitLast? operator (n.step c) (some c) cs with
    | some (left, right) => some (c :: left, right)
    | none => if previous.isSome ∧ n.atTop ∧ c = operator then some ([], cs) else none

theorem splitOnce?_eq_some {separator : Char} {n : Nesting} {cs left right : List Char}
    (h : splitOnce? separator n cs = some (left, right)) : cs = left ++ separator :: right := by
  induction cs generalizing n left with
  | nil => simp [splitOnce?] at h
  | cons c cs ih =>
    simp only [splitOnce?] at h
    split at h
    next hc =>
      simp only [Option.some.injEq, Prod.mk.injEq] at h
      obtain ⟨rfl, rfl⟩ := h
      simp [hc.1]
    next =>
      obtain ⟨⟨l, r⟩, hlr, heq⟩ := Option.map_eq_some_iff.mp h
      simp only [Prod.mk.injEq] at heq
      obtain ⟨rfl, rfl⟩ := heq
      simp [ih hlr]

theorem splitFirst?_eq_some {α : Type} {operators : List (List Char × α)} {n : Nesting}
    {previous : Option Char} {cs left right : List Char} {o : List Char × α}
    (h : splitFirst? operators n previous cs = some (left, o, right)) :
    cs = left ++ o.1 ++ right ∧ o ∈ operators ∧ (previous = none → left ≠ []) := by
  induction cs generalizing n previous left with
  | nil => simp [splitFirst?] at h
  | cons c cs ih =>
    simp only [splitFirst?] at h
    split at h
    next o' ho =>
      simp only [Option.some.injEq, Prod.mk.injEq] at h
      obtain ⟨rfl, rfl, rfl⟩ := h
      obtain ⟨p, hp, hfind⟩ := Option.bind_eq_some_iff.mp ho
      split at hfind
      · have hat := List.find?_some hfind
        simp only [operatorAt, Bool.and_eq_true] at hat
        obtain ⟨rest, hrest⟩ := List.isPrefixOf_iff_prefix.mp hat.1
        refine ⟨by simp [← hrest], List.mem_of_find?_eq_some hfind, ?_⟩
        simp [hp]
      · simp at hfind
    next =>
      obtain ⟨⟨l, o', r⟩, hlr, heq⟩ := Option.map_eq_some_iff.mp h
      simp only [Prod.mk.injEq] at heq
      obtain ⟨rfl, rfl, rfl⟩ := heq
      obtain ⟨happ, hmem, -⟩ := ih hlr
      exact ⟨by simp [happ], hmem, by simp⟩

theorem splitLast?_eq_some {operator : Char} {n : Nesting} {previous : Option Char}
    {cs left right : List Char} (h : splitLast? operator n previous cs = some (left, right)) :
    cs = left ++ operator :: right ∧ (previous = none → left ≠ []) := by
  induction cs generalizing n previous left with
  | nil => simp [splitLast?] at h
  | cons c cs ih =>
    simp only [splitLast?] at h
    split at h
    next l r hlr =>
      simp only [Option.some.injEq, Prod.mk.injEq] at h
      obtain ⟨rfl, rfl⟩ := h
      exact ⟨by simp [(ih hlr).1], by simp⟩
    next =>
      split at h
      next hc =>
        simp only [Option.some.injEq, Prod.mk.injEq] at h
        obtain ⟨rfl, rfl⟩ := h
        refine ⟨by simp [hc.2.2], ?_⟩
        intro hnone
        simp [hnone] at hc
      · simp at h

end Nesting
end NaturalTemplate
