import NaturalTemplate.Source.Basic
import NaturalTemplate.Text.Case
import NaturalTemplate.Text.Search

/-!
# Looking ahead

Questions about the characters that come next. Each is answered from the characters left, unless it
needs more of them than there are and the source failed there: then it fails as the source did. With
`failure = none` every question has an answer.
-/
namespace NaturalTemplate.Source

/-- Whether at least `n` characters are left; a failed source cannot say no. -/
def has (failure : Option ReadFailure) (n : Nat) (cs : List Char) : Except ReadFailure Bool :=
  if (cs.take n).length = n then .ok true
  else
    match failure with
    | none => .ok false
    | some f => .error f

/-- The character `n` places ahead. -/
def peek (failure : Option ReadFailure) (n : Nat) (cs : List Char) :
    Except ReadFailure (Option Char) := do
  let _ ← has failure (n + 1) cs
  return cs[n]?

/-- Whether the next characters are `pattern`. -/
def lookingAt (failure : Option ReadFailure) (pattern cs : List Char) :
    Except ReadFailure Bool := do
  let enough ← has failure pattern.length cs
  return enough && pattern.isPrefixOf cs

/-- Whether the next characters are `pattern`, except for the case of ASCII letters. -/
def lookingAtIgnoringCase (failure : Option ReadFailure) (pattern cs : List Char) :
    Except ReadFailure Bool := do
  let enough ← has failure pattern.length cs
  return enough && (Text.fold pattern).isPrefixOf (Text.fold (cs.take pattern.length))

/-- Like `Text.splitAt?`, where a failed source cannot say that the marker does not come. -/
def readUntil (failure : Option ReadFailure) (marker cs : List Char) :
    Except ReadFailure (Option (List Char × List Char)) :=
  match Text.splitAt? marker cs, failure with
  | none, some f => .error f
  | found, _ => .ok found

/-- The longest run of characters with a property, and what follows it. -/
def readWhile (failure : Option ReadFailure) (p : Char → Bool) (cs : List Char) :
    Except ReadFailure (List Char × List Char) :=
  match cs.dropWhile p, failure with
  | [], some f => .error f
  | rest, _ => .ok (cs.takeWhile p, rest)

theorem peek_eq_ok {failure : Option ReadFailure} {n : Nat} {cs : List Char} {c : Option Char}
    (h : peek failure n cs = .ok c) : c = cs[n]? := by
  unfold peek at h
  cases hhas : has failure (n + 1) cs with
  | error f => simp [hhas, bind, Except.bind] at h
  | ok b =>
    simp only [hhas, bind, Except.bind, pure, Except.pure, Except.ok.injEq] at h
    exact h.symm

theorem lookingAt_eq_true {failure : Option ReadFailure} {pattern cs : List Char}
    (h : lookingAt failure pattern cs = .ok true) : pattern <+: cs := by
  unfold lookingAt at h
  cases hhas : has failure pattern.length cs with
  | error f => simp [hhas, bind, Except.bind] at h
  | ok b =>
    simp only [hhas, bind, Except.bind, pure, Except.pure, Except.ok.injEq,
      Bool.and_eq_true] at h
    exact List.isPrefixOf_iff_prefix.mp h.2

/-- A question decides between two ways to go on. -/
theorem ask_eq_ok {α : Type} {question : Except ReadFailure Bool} {yes no : Except ReadFailure α}
    {a : α} (h : (do if ← question then yes else no) = .ok a) :
    (question = .ok true ∧ yes = .ok a) ∨ (question = .ok false ∧ no = .ok a) := by
  cases question with
  | error f => simp [bind, Except.bind] at h
  | ok b => cases b <;> simp_all [bind, Except.bind]

theorem lookingAtIgnoringCase_eq_true {failure : Option ReadFailure} {pattern cs : List Char}
    (h : lookingAtIgnoringCase failure pattern cs = .ok true) :
    Text.fold pattern <+: Text.fold cs := by
  unfold lookingAtIgnoringCase at h
  cases hhas : has failure pattern.length cs with
  | error f => simp [hhas, bind, Except.bind] at h
  | ok b =>
    simp only [hhas, bind, Except.bind, pure, Except.pure, Except.ok.injEq,
      Bool.and_eq_true] at h
    have htake : Text.fold (cs.take pattern.length) <+: Text.fold cs := by
      rw [Text.fold, List.map_take]
      exact List.take_prefix _ _
    exact (List.isPrefixOf_iff_prefix.mp h.2).trans htake

theorem readUntil_eq_some {failure : Option ReadFailure} {marker cs before after : List Char}
    (h : readUntil failure marker cs = .ok (some (before, after))) :
    cs = before ++ marker ++ after := by
  unfold readUntil at h
  split at h
  · simp at h
  · exact Text.splitAt?_eq_some (by simpa using h)

theorem readWhile_eq_ok {failure : Option ReadFailure} {p : Char → Bool} {cs run rest : List Char}
    (h : readWhile failure p cs = .ok (run, rest)) :
    run = cs.takeWhile p ∧ rest = cs.dropWhile p := by
  unfold readWhile at h
  split at h
  · simp at h
  · simp_all

theorem readWhile_append {failure : Option ReadFailure} {p : Char → Bool} {cs run rest : List Char}
    (h : readWhile failure p cs = .ok (run, rest)) : run ++ rest = cs := by
  obtain ⟨rfl, rfl⟩ := readWhile_eq_ok h
  exact List.takeWhile_append_dropWhile

end NaturalTemplate.Source
