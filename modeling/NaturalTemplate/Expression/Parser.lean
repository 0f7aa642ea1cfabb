import NaturalTemplate.Decimal.Parse
import NaturalTemplate.Expression.Basic
import NaturalTemplate.Expression.Nesting
import NaturalTemplate.Text.Search

/-!
# Reading expressions

An expression is cut at its loosest operator and the parts are read in the same way, until an atom
is left. From loose to tight: conditionals, `or`, `and`, equality, order, addition, negation.
-/
namespace NaturalTemplate.Expr

def pathOf (text : List Char) : Path :=
  (Text.pieces '.' text).map fun name => String.ofList (Text.trim name)

/-- The parts of a literal substitution. -/
def substitutionPieces : List Char → List Piece
  | [] => []
  | '$' :: '{' :: rest =>
    match _ : Text.splitAt? ['}'] rest with
    | none => [.unterminated]
    | some (path, after) => .variable (pathOf path) :: substitutionPieces after
  | '*' :: '{' :: rest =>
    match _ : Text.splitAt? ['}'] rest with
    | none => [.unterminated]
    | some (path, after) => .selected (pathOf path) :: substitutionPieces after
  | c :: cs => .char c :: substitutionPieces cs
termination_by cs => cs.length
decreasing_by
  · have := Text.length_of_splitAt? ‹_›
    simp only [List.length_cons]
    omega
  · have := Text.length_of_splitAt? ‹_›
    simp only [List.length_cons]
    omega
  · simp

/-- A string literal without its quotes. A backslash makes the next character stand for itself. -/
def stringLiteral : List Char → Except SyntaxError (List Char)
  | [] => .ok []
  | '\\' :: [] => .error .danglingEscape
  | '\\' :: c :: cs => (stringLiteral cs).map (c :: ·)
  | '\'' :: _ => .error .unescapedQuote
  | c :: cs => (stringLiteral cs).map (c :: ·)

/-- What stands between two marks at the ends of a text. -/
def between? (front : List Char) (back : Char) (text : List Char) : Option (List Char) :=
  if front.isPrefixOf text then
    let rest := text.drop front.length
    if rest.getLast? = some back then some rest.dropLast else none
  else none

/-- The inside of brackets that belong to each other. -/
def bracketed? (text : List Char) : Option (List Char) :=
  (between? ['('] ')' text).bind fun inner =>
    if Nesting.neverBelow {} inner then some inner else none

/-- An atom that is not in brackets. -/
def atom (text : List Char) : Expr :=
  match between? ['|'] '|' text with
  | some body => .substitution (substitutionPieces body)
  | none =>
    match between? ['\''] '\'' text with
    | some body =>
      match stringLiteral body with
      | .ok cs => .literal (.string (String.ofList cs))
      | .error cause => .malformed cause
    | none =>
      if text = ['t', 'r', 'u', 'e'] then .literal (.bool true)
      else if text = ['f', 'a', 'l', 's', 'e'] then .literal (.bool false)
      else if text = ['n', 'u', 'l', 'l'] then .literal .null
      else
        match Decimal.int64? text with
        | some n => .literal (.integer n)
        | none =>
          match if (text.head?.map fun c => c.isDigit || c == '-').getD false then
            Decimal.float? text else none with
          | some x => .literal (.float x)
          | none => .malformed (.unrecognized (String.ofList text))

/-- The ways to say that two values are equal, or not. -/
def equalityOperators : List (List Char × Bool) :=
  [(['=', '='], true), (['!', '='], false), (['e', 'q'], true), (['n', 'e'], false)]

def relationOperators : List (List Char × Relation) :=
  [(['>', '='], .greaterEqual), (['<', '='], .lessEqual), (['>'], .greater), (['<'], .less),
    (['g', 'e'], .greaterEqual), (['l', 'e'], .lessEqual), (['g', 't'], .greater),
    (['l', 't'], .less)]

/-- The operand of a negation. -/
def negated? : List Char → Option (List Char)
  | 'n' :: 'o' :: 't' :: ' ' :: rest => some rest
  | '!' :: rest => some rest
  | _ => none

theorem length_of_between? {front text inner : List Char} {back : Char}
    (h : between? front back text = some inner) : inner.length < text.length := by
  simp only [between?] at h
  split at h
  · split at h
    next hlast =>
      simp only [Option.some.injEq] at h
      have hne : text.drop front.length ≠ [] := by
        rintro hnil
        simp [hnil] at hlast
      have hpos := List.length_pos_iff.mpr hne
      simp only [List.length_drop] at hpos
      simp only [← h, List.length_dropLast, List.length_drop]
      omega
    · simp at h
  · simp at h

theorem length_of_bracketed? {text inner : List Char} (h : bracketed? text = some inner) :
    inner.length < text.length := by
  obtain ⟨i, hi, hif⟩ := Option.bind_eq_some_iff.mp h
  split at hif
  · simp only [Option.some.injEq] at hif
    exact hif ▸ length_of_between? hi
  · simp at hif

theorem length_of_negated? {text rest : List Char} (h : negated? text = some rest) :
    rest.length < text.length := by
  unfold negated? at h
  split at h
  · simp only [Option.some.injEq] at h
    simp [← h]
    omega
  · simp only [Option.some.injEq] at h
    simp [← h]
  · simp at h

private theorem lengths_of_splitFirst? {α : Type} {operators : List (List Char × α)}
    {cs left right : List Char} {o : List Char × α}
    (h : Nesting.splitFirst? operators {} none cs = some (left, o, right))
    (hne : ∀ o ∈ operators, o.1 ≠ []) : left.length < cs.length ∧ right.length < cs.length := by
  obtain ⟨happ, hmem, hleft⟩ := Nesting.splitFirst?_eq_some h
  have hlen := congrArg List.length happ
  have ho := List.length_pos_iff.mpr (hne o hmem)
  have hl := List.length_pos_iff.mpr (hleft rfl)
  simp only [List.length_append] at hlen
  omega

/-- Reads an expression. Every text is one. -/
def parse (text : List Char) : Expr :=
  let e := Text.trim text
  if e.isEmpty then .malformed .empty
  else
    match _ : Nesting.splitFirst? [(['?'], ())] {} none e with
    | some (condition, _, ':' :: default) => .elvis (parse condition) (parse default)
    | some (condition, _, rest) =>
      match _ : Nesting.splitOnce? ':' {} rest with
      | some (yes, no) => .conditional (parse condition) (parse yes) (parse no)
      | none => .guarded (parse condition) (parse rest)
    | none =>
    match _ : Nesting.splitFirst? [(['o', 'r'], ())] {} none e with
    | some (left, _, right) => .or (parse left) (parse right)
    | none =>
    match _ : Nesting.splitFirst? [(['a', 'n', 'd'], ())] {} none e with
    | some (left, _, right) => .and (parse left) (parse right)
    | none =>
    match _ : Nesting.splitFirst? equalityOperators {} none e with
    | some (left, (_, true), right) => .equal (parse left) (parse right)
    | some (left, (_, false), right) => .differ (parse left) (parse right)
    | none =>
    match _ : Nesting.splitFirst? relationOperators {} none e with
    | some (left, (operator, relation), right) =>
      .compare relation (String.ofList operator) (parse left) (parse right)
    | none =>
    match _ : Nesting.splitLast? '+' {} none e with
    | some (left, right) => .add (parse left) (parse right)
    | none =>
    match _ : negated? e with
    | some rest => .not (parse rest)
    | none =>
    match between? ['$', '{'] '}' e with
    | some path => .variable (pathOf path)
    | none =>
    match between? ['*', '{'] '}' e with
    | some path => .selected (pathOf path)
    | none =>
    match _ : bracketed? e with
    | some inner => parse inner
    | none => atom e
termination_by text.length
decreasing_by
  all_goals have htrim : e.length ≤ text.length := Text.length_trim_le text
  all_goals
    first
    | have hinner := length_of_negated? ‹_›
      omega
    | have hinner := length_of_bracketed? ‹_›
      omega
    | have hcut := Nesting.splitLast?_eq_some ‹_›
      have hlen := congrArg List.length hcut.1
      have hleft := List.length_pos_iff.mpr (hcut.2 rfl)
      simp only [List.length_append, List.length_cons] at hlen
      omega
    | have hcut := ‹Nesting.splitFirst? _ _ _ e = some _›
      have hlen := lengths_of_splitFirst? hcut (by simp [equalityOperators, relationOperators])
      try simp only [List.length_cons] at hlen
      first
      | omega
      | have hrest := congrArg List.length (Nesting.splitOnce?_eq_some ‹_›)
        simp only [List.length_append, List.length_cons] at hrest
        omega

end NaturalTemplate.Expr
