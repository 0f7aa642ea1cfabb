import NaturalTemplate.Expression.Evaluator
import NaturalTemplate.Text.Escape
import NaturalTemplate.Text.Search

/-!
# Expressions in text

In text that is expanded, `[[` and `]]` enclose an expression whose value is written escaped, and
`[(` and `)]` one whose value is written as it is. From an opening mark that is not closed on, the
text is left as it stands.
-/
namespace NaturalTemplate.Inline

/-- A part of a text. -/
inductive Segment where
  | literal (text : List Char)
  | expression (text : List Char) (escaped : Bool)
deriving DecidableEq, Inhabited

def segments : List Char → List Segment
  | [] => []
  | '[' :: '[' :: rest =>
    match _ : Text.splitAt? [']', ']'] rest with
    | some (text, after) => .expression text true :: segments after
    | none => [.literal ('[' :: '[' :: rest)]
  | '[' :: '(' :: rest =>
    match _ : Text.splitAt? [')', ']'] rest with
    | some (text, after) => .expression text false :: segments after
    | none => [.literal ('[' :: '(' :: rest)]
  | c :: cs => .literal [c] :: segments cs
termination_by cs => cs.length
decreasing_by
  · have := Text.length_of_splitAt? ‹_›
    simp only [List.length_cons]
    omega
  · have := Text.length_of_splitAt? ‹_›
    simp only [List.length_cons]
    omega
  · simp

def Segment.isExpression : Segment → Bool
  | literal _ => false
  | expression .. => true

/-- What a part of a text is written as. -/
def Segment.expand (ev : Evaluator) : Segment → Context → Except EngineError String × Context
  | literal text, c => (.ok (String.ofList text), c)
  | expression text escaped, c =>
    match ev.evaluate (String.ofList text) c with
    | (.ok v, c) => (v.text.map fun s => if escaped then Text.escape s else s, c)
    | (.error e, c) => (.error e, c)

/-- What parts of a text are written as, up to the first that cannot be. -/
def expandAll (ev : Evaluator) : List Segment → Context → Except EngineError String × Context
  | [], c => (.ok "", c)
  | s :: ss, c =>
    match s.expand ev c with
    | (.error e, c) => (.error e, c)
    | (.ok front, c) =>
      match expandAll ev ss c with
      | (.error e, c) => (.error e, c)
      | (.ok back, c) => (.ok (front ++ back), c)

/-- Expands a text, if there are expressions in it. -/
def expand? (ev : Evaluator) (text : String) (c : Context) :
    Except EngineError (Option String) × Context :=
  let parts := segments text.toList
  if parts.any Segment.isExpression then
    match expandAll ev parts c with
    | (.ok s, c) => (.ok (some s), c)
    | (.error e, c) => (.error e, c)
  else (.ok none, c)

end NaturalTemplate.Inline
