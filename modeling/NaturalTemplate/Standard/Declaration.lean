import NaturalTemplate.Error
import NaturalTemplate.Expression.Basic
import NaturalTemplate.Expression.Nesting
import NaturalTemplate.Text.Search

/-!
# Declarations

The values of attributes that are more than one expression: a list of assignments, and what an
element is repeated over.
-/
namespace NaturalTemplate.Standard

/-- The name and the expression of an assignment `name=expression`. -/
def assignment (part : List Char) : Except EngineError (String × String) :=
  match Nesting.splitOnce? '=' {} part with
  | some (name, expression) =>
    .ok (String.ofList (Text.trim name), String.ofList (Text.trim expression))
  | none => .error (.type (.assignment (String.ofList (Text.trim part))))

/-- The assignments of a list with commas between them. -/
def assignments (text : String) : Except EngineError (List (String × String)) :=
  (Nesting.splitAll ',' {} text.toList).mapM assignment

/-- A repetition: the name of the item, the name of its status if it is given, and the expression
for what is repeated over. -/
structure Iteration where
  binding : String
  status : Option String
  expression : String
deriving DecidableEq, Inhabited

/-- Reads `item : expression` or `item, status : expression`. -/
def iteration (declaration : String) : Except EngineError Iteration :=
  match Nesting.splitOnce? ':' {} declaration.toList with
  | none => .error (.type (.iterationWithoutSeparator declaration))
  | some (names, expression) =>
    let names := (Text.pieces ',' names).map fun name => String.ofList (Text.trim name)
    match names, names.all isIdentifier with
    | [binding], true => .ok ⟨binding, none, String.ofList expression⟩
    | [binding, status], true => .ok ⟨binding, some status, String.ofList expression⟩
    | _, _ => .error (.type (.iterationVariables declaration))

end NaturalTemplate.Standard
