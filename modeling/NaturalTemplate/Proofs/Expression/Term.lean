import NaturalTemplate.Expression.Evaluator

/-!
# Terms

Well-formed expressions as trees, how they are printed, and what they evaluate to. Every operand
that is not an atom is printed in brackets. Operands are evaluated from left to right, and only
those that are needed; a variable that is looked up is asked for its value.
-/
namespace NaturalTemplate

/-- A name that a variable can have. -/
structure Identifier where
  name : String
  valid : isIdentifier name = true

inductive BinaryOperator where
  | or
  | and
  | equal
  | differ
  | order (relation : Relation)
  | add
deriving DecidableEq

inductive Term where
  /-- A variable, or a property of a property of one. -/
  | variable (name : Identifier) (properties : List Identifier)
  /-- The same from the selected object. -/
  | selected (name : Identifier) (properties : List Identifier)
  | string (s : String)
  | integer (n : Int64)
  | bool (b : Bool)
  | null
  | not (operand : Term)
  | binary (operator : BinaryOperator) (left right : Term)
  | conditional (condition yes no : Term)
  | guarded (condition yes : Term)
  | elvis (value default : Term)

/-! ## Printing -/

def Relation.spelling : Relation → List Char
  | greaterEqual => ['>', '=']
  | lessEqual => ['<', '=']
  | greater => ['>']
  | less => ['<']

def BinaryOperator.spelling : BinaryOperator → List Char
  | or => ['o', 'r']
  | and => ['a', 'n', 'd']
  | equal => ['=', '=']
  | differ => ['!', '=']
  | order relation => relation.spelling
  | add => ['+']

namespace Term

/-- A name and properties, with points between them. -/
def pathChars (name : Identifier) (properties : List Identifier) : List Char :=
  name.name.toList ++ properties.flatMap fun p => '.' :: p.name.toList

/-- A character of a string literal. -/
def quotedChar (c : Char) : List Char :=
  if c = '\\' ∨ c = '\'' then ['\\', c] else [c]

/-- Whether a term needs brackets as an operand. -/
def isCompound : Term → Bool
  | not _ | binary .. | conditional .. | guarded .. | elvis .. => true
  | _ => false

/-- A printed term as an operand. -/
def bracketed (t : Term) (printed : List Char) : List Char :=
  if t.isCompound then '(' :: (printed ++ [')']) else printed

def chars : Term → List Char
  | .variable name properties => '$' :: '{' :: (pathChars name properties ++ ['}'])
  | selected name properties => '*' :: '{' :: (pathChars name properties ++ ['}'])
  | string s => '\'' :: (s.toList.flatMap quotedChar ++ ['\''])
  | integer n => (toString n.toInt).toList
  | bool b => (toString b).toList
  | null => ['n', 'u', 'l', 'l']
  | not operand => '!' :: operand.bracketed operand.chars
  | binary operator left right =>
    left.bracketed left.chars ++ ' ' :: (operator.spelling ++ ' ' :: right.bracketed right.chars)
  | conditional condition yes no =>
    condition.bracketed condition.chars ++
      ' ' :: '?' :: ' ' :: (yes.bracketed yes.chars ++ ' ' :: ':' :: ' ' :: no.bracketed no.chars)
  | guarded condition yes =>
    condition.bracketed condition.chars ++ ' ' :: '?' :: ' ' :: yes.bracketed yes.chars
  | elvis value default =>
    value.bracketed value.chars ++ ' ' :: '?' :: ':' :: ' ' :: default.bracketed default.chars

def print (t : Term) : String := String.ofList t.chars

example : (elvis (not null) (string "it's")).print = "(!null) ?: 'it\\'s'" := by decide

/-- A term as an operand of another one. -/
def operand (t : Term) : List Char := t.bracketed t.chars

end Term

/-! ## Evaluating -/

/-- An evaluation in a context, which has the values that were asked for when it ends. -/
abbrev Evaluation := EStateM ExpressionError Context

namespace Evaluation

/-- The value that a name is bound to. -/
def lookUp (name : String) : Evaluation (Option Value) := fun c =>
  .ok (c.value? name) (c.touch name)

/-- A property of a value. One that an object does not have is null. -/
def property (v : Value) (name : Identifier) : Except ExpressionError Value :=
  match v with
  | .object entries => .ok ((Value.find? name.name entries).getD .null)
  | v => .error (.property name.name v.type)

def ofExcept {α : Type} : Except ExpressionError α → Evaluation α
  | .ok a => pure a
  | .error cause => throw cause

/-- Properties of properties of a value. -/
def properties (v : Value) (names : List Identifier) : Evaluation Value :=
  ofExcept (names.foldlM property v)

/-- A variable that is not bound is null. -/
def path (name : Identifier) (names : List Identifier) : Evaluation Value := do
  properties ((← lookUp name.name).getD .null) names

end Evaluation

/-- Whether a value comes before another one in some way. -/
def Relation.test (relation : Relation) (left right : Value) : Except ExpressionError Value :=
  match left.order? right with
  | some o => .ok (.bool (relation.holds o))
  | none => .error (.operands (String.ofList relation.spelling) left.type right.type)

def BinaryOperator.run : BinaryOperator → Evaluation Value → Evaluation Value → Evaluation Value
  | or, left, right => do
    if (← left).isTruthy then return .bool true
    else return .bool (← right).isTruthy
  | and, left, right => do
    if (← left).isTruthy then return .bool (← right).isTruthy
    else return .bool false
  | equal, left, right => do return .bool ((← left).looselyEquals (← right))
  | differ, left, right => do return .bool !((← left).looselyEquals (← right))
  | order relation, left, right => do
    let a ← left
    let b ← right
    Evaluation.ofExcept (relation.test a b)
  | add, left, right => do
    let a ← left
    let b ← right
    Evaluation.ofExcept (a.add b)

def Term.run : Term → Evaluation Value
  | .variable name properties => Evaluation.path name properties
  | selected name properties => do
    match ← Evaluation.lookUp Context.selectionName with
    | some v => Evaluation.properties v (name :: properties)
    | none => Evaluation.path name properties
  | string s => return .string s
  | integer n => return .integer n
  | bool b => return .bool b
  | null => return .null
  | not operand => do return .bool !(← operand.run).isTruthy
  | binary operator left right => operator.run left.run right.run
  | conditional condition yes no => do
    if (← condition.run).isTruthy then yes.run else no.run
  | guarded condition yes => do
    if (← condition.run).isTruthy then yes.run else return .null
  | elvis value default => do
    let v ← value.run
    if v.isNull then default.run else return v

end NaturalTemplate
