import NaturalTemplate.Context
import NaturalTemplate.Decimal.Parse
import NaturalTemplate.Expression.Basic

/-!
# Evaluating expressions

The value of an expression in a context, and the names that are looked up on the way, in order.
Operands are evaluated from left to right, and only those that are needed.
-/
namespace NaturalTemplate

namespace Path

/-- The value of a property of a property. A property that an object does not have is null. -/
def follow (v : Value) : Path → Except ExpressionError Value
  | [] => .ok v
  | name :: path =>
    if isIdentifier name then
      match v with
      | .object entries => follow ((Value.find? name entries).getD .null) path
      | v => .error (.property name v.type)
    else .error (.malformed (.invalidName name))

/-- The value of a variable or of a property of one. A variable that is not bound is null. -/
def eval (c : Context) : Path → Except ExpressionError Value
  | [] => .error (.malformed (.invalidName ""))
  | name :: path =>
    if isIdentifier name then follow ((c.value? name).getD .null) path
    else .error (.malformed (.invalidName name))

/-- The value of a property of the selected object; where none is selected, that of a variable. -/
def evalSelected (c : Context) (path : Path) : Except ExpressionError Value :=
  match c.selection? with
  | some v => follow v path
  | none => eval c path

def reads : Path → List String
  | [] => []
  | name :: _ => if isIdentifier name then [name] else []

def readsSelected (c : Context) (path : Path) : List String :=
  Context.selectionName :: if c.selection?.isSome then [] else reads path

end Path

namespace Value

/-- The sum of two numbers, or else the two texts one after the other. A sum of integers that is too
large for one is a floating-point number. -/
def add (left right : Value) : Except ExpressionError Value :=
  match left, right with
  | integer a, integer b =>
    match Decimal.toInt64? (a.toInt + b.toInt) with
    | some sum => .ok (integer sum)
    | none => .ok (float (Float.ofInt a.toInt + Float.ofInt b.toInt))
  | left, right =>
    match left.number?, right.number? with
    | some a, some b => .ok (float (a + b))
    | _, _ =>
      match left.text?, right.text? with
      | some a, some b => .ok (string (a ++ b))
      | _, _ => .error (.operands "+" left.type right.type)

/-- The order of two strings, by code points, or of two numbers. Other values have none. -/
def order? (left right : Value) : Option Ordering :=
  match left, right with
  | string a, string b => some (compare a b)
  | left, right =>
    match left.number?, right.number? with
    | some a, some b =>
      if a < b then some .lt else if b < a then some .gt else if a == b then some .eq else none
    | _, _ => none

end Value

namespace Piece

/-- What a part of a literal substitution is written as. -/
def text (c : Context) : Piece → Except ExpressionError String
  | char k => .ok (String.singleton k)
  | .variable path => (path.eval c).bind written
  | selected path => (path.evalSelected c).bind written
  | unterminated => .error (.malformed .unterminatedSubstitution)
where
  written (v : Value) : Except ExpressionError String :=
    match v.text? with
    | some s => .ok s
    | none => .error (.operands "|" .string v.type)

def reads (c : Context) : Piece → List String
  | .variable path => path.reads
  | selected path => path.readsSelected c
  | char _ | unterminated => []

def textAll (c : Context) : List Piece → Except ExpressionError String
  | [] => .ok ""
  | p :: ps => do return (← p.text c) ++ (← textAll c ps)

def readsAll (c : Context) : List Piece → List String
  | [] => []
  | p :: ps => p.reads c ++ if (p.text c).isOk then readsAll c ps else []

end Piece

namespace Expr

def eval (c : Context) : Expr → Except ExpressionError Value
  | literal v => .ok v
  | .variable path => path.eval c
  | selected path => path.evalSelected c
  | substitution pieces => (Piece.textAll c pieces).map .string
  | not e => do return .bool !(← e.eval c).isTruthy
  | add left right => do (← left.eval c).add (← right.eval c)
  | compare relation operator left right => do
    let a ← left.eval c
    let b ← right.eval c
    match a.order? b with
    | some o => return .bool (relation.holds o)
    | none => throw (.operands operator a.type b.type)
  | equal left right => do return .bool ((← left.eval c).looselyEquals (← right.eval c))
  | differ left right => do return .bool !((← left.eval c).looselyEquals (← right.eval c))
  | and left right => do
    if (← left.eval c).isTruthy then return .bool (← right.eval c).isTruthy
    else return .bool false
  | or left right => do
    if (← left.eval c).isTruthy then return .bool true
    else return .bool (← right.eval c).isTruthy
  | elvis value default => do
    let v ← value.eval c
    if v.isNull then default.eval c else return v
  | conditional condition yes no => do
    if (← condition.eval c).isTruthy then yes.eval c else no.eval c
  | guarded condition yes => do
    if (← condition.eval c).isTruthy then yes.eval c else return .null
  | malformed cause => .error (.malformed cause)

/-- Whether an expression has a value of some kind. -/
def evalsTo (c : Context) (e : Expr) (kind : Value → Bool) : Bool :=
  match e.eval c with
  | .ok v => kind v
  | .error _ => false

/-- The names that are looked up, in order: those of the operands that are evaluated. -/
def reads (c : Context) : Expr → List String
  | literal _ | malformed _ => []
  | .variable path => path.reads
  | selected path => path.readsSelected c
  | substitution pieces => Piece.readsAll c pieces
  | not e => e.reads c
  | add left right | compare _ _ left right | equal left right | differ left right =>
    left.reads c ++ if left.evalsTo c fun _ => true then right.reads c else []
  | and left right | guarded left right =>
    left.reads c ++ if left.evalsTo c Value.isTruthy then right.reads c else []
  | or left right =>
    left.reads c ++ if left.evalsTo c fun v => !v.isTruthy then right.reads c else []
  | elvis value default =>
    value.reads c ++ if value.evalsTo c Value.isNull then default.reads c else []
  | conditional condition yes no =>
    condition.reads c ++
      if condition.evalsTo c Value.isTruthy then yes.reads c
      else if condition.evalsTo c fun _ => true then no.reads c
      else []

end Expr
end NaturalTemplate
