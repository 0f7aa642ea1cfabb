import NaturalTemplate.Expression.Error
import NaturalTemplate.Text.Numeric

/-!
# Expressions

An expression as a tree. Every text is one, as what cannot be understood becomes a malformed leaf:
it is an error only when it is evaluated.
-/
namespace NaturalTemplate

/-- The ways in which two values can be ordered. -/
inductive Relation where
  | greaterEqual
  | lessEqual
  | greater
  | less
deriving DecidableEq, Inhabited

def Relation.holds : Relation → Ordering → Bool
  | greaterEqual, o => o != .lt
  | lessEqual, o => o != .gt
  | greater, o => o == .gt
  | less, o => o == .lt

/-- The names in a variable expression: a variable and properties of it. They are checked when the
expression is evaluated. -/
abbrev Path := List String

/-- A part of a literal substitution. -/
inductive Piece where
  | char (c : Char)
  | variable (path : Path)
  | selected (path : Path)
  /-- A variable expression without its closing brace. -/
  | unterminated
deriving DecidableEq, Inhabited

inductive Expr where
  | literal (v : Value)
  | variable (path : Path)
  /-- A path from the selected object. -/
  | selected (path : Path)
  | substitution (pieces : List Piece)
  | not (e : Expr)
  | add (left right : Expr)
  /-- The operator is kept as it was spelled. -/
  | compare (relation : Relation) (operator : String) (left right : Expr)
  | equal (left right : Expr)
  | differ (left right : Expr)
  | and (left right : Expr)
  | or (left right : Expr)
  /-- The value, or the default where it is null. -/
  | elvis (value default : Expr)
  | conditional (condition yes no : Expr)
  /-- A condition with nothing for the other case, which gives null. -/
  | guarded (condition yes : Expr)
  | malformed (cause : SyntaxError)
deriving Inhabited

/-- Whether a text can be the name of a variable. -/
def isIdentifier (name : String) : Bool :=
  match name.toList with
  | [] => false
  | c :: cs =>
    (Text.isAlphabetic c || c == '_') && cs.all fun c => Text.isAlphanumeric c || c == '_'

end NaturalTemplate
