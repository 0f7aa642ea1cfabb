import NaturalTemplate.Value

/-!
# What can be wrong with an expression
-/
namespace NaturalTemplate

/-- The ways in which an expression can be malformed. -/
inductive SyntaxError where
  | empty
  | unrecognized (text : String)
  | invalidName (name : String)
  | danglingEscape
  | unescapedQuote
  | unterminatedSubstitution
deriving DecidableEq, Inhabited

def SyntaxError.message : SyntaxError → String
  | empty => "empty expression"
  | unrecognized text => "unrecognized expression '" ++ text ++ "'"
  | invalidName name => "invalid variable name '" ++ name ++ "'"
  | danglingEscape => "dangling escape in string literal"
  | unescapedQuote => "unescaped quote in string literal"
  | unterminatedSubstitution => "unterminated expression in literal substitution"

inductive ExpressionError where
  | malformed (cause : SyntaxError)
  /-- A property was asked of something that is not an object. -/
  | property (name : String) (type : ValueType)
  | operands (operator : String) (left right : ValueType)
deriving DecidableEq, Inhabited

def ExpressionError.message : ExpressionError → String
  | malformed cause => "syntax error: " ++ cause.message
  | property name type => "cannot read property '" ++ name ++ "' of " ++ type.name
  | operands operator left right =>
    "operator '" ++ operator ++ "' cannot be applied to " ++ left.name ++ " and " ++ right.name

end NaturalTemplate
