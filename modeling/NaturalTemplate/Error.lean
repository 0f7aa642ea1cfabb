import NaturalTemplate.Expression.Error
import NaturalTemplate.Markup.Error

/-!
# What can go wrong
-/
namespace NaturalTemplate

/-- Something had the wrong kind or the wrong form. -/
inductive TypeError where
  | notText (type : ValueType)
  | rootNotObject (type : ValueType)
  | iterationWithoutSeparator (declaration : String)
  | iterationVariables (declaration : String)
  | notIterable (type : ValueType)
  | caseOutsideSwitch
  | inlineMode (mode : String)
  | variableName (name : String)
  | assignment (text : String)
  | removeMode (mode : String)
  /-- Raised by a processor for a reason of its own. -/
  | other (message : String)
deriving DecidableEq, Inhabited

def TypeError.message : TypeError → String
  | notText type => "cannot write " ++ type.name ++ " as text"
  | rootNotObject type => "root data must be an object, got " ++ type.name
  | iterationWithoutSeparator declaration =>
    "iteration '" ++ declaration ++ "' has no ':' separator"
  | iterationVariables declaration => "invalid iteration variables in '" ++ declaration ++ "'"
  | notIterable type => "cannot iterate over " ++ type.name
  | caseOutsideSwitch => "th:case must be inside an element with th:switch"
  | inlineMode mode => "unsupported inline mode '" ++ mode ++ "'"
  | variableName name => "invalid local variable name '" ++ name ++ "'"
  | assignment text => "invalid assignment '" ++ text ++ "'"
  | removeMode mode => "invalid remove mode '" ++ mode ++ "'"
  | other message => message

inductive EngineError where
  | parse (error : Markup.ParseError)
  /-- Two processors have the same precedence and match the same names. -/
  | conflict (first second : String)
  /-- A processor halted the template; the output so far, where it is kept. -/
  | halted (location : Location) (output : Option String)
  | expression (text : String) (cause : ExpressionError)
  /-- A processor failed at an element. -/
  | processing (processor : String) (location : Location) (message : String)
  | type (cause : TypeError)
  | configuration
  | io (message : String)
  /-- Elements that processors put in keep bringing forth further ones. -/
  | nesting
deriving DecidableEq, Inhabited

namespace EngineError

def message : EngineError → String
  | parse error => error.message
  | conflict first second =>
    "processors '" ++ first ++ "' and '" ++ second ++ "' share a precedence and match rule"
  | halted location _ => "template processing halted at " ++ location.toText
  | expression text cause => "failed to evaluate expression '" ++ text ++ "': " ++ cause.message
  | processing processor location message =>
    "processor '" ++ processor ++ "' failed at " ++ location.toText ++ ": " ++ message
  | type cause => "Type error: " ++ cause.message
  | configuration => "invalid engine configuration"
  | io message => "IO error: " ++ message
  | nesting => "elements are nested too deeply"

end EngineError

/-- What a value is written as. -/
def Value.text (v : Value) : Except EngineError String :=
  match v.text? with
  | some s => .ok s
  | none => .error (.type (.notText v.type))

end NaturalTemplate
