import NaturalTemplate.Location
import NaturalTemplate.Source.Basic

/-!
# What can be wrong with markup
-/
namespace NaturalTemplate.Markup

/-- The ways in which markup can be malformed. -/
inductive Malformation where
  | unterminatedBlock
  | nestedBlock
  | unterminatedParserComment
  | unterminatedComment
  | unterminatedCData
  | unterminatedDocType
  | unterminatedInstruction
  | unterminatedEndTag (name : String)
  | contentInEndTag (name : String)
  | unterminatedStartTag (name : String)
  | attributesNotSeparated
  | missingAttributeName
  | unterminatedAttribute (name : String)
  | unterminatedValue (name : String)
  | valueNotDoubleQuoted (name : String)
  | strayEndTag (name : String)
  | attributeOutsideTag
  | tagEndWithoutStart
deriving DecidableEq, Inhabited

def Malformation.message : Malformation → String
  | unterminatedBlock => "unterminated prototype-only comment block"
  | nestedBlock => "nested prototype-only comment blocks are not supported"
  | unterminatedParserComment => "unterminated parser-level comment"
  | unterminatedComment => "unterminated comment"
  | unterminatedCData => "unterminated CDATA section"
  | unterminatedDocType => "unterminated DOCTYPE"
  | unterminatedInstruction => "unterminated processing instruction"
  | unterminatedEndTag name => "unterminated end tag </" ++ name
  | contentInEndTag name => "unexpected content in end tag </" ++ name
  | unterminatedStartTag name => "unterminated start tag <" ++ name
  | attributesNotSeparated => "attributes must be separated by whitespace"
  | missingAttributeName => "expected attribute name"
  | unterminatedAttribute name => "unterminated attribute " ++ name
  | unterminatedValue name => "unterminated value of attribute " ++ name
  | valueNotDoubleQuoted name =>
    "value of attribute " ++ name ++ " must be double-quoted in strict mode"
  | strayEndTag name => "end tag </" ++ name ++ "> has no matching start tag"
  | attributeOutsideTag => "attribute outside a start tag"
  | tagEndWithoutStart => "start tag end without a start tag"

inductive ParseError where
  | source (failure : ReadFailure)
  | malformed (cause : Malformation) (location : Location)
  /-- An end tag, or the end of input, came where another end tag was due. -/
  | unbalanced (expected : String) (found : Option String) (location : Location)
deriving DecidableEq, Inhabited

namespace ParseError

def message : ParseError → String
  | source failure => "I/O error while reading template: " ++ failure.message
  | malformed cause location => "malformed markup at " ++ location.toText ++ ": " ++ cause.message
  | unbalanced expected found location =>
    "unbalanced markup at " ++ location.toText ++ ": expected </" ++ expected ++ ">, found " ++
      match found with
      | some name => "</" ++ name ++ ">"
      | none => "end of input"

/-- The place that an error blames, when it has one. -/
def location? : ParseError → Option Location
  | source _ => none
  | malformed _ location => some location
  | unbalanced _ _ location => some location

end ParseError
end NaturalTemplate.Markup
