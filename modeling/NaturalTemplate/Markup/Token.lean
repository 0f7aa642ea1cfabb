import NaturalTemplate.Location

/-!
# Tokens

Markup as a sequence of tokens, each of which keeps its exact text and the place where it begins.
-/
namespace NaturalTemplate.Markup

/-- How the value of an attribute is quoted. -/
inductive Quote where
  | double
  | single
  | unquoted
  /-- There is no value. -/
  | none
deriving DecidableEq, Inhabited

inductive CommentKind where
  | normal
  /-- Written with a slash and a star inside the comment marks. -/
  | parserLevel
deriving DecidableEq, Inhabited

inductive TokenKind where
  | documentStart
  | documentEnd
  /-- The opening of a start tag; its attributes and its end follow as tokens of their own. -/
  | tagStart (name : String)
  | attribute (leading name operator : String) (value : Option String) (quote : Quote)
  /-- The end of a start tag, with the space before it. -/
  | tagStartEnd (trailing : String) (selfClosing : Bool)
  | tagEnd (name : String)
  | text (content : String)
  | comment (kind : CommentKind) (content : String)
  | cdata (content : String)
  | docType (content : String)
  | instruction (content : String)
  /-- The opening mark of a prototype-only block. -/
  | blockStart
  /-- The closing mark of a prototype-only block. -/
  | blockEnd
deriving DecidableEq, Inhabited

structure Token where
  kind : TokenKind
  raw : String
  location : Location
deriving DecidableEq, Inhabited

namespace Token

/-- A text token, whose content is its own text. -/
def text (content : String) (location : Location) : Token :=
  ⟨.text content, content, location⟩

def isText (t : Token) : Bool :=
  match t.kind with
  | .text _ => true
  | _ => false

end Token
end NaturalTemplate.Markup
