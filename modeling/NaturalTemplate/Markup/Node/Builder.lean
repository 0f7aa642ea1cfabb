import NaturalTemplate.Markup.Error
import NaturalTemplate.Markup.Node
import NaturalTemplate.Markup.Options

/-!
# Building the tree

Tokens become nodes. In tolerant mode an end tag closes the nearest open element of its name, and
what was opened inside it; one that has no open element is kept as a node. In strict mode end tags
have to come in turn.
-/
namespace NaturalTemplate.Markup

/-- An element whose end tag has not come yet; its children are held with the last one first. -/
structure OpenElement where
  tag : Tag
  children : List Node := []
deriving Inhabited

/-- A tree that is being built. The nodes at the top level are held with the last one first, and the
open elements with the innermost one first. -/
structure Builder where
  mode : Mode
  roots : List Node := []
  opened : List OpenElement := []
  /-- The start tag that is being read. -/
  starting : Option Tag := none
deriving Inhabited

namespace Builder

/-- Adds a node to the innermost open element, or at the top level. -/
def append (b : Builder) (n : Node) : Builder :=
  match b.opened with
  | [] => { b with roots := n :: b.roots }
  | o :: opened => { b with opened := { o with children := n :: o.children } :: opened }

/-- Closes the innermost open element. -/
def close (endTag : EndTag) (b : Builder) : Builder :=
  match b.opened with
  | [] => b
  | o :: opened => { b with opened }.append (.element o.tag o.children.reverse endTag)

/-- Closes the `n` innermost open elements, which have no end tags. -/
def closeImplicit (n : Nat) (b : Builder) : Builder :=
  n.repeat (close .implicit) b

/-- Takes an end tag. -/
def handleEndTag (b : Builder) (name raw : String) (location : Location) :
    Except ParseError Builder :=
  match b.mode with
  | .strict =>
    match b.opened with
    | [] => .error (.malformed (.strayEndTag name) location)
    | o :: _ =>
      if o.tag.name = name then .ok (b.close (.explicit raw))
      else .error (.unbalanced o.tag.name (some name) location)
  | .tolerant =>
    match b.opened.findIdx? fun o => Text.sameName o.tag.name name with
    | none => .ok (b.append (.unmatched raw location))
    | some depth => .ok ((b.closeImplicit depth).close (.explicit raw))

/-- Takes the next token. -/
def handle (b : Builder) (t : Token) : Except ParseError Builder :=
  match t.kind with
  | .documentStart | .documentEnd | .blockStart | .blockEnd => .ok b
  | .tagStart name => .ok { b with starting := some { name, location := t.location } }
  | .attribute leading name operator value quote =>
    match b.starting with
    | none => .error (.malformed .attributeOutsideTag t.location)
    | some tag =>
      let a : Attribute := ⟨leading, name, operator, value, quote, t.location⟩
      .ok { b with starting := some { tag with attributes := tag.attributes ++ [a] } }
  | .tagStartEnd trailing selfClosing =>
    match b.starting with
    | none => .error (.malformed .tagEndWithoutStart t.location)
    | some tag =>
      let tag := { tag with trailing, selfClosing }
      let b := { b with starting := none }
      if selfClosing || isVoid tag.name then .ok (b.append (.element tag [] .void))
      else .ok { b with opened := { tag } :: b.opened }
  | .tagEnd name => b.handleEndTag name t.raw t.location
  | .text content => .ok (b.append (.text content t.location))
  | .comment _ content => .ok (b.append (.comment content t.location))
  | .cdata content => .ok (b.append (.cdata content t.location))
  | .docType content => .ok (b.append (.docType content t.location))
  | .instruction content => .ok (b.append (.instruction content t.location))

def handleAll (b : Builder) : List Token → Except ParseError Builder
  | [] => .ok b
  | t :: ts =>
    match b.handle t with
    | .error e => .error e
    | .ok b => b.handleAll ts

/-- The document, once the tokens have ended. -/
def finish (b : Builder) : Except ParseError Document :=
  match b.starting, b.mode, b.opened with
  | some tag, _, _ => .error (.malformed (.unterminatedStartTag tag.name) tag.location)
  | none, .strict, o :: _ => .error (.unbalanced o.tag.name none o.tag.location)
  | none, _, _ => .ok ⟨(b.closeImplicit b.opened.length).roots.reverse⟩

end Builder
end NaturalTemplate.Markup
