import NaturalTemplate.Markup.Node
import NaturalTemplate.Text.Escape

/-!
# Elements and their attributes

Reading and changing an element. Names are compared without regard to ASCII case, and the first
attribute with a name is the one that counts. Values are markup, already escaped.
-/
namespace NaturalTemplate.Markup

namespace Attribute

/-- A new attribute, spaced and quoted in the usual way. -/
def make (name value : String) : Attribute where
  leading := " "
  name
  operator := "="
  value := some value
  quote := .double

def isNamed (a : Attribute) (name : String) : Bool :=
  Text.sameName a.name name

/-- Changes the value. An attribute whose value was unquoted or missing gets double quotes, so that
any value can be written. -/
def setValue (a : Attribute) (value : String) : Attribute :=
  { a with
    value := some value
    operator := if a.operator = "" then "=" else a.operator
    quote := if a.quote = .none ∨ a.quote = .unquoted then .double else a.quote }

/-- The value as markup, empty where there is none. -/
def rawValue (a : Attribute) : String := a.value.getD ""

/-- The text that the value stands for. -/
def decodedValue (a : Attribute) : String := Text.unescape a.rawValue

/-- Changes the first attribute with a name, or adds one at the end. -/
def set (name value : String) : List Attribute → List Attribute
  | [] => [make name value]
  | a :: attributes =>
    if a.isNamed name then a.setValue value :: attributes else a :: set name value attributes

/-- Removes the first attribute with a name. -/
def remove (name : String) (attributes : List Attribute) : List Attribute :=
  attributes.eraseP (·.isNamed name)

end Attribute

namespace Element

/-- A new element without content. -/
def make (name : String) : Element where
  tag := { name }
  children := []
  endTag := if isVoid name then .void else .explicit ("</" ++ name ++ ">")

def name (e : Element) : String := e.tag.name

def location (e : Element) : Location := e.tag.location

def isNamed (e : Element) (name : String) : Bool := Text.sameName e.name name

def attributes (e : Element) : List Attribute := e.tag.attributes

def withAttributes (e : Element) (attributes : List Attribute) : Element :=
  { e with tag := { e.tag with attributes } }

@[simp]
theorem attributes_withAttributes (e : Element) (attributes : List Attribute) :
    (e.withAttributes attributes).attributes = attributes := rfl

def attribute? (e : Element) (name : String) : Option Attribute :=
  e.attributes.find? (·.isNamed name)

def hasAttribute (e : Element) (name : String) : Bool :=
  (e.attribute? name).isSome

/-- The value of an attribute as markup. -/
def attributeValue? (e : Element) (name : String) : Option String :=
  (e.attribute? name).map Attribute.rawValue

/-- Changes an attribute to a value that is already escaped; it keeps its place and quoting. -/
def setAttribute (e : Element) (name value : String) : Element :=
  e.withAttributes (Attribute.set name value e.attributes)

def removeAttribute (e : Element) (name : String) : Element :=
  e.withAttributes (Attribute.remove name e.attributes)

/-- Adds an attribute at the end, as it is. -/
def pushAttribute (e : Element) (a : Attribute) : Element :=
  e.withAttributes (e.attributes ++ [a])

/-- Makes room for children: an element that closes itself and is not void gets an end tag. -/
def openBody (e : Element) : Element :=
  if e.endTag = .void ∧ ¬ isVoid e.name then
    { e with
      tag := { e.tag with selfClosing := false }
      endTag := .explicit ("</" ++ e.name ++ ">") }
  else e

def appendChild (e : Element) (n : Node) : Element :=
  let e := e.openBody
  { e with children := e.children ++ [n] }

def setChildren (e : Element) (children : List Node) : Element :=
  { if children.isEmpty then e else e.openBody with children }

/-- Makes text that is already escaped the only child. -/
def setText (e : Element) (content : String) : Element :=
  e.setChildren [.ofText content]

end Element
end NaturalTemplate.Markup
