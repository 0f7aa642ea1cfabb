import NaturalTemplate.Markup.Name
import NaturalTemplate.Markup.Token

/-!
# Nodes

The tree of a document. It keeps what it takes to write the document as it was: the spacing and
quoting of attributes, the text of end tags, and whether an end tag was written at all. Text is kept
as markup; its character references are not decoded.
-/
namespace NaturalTemplate.Markup

structure Attribute where
  /-- The space before the name. -/
  leading : String
  name : String
  /-- The equals sign with the space around it, empty where there is no value. -/
  operator : String
  value : Option String
  quote : Quote
  location : Location := {}
deriving DecidableEq, Inhabited

/-- How the end tag of an element was written. -/
inductive EndTag where
  /-- Written out, with this text. -/
  | explicit (raw : String)
  /-- Not written; the element was closed by what came after it. -/
  | implicit
  /-- There is none, as the element is void or its start tag closes itself. -/
  | void
deriving DecidableEq, Inhabited

/-- The start tag of an element. -/
structure Tag where
  name : String
  attributes : List Attribute := []
  /-- The space after the last attribute. -/
  trailing : String := ""
  selfClosing : Bool := false
  location : Location := {}
deriving DecidableEq, Inhabited

inductive Node where
  | element (tag : Tag) (children : List Node) (endTag : EndTag)
  | text (content : String) (location : Location)
  | comment (content : String) (location : Location)
  | cdata (content : String) (location : Location)
  | docType (content : String) (location : Location)
  | instruction (content : String) (location : Location)
  /-- An end tag without an open element, as it was written. -/
  | unmatched (raw : String) (location : Location)
deriving Inhabited

structure Element where
  tag : Tag
  children : List Node
  endTag : EndTag
deriving Inhabited

def Element.toNode (e : Element) : Node := .element e.tag e.children e.endTag

namespace Node

def element? : Node → Option Element
  | element tag children endTag => some ⟨tag, children, endTag⟩
  | _ => none

@[simp]
theorem element?_toNode (e : Element) : element? e.toNode = some e := rfl

theorem eq_toNode_of_element? {n : Node} {e : Element} (h : n.element? = some e) :
    n = e.toNode := by
  cases n <;> simp_all [element?, Element.toNode]
  simp [← h]

def location : Node → Location
  | element tag _ _ => tag.location
  | text _ l | comment _ l | cdata _ l | docType _ l | instruction _ l | unmatched _ l => l

/-- Text made by a program rather than read. -/
def ofText (content : String) : Node := .text content {}

/-- Whether a node is text of nothing but white space. -/
def isBlank : Node → Bool
  | text content _ => content.toList.all Text.isBlank
  | _ => false

mutual

/-- The number of nodes in a tree. -/
def size : Node → Nat
  | element _ children _ => sizeAll children + 1
  | _ => 1

/-- The number of nodes in several trees. -/
def sizeAll : List Node → Nat
  | [] => 0
  | n :: ns => n.size + sizeAll ns

end

theorem size_pos (n : Node) : 0 < n.size := by
  cases n <;> simp [size]

theorem sizeAll_append (ns ms : List Node) : sizeAll (ns ++ ms) = sizeAll ns + sizeAll ms := by
  induction ns with
  | nil => simp [sizeAll]
  | cons n ns ih => simp [sizeAll, ih, Nat.add_assoc]

/-- The elements of trees that still have to be walked, in document order: the first node is taken
off, and the children of an element are walked before the nodes after it. -/
def elements : List Node → List Element
  | [] => []
  | element tag children endTag :: rest => ⟨tag, children, endTag⟩ :: elements (children ++ rest)
  | _ :: rest => elements rest
termination_by ns => sizeAll ns
decreasing_by
  · simp only [sizeAll_append, sizeAll, size]
    omega
  · simp only [sizeAll]
    have := size_pos (by assumption)
    omega

end Node

/-- A parsed document: its nodes at the top level. -/
structure Document where
  nodes : List Node := []
deriving Inhabited

/-- All elements of a document, in document order. -/
def Document.elements (d : Document) : List Element := Node.elements d.nodes

end NaturalTemplate.Markup
