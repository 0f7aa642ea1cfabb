import NaturalTemplate.Processor

/-!
# Dialects

A dialect gives its processors a common qualifier: with the qualifier `th`, the rule for the
attribute `text` matches the attributes `th:text` and `data-th-text`, and the rule for the element
`block` matches the element `th:block`. Without a qualifier the names stand alone.
-/
namespace NaturalTemplate
open Markup

structure Dialect where
  name : String
  qualifier : String
  precedence : Int
  processors : List Processor

/-- The names that a rule matches in its dialect, with ASCII letters in lower case. -/
inductive Target where
  | attribute (qualified data : List Char)
  | element (name : List Char)
deriving DecidableEq, Inhabited

namespace Target

/-- A name as it stands in markup, after the qualifier of its dialect. -/
def qualify (qualifier name : String) (mark : Char) : List Char :=
  if qualifier = "" then name.toList else qualifier.toList ++ mark :: name.toList

def ofRule (qualifier : String) : Rule → Target
  | .attribute name =>
    .attribute (Text.fold (qualify qualifier name ':'))
      (Text.fold ("data-".toList ++ qualify qualifier name '-'))
  | .element name => .element (Text.fold (qualify qualifier name ':'))

/-- Whether an attribute calls for the processor. -/
def claims : Target → Attribute → Bool
  | .attribute qualified data, a =>
    let name := Text.fold a.name.toList
    name == qualified || name == data
  | .element _, _ => false

/-- The names of the attributes that call for the processor, in document order. -/
def claimed (t : Target) (e : Element) : List String :=
  (e.attributes.filter t.claims).map Attribute.name

def matches? : Target → Element → Bool
  | t@(.attribute ..), e => e.attributes.any t.claims
  | .element name, e => Text.fold e.name.toList == name

end Target

/-- A processor as it is found by those who look for one to call. -/
structure Entry where
  id : String
  dialectPrecedence : Int
  target : Target
  processor : Processor

namespace Entry

/-- Whether neither of two processors comes before the other although they match the same names. -/
def conflictsWith (a b : Entry) : Bool :=
  a.dialectPrecedence == b.dialectPrecedence &&
    a.processor.precedence == b.processor.precedence && a.target == b.target

/-- Whether a processor may stand before another: by the precedence of the dialects, then by their
own. -/
def mayPrecede (a b : Entry) : Bool :=
  a.dialectPrecedence < b.dialectPrecedence ||
    a.dialectPrecedence == b.dialectPrecedence &&
      a.processor.precedence ≤ b.processor.precedence

end Entry

def Dialect.entries (d : Dialect) : List Entry :=
  d.processors.map fun p =>
    ⟨d.name ++ ":" ++ p.name, d.precedence, .ofRule d.qualifier p.rule, p⟩

end NaturalTemplate
