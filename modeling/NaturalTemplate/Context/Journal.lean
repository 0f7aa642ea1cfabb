import NaturalTemplate.Markup.Node
import NaturalTemplate.Value

/-!
# What a run takes note of

Events are kept in the order in which they happen: a value was computed because someone asked for
it, or a processor noted where it was called or what it saw.
-/
namespace NaturalTemplate

/-- What a processor sees when it is called. -/
structure Visit where
  label : String
  element : String
  /-- The attribute that called for the processor, and the text that its value stands for. -/
  trigger : Option Markup.Attribute
  value : String
  /-- The names of the attributes that the element has now. -/
  attributes : List String
  children : Nat
  depth : Nat
deriving DecidableEq, Inhabited

inductive Event where
  /-- The value of a variable that was bound lazily was computed. -/
  | produced (name : String)
  | visited (visit : Visit)
  | observed (v : Value)
deriving Inhabited

end NaturalTemplate
