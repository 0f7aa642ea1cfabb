import NaturalTemplate.Markup.Node
import NaturalTemplate.Value

/-!
# Directives

What a processor wants to be done with the element that it was called for, and what the body of a
repetition can see of it.
-/
namespace NaturalTemplate

inductive Directive where
  /-- Go on with the next processor. -/
  | proceed
  /-- Drop the element with all that is in it. -/
  | removeNode
  /-- Keep the element without its children, and call no further processor for it. -/
  | removeBody
  /-- Put other nodes in its place. They are processed like nodes of the template. -/
  | replace (nodes : List Markup.Node)
  /-- Process the element once for every item. The name of the status can be left to the binding. -/
  | iterate (items : List Value) (binding : String) (status : Option String)
  /-- Go on with the next processor, but leave the children as they are. -/
  | skipChildren
  /-- End the processing of the template. -/
  | halt (earlyExit : Bool)
deriving Inhabited

/-- How far a repetition has come. -/
structure IterationStatus where
  index : Nat
  size : Nat
  current : Value
deriving Inhabited

namespace IterationStatus

/-- The place of the item, counted from one. -/
def count (s : IterationStatus) : Nat := s.index + 1

def isFirst (s : IterationStatus) : Bool := s.index == 0

def isLast (s : IterationStatus) : Bool := s.count == s.size

def isEven (s : IterationStatus) : Bool := s.count % 2 == 0

/-- The status as expressions see it. -/
def toValue (s : IterationStatus) : Value :=
  .ofEntries [("index", .ofNat s.index), ("count", .ofNat s.count), ("size", .ofNat s.size),
    ("current", s.current), ("first", .bool s.isFirst), ("last", .bool s.isLast),
    ("even", .bool s.isEven), ("odd", .bool !s.isEven)]

/-- The name of the status of a binding that has none of its own. -/
def defaultName (binding : String) : String := binding ++ "Stat"

end IterationStatus
end NaturalTemplate
