import NaturalTemplate.Processor.Dialect

/-!
# Registries

The processors of some dialects, in the order in which they are called. The order is the one of the
precedences; where they are equal it is the one of registration. Two processors with equal
precedences that match the same names cannot stand in one registry.
-/
namespace NaturalTemplate

structure Registry where
  entries : List Entry := []
  /-- The names of the dialects, in the order of registration. -/
  dialects : List String := []

namespace Registry

/-- The first two processors that conflict: of the pairs with the earliest first processor, that
with the earliest second one. -/
def firstConflict? : List Entry → Option (Entry × Entry)
  | [] => none
  | a :: entries =>
    match entries.find? a.conflictsWith with
    | some b => some (a, b)
    | none => firstConflict? entries

/-- Puts a processor before the first of those in order that it may precede. -/
def insert (a : Entry) : List Entry → List Entry
  | [] => [a]
  | b :: entries => if a.mayPrecede b then a :: b :: entries else b :: insert a entries

/-- Puts processors in order. Of two that may precede each other the one that was first stays
first. -/
def sort (entries : List Entry) : List Entry := entries.foldr insert []

def ofDialects (dialects : List Dialect) : Except EngineError Registry :=
  let entries := dialects.flatMap Dialect.entries
  match firstConflict? entries with
  | some (a, b) => .error (.conflict a.id b.id)
  | none => .ok ⟨sort entries, dialects.map Dialect.name⟩

def size (r : Registry) : Nat := r.entries.length

def isEmpty (r : Registry) : Bool := r.entries.isEmpty

/-- The ids of the processors in the order in which they are called. -/
def ids (r : Registry) : List String := r.entries.map Entry.id

end Registry
end NaturalTemplate
