import NaturalTemplate.Processing.Run

/-!
# Calling the processors of an element

Among the processors that match an element as it stands, the first that was not called for it before
is called, again and again, until none is left or a directive says otherwise. As no processor is
called twice, this comes to an end.
-/
namespace NaturalTemplate
open Markup

/-- The error of a processor, with the processor and the place. Errors that say where they belong
are left as they are. -/
def EngineError.attributed (id : String) (location : Location) : EngineError → EngineError
  | parse cause => parse cause
  | halted location output => halted location output
  | expression text cause => expression text cause
  | processing processor location message => processing processor location message
  | cause => processing id location cause.message

/-- Removes attributes by name, one after the other. The result has those that were there. -/
def takeAttributes (e : Element) : List String → List Attribute × Element
  | [] => ([], e)
  | name :: names =>
    let (taken, rest) := takeAttributes (e.removeAttribute name) names
    ((e.attribute? name).toList ++ taken, rest)

namespace Entry

/-- The first processor that matches an element, and the others. -/
def next? (e : Element) : List Entry → Option (Entry × List Entry)
  | [] => none
  | p :: ps =>
    if p.target.matches? e then some (p, ps)
    else (next? e ps).map fun (found, others) => (found, p :: others)

theorem length_of_next? {e : Element} {pending others : List Entry} {p : Entry}
    (h : next? e pending = some (p, others)) : others.length < pending.length := by
  induction pending generalizing others with
  | nil => simp [next?] at h
  | cons q qs ih =>
    simp only [next?] at h
    split at h
    · simp only [Option.some.injEq, Prod.mk.injEq] at h
      simp [h.2]
    · obtain ⟨⟨found, rest⟩, hnext, heq⟩ := Option.map_eq_some_iff.mp h
      simp only [Prod.mk.injEq] at heq
      obtain ⟨rfl, rfl⟩ := heq
      simpa using ih hnext

/-- Calls a processor for an element, which loses the attributes that called for it. -/
def call (ev : Evaluator) (p : Entry) (e : Element) : Running (Directive × Element) := do
  let (taken, rest) := takeAttributes e (p.target.claimed e)
  let context := (← get).context
  match p.processor.run ⟨ev, taken.head?⟩ ⟨rest, context⟩ with
  | .ok directive w =>
    Running.changeContext fun _ => w.context
    Running.record (.called p ⟨e, context⟩ (.ok directive))
    return (directive, w.element)
  | .error cause w =>
    let cause := cause.attributed p.id e.location
    Running.changeContext fun _ => w.context
    Running.record (.called p ⟨e, context⟩ (.error cause))
    throw (.error cause)

end Entry

/-- What the processors of an element made of it. -/
inductive Outcome where
  /-- It stays, and its children are processed unless they are to be left as they are. -/
  | keep (e : Element) (children : Bool)
  | drop
  /-- Other nodes take its place. -/
  | splice (nodes : List Node)
  /-- It is processed once for every item, by the processors that were not called yet. -/
  | iterate (e : Element) (pending : List Entry) (items : List Value) (binding status : String)
  | halt (h : Halt)

/-- Calls the processors that are pending for an element. Whether its children are to be processed
is known from those that were called before. -/
def settle (ev : Evaluator) (pending : List Entry) (children : Bool) (e : Element) :
    Running Outcome :=
  match _ : Entry.next? e pending with
  | none => return .keep e children
  | some (p, others) => do
    match ← p.call ev e with
    | (.proceed, e) => settle ev others children e
    | (.skipChildren, e) => settle ev others false e
    | (.removeNode, _) => return .drop
    | (.removeBody, e) => return .keep (e.setChildren []) false
    | (.replace nodes, _) => return .splice nodes
    | (.iterate items binding status, e) =>
      return .iterate e others items binding (status.getD (IterationStatus.defaultName binding))
    | (.halt earlyExit, _) => return .halt ⟨e.location, earlyExit⟩
termination_by pending.length
decreasing_by all_goals exact Entry.length_of_next? ‹_›

end NaturalTemplate
