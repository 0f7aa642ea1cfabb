import NaturalTemplate.Expression.Inline
import NaturalTemplate.Processing.Settle
import NaturalTemplate.Processor.Registry

/-!
# Processing nodes

Nodes are processed in document order. An element is processed in a scope of its own: first its
processors are called, then its children are processed. Once the template is halted no further node
is looked at, but the elements around the one that halted it stay, with what they have so far.
-/
namespace NaturalTemplate
open Markup

/-- Text as it is written: where expressions in text are expanded, with their values. -/
def emitText (ev : Evaluator) (content : String) (location : Location) : Running Emitted := do
  let inlining := (← get).context.isInlining
  Running.changeContext fun c => c.touch Context.inliningName
  if inlining then
    let (result, context) := Inline.expand? ev content (← get).context
    Running.changeContext fun _ => context
    Running.record (.expanded content)
    let expanded ← Running.ofExcept result
    return ⟨[.text (expanded.getD content) location], none⟩
  else return ⟨[.text content location], none⟩

/-- Processes nodes; `visit` is what is done with an element. -/
def emitAll (ev : Evaluator) (visit : Element → Running Emitted) : List Node → Running Emitted
  | [] => return {}
  | n :: ns =>
    Running.andThen
      (match n with
        | .element tag children endTag => visit ⟨tag, children, endTag⟩
        | .text content location => emitText ev content location
        | n => return ⟨[n], none⟩)
      (emitAll ev visit ns)

/-- Does something for every item of a repetition, in a scope that binds the item and the status. -/
def emitItems (body : Running Emitted) (binding status : String) (size : Nat) :
    Nat → List Value → Running Emitted
  | _, [] => return {}
  | index, item :: items =>
    Running.andThen
      (Running.inScope do
        Running.changeContext fun c =>
          (c.setLocal binding item).setLocal status (IterationStatus.toValue ⟨index, size, item⟩)
        body)
      (emitItems body binding status size (index + 1) items)

/-- Processes an element with the processors that are pending for it. Elements inside it, and those
that are put in its place, are processed with all `entries`. The fuel bounds how deep visits are
nested. -/
def visit (ev : Evaluator) (entries : List Entry) : Nat → List Entry → Element → Running Emitted
  | 0, _, _ => throw .tooDeep
  | fuel + 1, pending, e =>
    Running.inScope do
      match ← settle ev pending true e with
      | .keep e false => return ⟨[e.toNode], none⟩
      | .keep e true =>
        let body ← emitAll ev (visit ev entries fuel entries) e.children
        return ⟨[Element.toNode { e with children := body.nodes }], body.halt⟩
      | .drop => return {}
      | .splice nodes => emitAll ev (visit ev entries fuel entries) nodes
      | .iterate e pending items binding status =>
        emitItems (visit ev entries fuel pending e) binding status items.length 0 items
      | .halt h => return ⟨[], some h⟩

namespace Registry

/-- How deep elements that processors put in may stand inside each other. -/
def insertionDepth : Nat := 100000

/-- Enough for all that an element leads to by itself, as a visit inside another one has fewer
nodes, or the same ones and fewer processors; and some more for what processors put in. -/
def fuel (r : Registry) (e : Element) : Nat :=
  (e.toNode.size + 1) * (r.size + 1) + insertionDepth

/-- Processes nodes with all processors. -/
def emit (r : Registry) (ev : Evaluator) (nodes : List Node) : Running Emitted :=
  emitAll ev (fun e => visit ev r.entries (r.fuel e) r.entries e) nodes

end Registry
end NaturalTemplate
