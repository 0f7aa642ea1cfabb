import NaturalTemplate.Markup.Node

/-!
# Elements one by one

A walk hands out the elements of a document as it is asked for them. It keeps the nodes it has still
to come to on a stack; when it meets an element, the children of the element go on top of those.
-/
namespace NaturalTemplate.Markup

structure ElementWalk where
  /-- The nodes that are still to be walked, the next one last. -/
  stack : Array Node := #[]
deriving Inhabited

namespace ElementWalk

def ofNodes (ns : List Node) : ElementWalk := ⟨ns.reverse.toArray⟩

/-- Asks for the next element. -/
def next (w : ElementWalk) : Option Element × ElementWalk :=
  match _ : w.stack.back? with
  | none => (none, w)
  | some n =>
    match n.element? with
    | some e => (some e, ⟨w.stack.pop ++ e.children.reverse⟩)
    | none => next ⟨w.stack.pop⟩
termination_by w.stack.size
decreasing_by
  have hpos : 0 < w.stack.size := Array.size_pos_of_mem (Array.mem_of_back? ‹_›)
  simp only [Array.size_pop]
  omega

/-- What the walk gives after it was asked so many times before. -/
def answer (w : ElementWalk) : Nat → Option Element
  | 0 => w.next.1
  | n + 1 => w.next.2.answer n

end ElementWalk

/-- Walks the elements of a document. -/
def Document.walk (d : Document) : ElementWalk := .ofNodes d.nodes

end NaturalTemplate.Markup
