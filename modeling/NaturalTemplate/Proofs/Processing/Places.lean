import NaturalTemplate.Proofs.Processing.Calls

/-!
# Visits and places

A place in a tree is told from the inside out: the number of an element among the nodes that it
stands with, and behind it the place of the element around them. So two elements can be told apart
that are the same but for where they stand. A visit of an element at a place makes visits of the
clones of the element, at the same place, and of the elements inside it, or among the nodes that
take its place, at the places inside.
-/
namespace NaturalTemplate
open Markup

variable {ev : Evaluator} {entries : List Entry}

namespace Visiting

/-- Whether a visit of the element at a place makes another one, with the place of its element. -/
inductive StepAt (ev : Evaluator) (entries : List Entry) :
    List ℕ × Visiting → List ℕ × Visiting → Prop where
  | clone {place : List ℕ} {v w : Visiting} (h : Clones ev entries v w) :
    StepAt ev entries (place, v) (place, w)
  | inside {place : List ℕ} {v w : Visiting} {outcome : Outcome} {s : Run}
    {first before after : List Node} (hfuel : v.fuel = w.fuel + 1) (hpending : w.pending = entries)
    (hsettled : v.settled ev = .ok outcome s)
    (hnodes : outcome.inside = before ++ w.element.toNode :: after)
    (hbefore : emitAll ev (visit ev entries w.fuel entries) before s =
      .ok ⟨first, none⟩ w.start) :
    StepAt ev entries (place, v) (before.length :: place, w)

/-- Whether a visit of the element at a place makes another one, at any depth. -/
def MakesAt (ev : Evaluator) (entries : List Entry) :
    List ℕ × Visiting → List ℕ × Visiting → Prop :=
  Relation.ReflTransGen (StepAt ev entries)

theorem MakesAt.makes {x y : List ℕ × Visiting} (h : MakesAt ev entries x y) :
    Makes ev entries x.2 y.2 := by
  refine Relation.ReflTransGen.lift Prod.snd (fun x y hstep => ?_) x y h
  cases hstep with
  | clone h => exact .inl h
  | inside hfuel hpending hsettled hnodes hbefore =>
    exact .inr (.intro hfuel hpending hsettled hnodes hbefore)

end Visiting

/-- Whether processing nodes makes a visit of the element at a place. -/
inductive Registry.MakesAt (r : Registry) (ev : Evaluator) (nodes : List Node) (start : Run)
    (place : List ℕ) (v : Visiting) : Prop where
  | intro {e : Element} {s : Run} {first before after : List Node}
    (hnodes : nodes = before ++ e.toNode :: after)
    (hbefore : r.emit ev before start = .ok ⟨first, none⟩ s)
    (hmakes : Visiting.MakesAt ev r.entries ([before.length], ⟨r.fuel e, r.entries, e, s⟩)
      (place, v))

theorem Registry.MakesAt.makes {r : Registry} {nodes : List Node} {start : Run} {place : List ℕ}
    {v : Visiting} (h : r.MakesAt ev nodes start place v) : r.Makes ev nodes start v := by
  obtain ⟨hnodes, hbefore, hmakes⟩ := h
  exact .intro hnodes hbefore hmakes.makes

end NaturalTemplate
