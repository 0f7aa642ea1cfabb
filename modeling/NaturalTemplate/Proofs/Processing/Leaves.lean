import NaturalTemplate.Proofs.Markup.Elements
import NaturalTemplate.Proofs.Processing.Made

/-!
# What visits leave

A visit leaves its element as the processors made it, or with what its children became, or it leaves
what is left of the clones of the element. What nodes put out comes from the elements among them.
-/
namespace NaturalTemplate
open Markup

variable {ev : Evaluator} {entries : List Entry}

/-- Whether an element is what a visit leaves of its own. -/
inductive Visiting.Leaves (ev : Evaluator) (entries : List Entry) : Visiting → Element → Prop where
  | asMade {v : Visiting} {e : Element} {s : Run} (hfuel : v.fuel ≠ 0)
    (hsettled : v.settled ev = .ok (.keep e false) s) : Leaves ev entries v e
  | withBody {v : Visiting} {e : Element} {s t : Run} {fuel : ℕ} {body : Emitted}
    (hfuel : v.fuel = fuel + 1) (hsettled : v.settled ev = .ok (.keep e true) s)
    (hbody : emitAll ev (visit ev entries fuel entries) e.children s = .ok body t) :
    Leaves ev entries v { e with children := body.nodes }
  | ofClone {v w : Visiting} {e : Element} (hclone : Clones ev entries v w)
    (h : Leaves ev entries w e) : Leaves ev entries v e

/-- Whether processing nodes leaves an element of one that it visits. -/
inductive Registry.Leaves (r : Registry) (ev : Evaluator) (nodes : List Node) (start : Run)
    (e e' : Element) : Prop where
  | intro {v : Visiting} (hmakes : r.Makes ev nodes start v) (hpending : v.pending = r.entries)
    (helement : v.element = e) (h : v.Leaves ev r.entries e')

/-! ## Where elements come from that are put out -/

section
variable {nodes : List Node} {emitted : Emitted} {r s : Run} {x : Element}

theorem eq_toNode_of_mem_emitNode {visit : Element → Running Emitted} {n : Node}
    (h : emitNode ev visit n r = .ok emitted s) (hx : x ∈ Node.elements emitted.nodes) :
    ∃ e, n = Element.toNode e ∧ visit e r = .ok emitted s := by
  cases n with
  | element tag children endTag => exact ⟨⟨tag, children, endTag⟩, rfl, h⟩
  | text content l =>
    obtain ⟨written, rfl⟩ := eq_ok_of_emitText h
    rw [Node.elements_leaf rfl] at hx
    cases hx
  | _ =>
    cases h
    rw [Node.elements_leaf rfl] at hx
    cases hx

/-- An element that nodes put out is put out by the visit of one of them. -/
theorem exists_of_mem_emitAll {visit : Element → Running Emitted}
    (h : emitAll ev visit nodes r = .ok emitted s) (hx : x ∈ Node.elements emitted.nodes) :
    ∃ before e after first t inner u, nodes = before ++ Element.toNode e :: after ∧
      emitAll ev visit before r = .ok ⟨first, none⟩ t ∧ visit e t = .ok inner u ∧
      x ∈ Node.elements inner.nodes := by
  induction nodes generalizing r emitted with
  | nil =>
    cases h
    rw [Node.elements_nil] at hx
    cases hx
  | cons n nodes ih =>
    rw [emitAll_cons] at h
    obtain ⟨-, hfirst⟩ | ⟨first, t, second, hfirst, hrest, rfl⟩ := Running.eq_ok_of_andThen h
    · obtain ⟨e, rfl, hvisit⟩ := eq_toNode_of_mem_emitNode hfirst hx
      exact ⟨[], e, nodes, [], r, emitted, s, rfl, rfl, hvisit, hx⟩
    · rw [Node.elements_append, List.mem_append] at hx
      obtain hx | hx := hx
      · obtain ⟨e, rfl, hvisit⟩ := eq_toNode_of_mem_emitNode hfirst hx
        exact ⟨[], e, nodes, [], r, ⟨first, none⟩, t, rfl, rfl, hvisit, hx⟩
      · obtain ⟨before, e, after, first', u, inner, w, rfl, hbefore, hvisit, hx⟩ := ih hrest hx
        refine ⟨n :: before, e, after, first ++ first', u, inner, w, rfl, ?_, hvisit, hx⟩
        rw [emitAll_cons, Running.andThen_of_eq_ok hfirst, hbefore]

/-- An element that a repetition puts out is put out for one of its items. -/
theorem exists_of_mem_emitItems {body : Running Emitted} {binding status : String}
    {size index : ℕ} {items : List Value}
    (h : emitItems body binding status size index items r = .ok emitted s)
    (hx : x ∈ Node.elements emitted.nodes) :
    ∃ done item rest first t inner u, items = done ++ item :: rest ∧
      emitItems body binding status size index done r = .ok ⟨first, none⟩ t ∧
      body { t with
          context := t.context.push.bindItem binding status ⟨index + done.length, size, item⟩ } =
        .ok inner u ∧
      x ∈ Node.elements inner.nodes := by
  induction items generalizing index r emitted with
  | nil =>
    cases h
    rw [Node.elements_nil] at hx
    cases hx
  | cons item items ih =>
    obtain ⟨-, hfirst⟩ | ⟨first, t, second, hfirst, hrest, rfl⟩ := Running.eq_ok_of_andThen h
    · obtain ⟨u, hbody, -⟩ := Running.eq_ok_of_inScope hfirst
      exact ⟨[], item, items, [], r, emitted, u, rfl, rfl, hbody, hx⟩
    · rw [Node.elements_append, List.mem_append] at hx
      obtain hx | hx := hx
      · obtain ⟨u, hbody, -⟩ := Running.eq_ok_of_inScope hfirst
        exact ⟨[], item, items, [], r, ⟨first, none⟩, u, rfl, rfl, hbody, hx⟩
      · obtain ⟨done, item', rest, first', t', inner, u, rfl, hdone, hbody, hx⟩ := ih hrest hx
        refine ⟨item :: done, item', rest, first ++ first', t', inner, u, rfl, ?_, ?_, hx⟩
        · rw [emitItems, Running.andThen_of_eq_ok hfirst, hdone]
        · rw [List.length_cons, Nat.add_comm done.length 1, ← Nat.add_assoc]
          exact hbody

end
end NaturalTemplate
