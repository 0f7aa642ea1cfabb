import NaturalTemplate.Proofs.Processing.Scopes

/-!
# Visits

A visit of an element calls its processors, and follows what they made of it: other elements are
visited inside the visit, or the same one again with fewer processors. What holds of each of these
visits, and lasts from one node to the next, holds of the whole.
-/
namespace NaturalTemplate
open Markup

variable {ev : Evaluator} {entries : List Entry}

namespace Running

theorem inScope_run {α : Type} (x : Running α) (r : Run) :
    inScope x r =
      match x { r with context := r.context.push } with
      | .ok a s => .ok a { s with context := s.context.pop }
      | .error failure s => .error failure { s with context := s.context.pop } := rfl

theorem eq_ok_of_inScope {α : Type} {x : Running α} {a : α} {r s : Run}
    (h : inScope x r = .ok a s) :
    ∃ t, x { r with context := r.context.push } = .ok a t ∧
      s = { t with context := t.context.pop } := by
  rw [inScope_run] at h
  split at h
  · next t hrun =>
    cases h
    exact ⟨t, hrun, rfl⟩
  · cases h

/-- Puts out an element around what its children become. -/
def around (e : Element) (x : Running Emitted) : Running Emitted := do
  let body ← x
  return ⟨[Element.toNode { e with children := body.nodes }], body.halt⟩

theorem around_run (e : Element) (x : Running Emitted) (r : Run) :
    around e x r =
      match x r with
      | .ok body s => .ok ⟨[Element.toNode { e with children := body.nodes }], body.halt⟩ s
      | .error failure s => .error failure s := by
  show EStateM.bind x _ r = _
  unfold EStateM.bind
  cases x r <;> rfl

theorem eq_ok_of_around {e : Element} {x : Running Emitted} {emitted : Emitted} {r s : Run}
    (h : around e x r = .ok emitted s) :
    ∃ body, x r = .ok body s ∧
      emitted = ⟨[Element.toNode { e with children := body.nodes }], body.halt⟩ := by
  rw [around_run] at h
  split at h
  · next body t hbody =>
    cases h
    exact ⟨body, hbody, rfl⟩
  · cases h

theorem andThen_of_eq_ok {x y : Running Emitted} {first : List Node} {r s : Run}
    (h : x r = .ok ⟨first, none⟩ s) :
    andThen x y r =
      match y s with
      | .ok second t => .ok ⟨first ++ second.nodes, second.halt⟩ t
      | .error failure t => .error failure t := by
  rw [andThen_run, h]
  rfl

/-- Two parts of a run succeed if the first halts the template, or both succeed. -/
theorem eq_ok_of_andThen {x y : Running Emitted} {emitted : Emitted} {r s : Run}
    (h : andThen x y r = .ok emitted s) :
    emitted.halt.isSome = true ∧ x r = .ok emitted s ∨
      ∃ first t second, x r = .ok ⟨first, none⟩ t ∧ y t = .ok second s ∧
        emitted = ⟨first ++ second.nodes, second.halt⟩ := by
  cases hx : x r with
  | error failure t =>
    rw [andThen_run, hx] at h
    cases h
  | ok first t =>
    obtain ⟨first, halt⟩ := first
    cases halt with
    | some halt =>
      rw [andThen_run, hx] at h
      cases h
      exact .inl ⟨rfl, rfl⟩
    | none =>
      rw [andThen_of_eq_ok hx] at h
      cases hy : y t with
      | error failure u =>
        rw [hy] at h
        cases h
      | ok second u =>
        rw [hy] at h
        cases h
        exact .inr ⟨first, t, second, rfl, hy, rfl⟩

end Running

/-- Text stays text. -/
theorem eq_ok_of_emitText {content : String} {l : Location} {emitted : Emitted} {r s : Run}
    (h : emitText ev content l r = .ok emitted s) :
    ∃ written, emitted = ⟨[.text written l], none⟩ := by
  rw [emitText_run] at h
  dsimp only at h
  split at h
  · split at h <;> cases h
    exact ⟨_, rfl⟩
  · cases h
    exact ⟨_, rfl⟩

/-- What is done with one node. -/
def emitNode (ev : Evaluator) (visit : Element → Running Emitted) : Node → Running Emitted
  | .element tag children endTag => visit ⟨tag, children, endTag⟩
  | .text content location => emitText ev content location
  | n => pure ⟨[n], none⟩

theorem emitAll_cons (visit : Element → Running Emitted) (n : Node) (nodes : List Node) :
    emitAll ev visit (n :: nodes) =
      Running.andThen (emitNode ev visit n) (emitAll ev visit nodes) := by
  cases n <;> rfl

/-- What is done in the scope of an item of a repetition. -/
def Context.bindItem (binding status : String) (s : IterationStatus) (c : Context) : Context :=
  (c.setLocal binding s.current).setLocal status s.toValue

namespace Outcome

/-- What is done after the processors of an element were called; `again` visits an element with the
processors that are pending for it. -/
def follow (ev : Evaluator) (entries : List Entry)
    (again : List Entry → Element → Running Emitted) : Outcome → Running Emitted
  | keep e false => pure ⟨[e.toNode], none⟩
  | keep e true => Running.around e (emitAll ev (again entries) e.children)
  | drop => pure {}
  | splice nodes => emitAll ev (again entries) nodes
  | iterate e pending items binding status =>
    emitItems (again pending e) binding status items.length 0 items
  | halt h => pure ⟨[], some h⟩

/-- The nodes that are processed with all processors. -/
def inside : Outcome → List Node
  | keep e true => e.children
  | splice nodes => nodes
  | _ => []

/-- The visits that are made inside the visit of an element, each with the processors that are
pending in it. -/
def visits (entries : List Entry) : Outcome → List (List Entry × Element)
  | iterate e pending items _ _ => items.map fun _ => (pending, e)
  | outcome => (outcome.inside.filterMap Node.element?).map fun e => (entries, e)

end Outcome

/-- A visit calls the processors of the element, and follows what they made of it. -/
theorem visit_succ (fuel : Nat) (pending : List Entry) (e : Element) :
    visit ev entries (fuel + 1) pending e =
      Running.inScope
        (settle ev pending true e >>= Outcome.follow ev entries (visit ev entries fuel)) := by
  rw [visit]
  refine congrArg Running.inScope (congrArg _ (funext fun outcome => ?_))
  cases outcome with
  | keep e children => cases children <;> rfl
  | _ => rfl

theorem eq_ok_of_visit {fuel : Nat} {pending : List Entry} {e : Element} {emitted : Emitted}
    {r s : Run} (h : visit ev entries (fuel + 1) pending e r = .ok emitted s) :
    ∃ outcome t u, settle ev pending true e { r with context := r.context.push } = .ok outcome t ∧
      outcome.follow ev entries (visit ev entries fuel) t = .ok emitted u ∧
      s = { u with context := u.context.pop } := by
  rw [visit_succ] at h
  obtain ⟨u, hrun, rfl⟩ := Running.eq_ok_of_inScope h
  obtain ⟨outcome, t, hsettle, hfollow⟩ := eq_ok_of_bind hrun
  exact ⟨outcome, t, u, hsettle, hfollow, rfl⟩

theorem emitAll_congr {visit visit' : Element → Running Emitted} {nodes : List Node}
    (h : ∀ e ∈ nodes.filterMap Node.element?, visit e = visit' e) :
    emitAll ev visit nodes = emitAll ev visit' nodes := by
  induction nodes with
  | nil => rfl
  | cons n nodes ih =>
    cases n with
    | element tag children endTag =>
      obtain ⟨hhere, hrest⟩ := List.forall_mem_cons.mp h
      simp only [emitAll, hhere, ih hrest]
    | _ => simp only [emitAll, ih h]

/-- What follows depends on the visits that are made. -/
theorem Outcome.follow_congr {again again' : List Entry → Element → Running Emitted}
    {outcome : Outcome} (h : ∀ y ∈ outcome.visits entries, again y.1 y.2 = again' y.1 y.2) :
    outcome.follow ev entries again = outcome.follow ev entries again' := by
  have hall {nodes : List Node}
      (h : ∀ y ∈ (nodes.filterMap Node.element?).map fun e => (entries, e),
        again y.1 y.2 = again' y.1 y.2) :
      emitAll ev (again entries) nodes = emitAll ev (again' entries) nodes :=
    emitAll_congr fun e he => h (entries, e) (List.mem_map_of_mem he)
  cases outcome with
  | keep e children =>
    cases children with
    | false => rfl
    | true => exact congrArg (Running.around e) (hall h)
  | splice nodes => exact hall h
  | iterate e pending items binding status =>
    cases items with
    | nil => rfl
    | cons item items => simp only [follow, h (pending, e) List.mem_cons_self]
  | _ => rfl

theorem bind_congr_of_ok {ε σ α β : Type} {x : EStateM ε σ α} {f g : α → EStateM ε σ β}
    (h : ∀ r a s, x r = .ok a s → f a s = g a s) : x >>= f = x >>= g := by
  funext r
  show EStateM.bind x f r = EStateM.bind x g r
  unfold EStateM.bind
  cases hx : x r with
  | ok a s => exact h r a s hx
  | error failure s => rfl

/-! ## What holds of all parts -/

/-- A property that holds of the parts of a run that put out a node that is not an element, and
lasts while nodes and the items of a repetition follow each other. -/
structure Running.Closed (ev : Evaluator) (P : Running Emitted → Prop) : Prop where
  nothing : P (pure {})
  leaf {n : Node} (h : n.element? = none) : P (pure ⟨[n], none⟩)
  text (content : String) (l : Location) : P (emitText ev content l)
  andThen {x y : Running Emitted} (hx : P x) (hy : P y) : P (Running.andThen x y)
  item {x : Running Emitted} (hx : P x) (f : Context → Context) :
    P (Running.inScope do
      Running.changeContext f
      x)

namespace Running.Closed

variable {P : Running Emitted → Prop}

theorem emitAll (h : Closed ev P) {visit : Element → Running Emitted} {nodes : List Node}
    (hvisit : ∀ e ∈ nodes.filterMap Node.element?, P (visit e)) : P (emitAll ev visit nodes) := by
  induction nodes with
  | nil => exact h.nothing
  | cons n nodes ih =>
    cases n with
    | element tag children endTag =>
      obtain ⟨hhere, hrest⟩ := List.forall_mem_cons.mp hvisit
      exact h.andThen hhere (ih hrest)
    | text content l => exact h.andThen (h.text content l) (ih hvisit)
    | _ => exact h.andThen (h.leaf rfl) (ih hvisit)

theorem emitItems (h : Closed ev P) {body : Running Emitted} (hbody : P body)
    (binding status : String) (size index : Nat) (items : List Value) :
    P (emitItems body binding status size index items) := by
  induction items generalizing index with
  | nil => exact h.nothing
  | cons item items ih => exact h.andThen (h.item hbody _) (ih _)

/-- What holds of whatever is put out at once, and lasts when an element is put around it, holds of
what is done after the processors of an element were called. The template is halted only if they
asked for it. -/
theorem follow (h : Closed ev P) {outcome : Outcome}
    (hpure : ∀ emitted, (∀ halt ∈ emitted.halt, outcome = .halt halt) → P (pure emitted))
    (haround : ∀ e x, P x → P (Running.around e x))
    {again : List Entry → Element → Running Emitted}
    (hvisit : ∀ y ∈ outcome.visits entries, P (again y.1 y.2)) :
    P (outcome.follow ev entries again) := by
  have hall {nodes : List Node}
      (hvisit : ∀ y ∈ (nodes.filterMap Node.element?).map fun e => (entries, e),
        P (again y.1 y.2)) : P (NaturalTemplate.emitAll ev (again entries) nodes) :=
    h.emitAll fun e he => hvisit (entries, e) (List.mem_map_of_mem he)
  cases outcome with
  | keep e children =>
    cases children with
    | false => exact hpure _ nofun
    | true => exact haround e _ (hall hvisit)
  | splice nodes => exact hall hvisit
  | iterate e pending items binding status =>
    cases items with
    | nil => exact h.nothing
    | cons item items => exact h.emitItems (hvisit (pending, e) List.mem_cons_self) _ _ _ _ _
  | drop => exact hpure _ nofun
  | halt h => exact hpure _ fun halt hhalt => by rw [Option.mem_some.mp hhalt]

end Running.Closed
end NaturalTemplate
