import NaturalTemplate.Proofs.Markup.Elements
import NaturalTemplate.Proofs.Standard.Placement

/-!
# What lasts while the standard processors work

What holds of an element lasts if it lasts while attributes with assignable names are set and
removed, the body is set to a text, and all elements but the first are taken from the children. The
standard processors do nothing else to an element.
-/
namespace NaturalTemplate.Standard
open Markup

variable {ev : Evaluator} {assignable : Set String} {P Q : Element → Prop}

theorem elements_bodyNodes (body : String) : Node.elements (bodyNodes body) = [] := by
  unfold bodyNodes
  split
  · exact Node.elements_nil
  · exact Node.elements_leaf rfl

theorem keepFirstElement_sublist (ns : List Node) : (keepFirstElement ns).Sublist ns := by
  induction ns with
  | nil => exact .slnil
  | cons n ns ih =>
    rw [keepFirstElement]
    split
    · exact List.filter_sublist.cons_cons n
    · exact ih.cons_cons n

theorem mem_processors_of_mem_registry {p : Entry} (hp : p ∈ registry.entries) :
    p.processor ∈ processors :=
  mem_processors_of_mem_entries (mem_entries_of_ofDialects ofDialects_dialect p hp)

/-! ## What lasts -/

/-- A property of elements that lasts while a standard processor works. -/
structure Stable (assignable : Set String) (P : Element → Prop) : Prop where
  setAttribute {e : Element} (h : P e) {name : String} (hname : name ∈ assignable)
    (value : String) : P (e.setAttribute name value)
  removeAttribute {e : Element} (h : P e) {name : String} (hname : name ∈ assignable) :
    P (e.removeAttribute name)
  setBody {e : Element} (h : P e) (body : String) : P (e.setChildren (bodyNodes body))
  keepFirstElement {e : Element} (h : P e) :
    P { e with children := keepFirstElement e.children }

namespace Stable

theorem and (hP : Stable assignable P) (hQ : Stable assignable Q) :
    Stable assignable fun e => P e ∧ Q e where
  setAttribute h _ hname value := ⟨hP.setAttribute h.1 hname value, hQ.setAttribute h.2 hname value⟩
  removeAttribute h _ hname := ⟨hP.removeAttribute h.1 hname, hQ.removeAttribute h.2 hname⟩
  setBody h body := ⟨hP.setBody h.1 body, hQ.setBody h.2 body⟩
  keepFirstElement h := ⟨hP.keepFirstElement h.1, hQ.keepFirstElement h.2⟩

/-- What goes for all attributes that are no directives lasts where no directive is set. -/
theorem forall_attributes {p : Attribute → Prop} (hp : ∀ a, isDirective a.name = false → p a) :
    Stable { name | isDirective name = false } fun e => ∀ a ∈ e.attributes, p a where
  setAttribute h name hname value a ha := by
    obtain ha | rfl | ⟨b, -, hnamed, rfl⟩ := mem_set ha
    · exact h a ha
    · exact hp _ hname
    · exact hp _ ((isDirective_congr hnamed).trans hname)
  removeAttribute h _ _ a ha := h a (List.mem_of_mem_eraseP ha)
  setBody h body := by
    rw [attributes_setChildren]
    exact h
  keepFirstElement h := h

theorem children {p : List Node → Prop} (hbody : ∀ body, p (bodyNodes body))
    (hfirst : ∀ ns, p ns → p (Standard.keepFirstElement ns)) :
    Stable assignable fun e => p e.children where
  setAttribute h _ _ _ := h
  removeAttribute h _ _ := h
  setBody _ body := by
    rw [children_setChildren]
    exact hbody body
  keepFirstElement h := hfirst _ h

/-- An element with the property is like itself. -/
theorem alikeElements (h : Stable assignable P) :
    AlikeElements assignable Eq fun e f => f = e ∧ P e where
  children h := (congrArg Element.children h.1).symm
  existing := by
    rintro e _ ⟨rfl, -⟩ name -
    rfl
  setAttribute := by
    rintro e _ ⟨rfl, he⟩ name hname value
    exact ⟨rfl, h.setAttribute he hname value⟩
  removeAttribute := by
    rintro e _ ⟨rfl, he⟩ name hname
    exact ⟨rfl, h.removeAttribute he hname⟩
  setBody := by
    rintro e _ ⟨rfl, he⟩ body
    exact ⟨rfl, h.setBody he body⟩
  keepFirstElement := by
    rintro e _ ⟨rfl, he⟩
    exact ⟨rfl, h.keepFirstElement he⟩

/-- The call of a standard processor keeps what the element has after the attributes that called for
the processor were taken off. -/
theorem of_call (hP : Stable assignable P) {p : Entry} (hp : p ∈ registry.entries)
    (hown : ∀ name ∈ valueAttributes ++ flagAttributes ++ ["class", "style"], name ∈ assignable)
    {e e' : Element}
    (hassigned : ∀ directive ∈ assigners, p.processor.rule = .attribute directive →
      ∀ assigned, assignments (p.calledWith ev e).value = .ok assigned →
        ∀ x ∈ assigned, x.1 ∈ assignable)
    {r s : Run} {directive : Directive} (h : p.call ev e r = .ok (directive, e') s)
    (he : P (takeAttributes e (p.target.claimed e)).2) :
    P e' ∧ Answers Eq p.processor.name e' e' directive directive := by
  obtain ⟨⟨c, hrun⟩, -⟩ := call_eq_ok h
  have hmem := mem_processors_of_mem_registry hp
  have hcall : AlikeCalls ev (p.calledWith ev e) (p.calledWith ev e) := ⟨rfl, rfl, rfl⟩
  have hanswer := answer_run (alikeContexts_eq ev).toAlikeBindings hP.alikeElements hcall hmem hown
    hassigned (p.workspace e r.context) (p.workspace e r.context) ⟨⟨rfl, he⟩, rfl⟩
  rw [hrun] at hanswer
  cases hanswer with
  | ok h => exact ⟨h.2.element.2, h.1⟩

end Stable

/-! ## What is answered -/

/-- Whether an answer is one that a standard processor gives: nothing but its children takes the
place of an element, and only one processor asks for a repetition, which binds what is declared for
it. -/
def IsReply (processor : String) (e : Element) : Directive → Prop
  | .replace nodes => nodes = e.children
  | .iterate _ binding status =>
    processor = "each" ∧
      ∃ declaration i, iteration declaration = .ok i ∧ binding = i.binding ∧ status = i.status
  | _ => True

/-- Work that answers as a standard processor does. -/
def Replies (processor : String) (x : Work Directive) : Prop :=
  Ensures x fun _ directive e => IsReply processor e directive

namespace Replies

variable {processor : String}

theorem pure {directive : Directive} (h : ∀ e, IsReply processor e directive) :
    Replies processor (Pure.pure directive) :=
  Ensures.pure h

theorem throw (cause : EngineError) : Replies processor (MonadExcept.throw cause) :=
  Ensures.throw cause

theorem bind_of {α : Type} {x : Work α} {f : α → Work Directive}
    (hf : ∀ w a v, x w = .ok a v → Replies processor (f a)) : Replies processor (x >>= f) := by
  intro w directive w' h
  obtain ⟨a, v, hx, h⟩ := eq_ok_of_bind h
  exact hf w a v hx v directive w' h

/-- It depends on the last step alone. -/
theorem bind {α : Type} {x : Work α} {f : α → Work Directive}
    (hf : ∀ a, Replies processor (f a)) : Replies processor (x >>= f) :=
  .bind_of fun _ a _ _ => hf a

theorem of_removes {x : Work Directive} (hx : Ensures x Removes) : Replies processor x := by
  intro w directive w' h
  obtain ⟨hsame, rfl | rfl | rfl | rfl⟩ | ⟨-, rfl⟩ := hx w _ w' h
  · trivial
  · trivial
  · trivial
  · exact congrArg Element.children hsame.symm
  · trivial

end Replies

section
variable {processor : String}

theorem replies_each (call : Call) : Replies "each" (each call) := by
  unfold each
  refine .bind_of fun w i w' hi => .bind fun _ => ?_
  split
  · refine .pure fun e => ⟨rfl, call.value, i, ?_, rfl, rfl⟩
    cases hdeclared : iteration call.value with
    | error cause =>
      rw [hdeclared] at hi
      cases hi
    | ok j =>
      rw [hdeclared] at hi
      cases hi
      rfl
  · exact .throw _

theorem replies_conditional (keepWhen : Bool) (call : Call) :
    Replies processor (conditional keepWhen call) := by
  unfold conditional
  refine .bind fun _ => ?_
  split
  · exact .pure fun _ => trivial
  · exact .pure fun _ => trivial

theorem replies_case (call : Call) : Replies processor (case call) := by
  unfold case
  refine .bind fun _ => .bind fun _ => ?_
  split
  · exact .throw _
  · split
    · exact .pure fun _ => trivial
    · extract_lets finish
      have hfinish (matched : Bool) : Replies processor (finish matched) := by
        simp only [finish]
        split
        · exact .bind fun _ => .pure fun _ => trivial
        · exact .pure fun _ => trivial
      split
      · exact hfinish true
      · exact .bind fun _ => hfinish _

theorem replies_inline (call : Call) : Replies processor (inline call) := by
  unfold inline
  extract_lets finish
  have hfinish (on : Bool) : Replies processor (finish on) := .bind fun _ => .pure fun _ => trivial
  split
  · exact hfinish true
  · exact hfinish true
  · exact hfinish true
  · exact hfinish false
  · exact .bind hfinish

theorem replies_appendTo (name : String) (s : Separator) (call : Call) :
    Replies processor (appendTo name s call) := by
  unfold appendTo
  refine .bind fun _ => .bind fun _ => ?_
  dsimp only
  split
  · exact .bind fun _ => .pure fun _ => trivial
  · exact .pure fun _ => trivial

theorem replies_setBody (escaped : Bool) (call : Call) :
    Replies processor (setBody escaped call) :=
  .bind fun _ => .bind fun _ => .bind fun _ => .pure fun _ => trivial

end

theorem replies_run {p : Processor} (hp : p ∈ processors) (call : Call) :
    Replies p.name (p.run call) := by
  have hproceed {processor : String} : Replies processor (pure .proceed) := .pure fun _ => trivial
  obtain ⟨name, rule, precedence, run⟩ := p
  have hstandard : IsStandard name rule run := isStandard_of_mem hp
  show Replies name (run call)
  cases hstandard with
  | each => exact replies_each call
  | case => exact replies_case call
  | whenTrue | whenFalse => exact replies_conditional _ call
  | inline => exact replies_inline call
  | classappend | styleappend => exact replies_appendTo _ _ call
  | text | utext => exact replies_setBody _ call
  | remove => exact .of_removes (ensures_remove call)
  | block => exact .of_removes (ensures_unwrap call)
  | _ => exact .bind fun _ => .bind fun _ => hproceed

/-- Nodes that are put in the place of an element by a call are its children. -/
theorem unwraps_of_call {p : Entry} (hp : p ∈ registry.entries) {e e' : Element} {r s : Run}
    {nodes : List Node} (h : p.call ev e r = .ok (.replace nodes, e') s) : nodes = e'.children := by
  obtain ⟨⟨c, hrun⟩, -⟩ := call_eq_ok h
  exact replies_run (mem_processors_of_mem_registry hp) _ _ _ _ hrun

end NaturalTemplate.Standard
