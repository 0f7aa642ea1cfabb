import NaturalTemplate.Proofs.Processing.Visits

/-!
# Two runs side by side

Two runs are followed step by step. They are in step if both fail with the same error, or both
succeed and leave results and states that are alike again. What it means to be alike is left open,
for elements as well as for contexts.
-/
namespace NaturalTemplate
open Markup

section
variable {ε σ α β : Type}

/-- The same error, or results and states that are related. -/
inductive SameOutcome (Q : α → α → σ → σ → Prop) :
    EStateM.Result ε σ α → EStateM.Result ε σ α → Prop where
  | ok {a b : α} {s t : σ} (h : Q a b s t) : SameOutcome Q (.ok a s) (.ok b t)
  | error (e : ε) (s t : σ) : SameOutcome Q (.error e s) (.error e t)

/-- From states that are related, two computations come to the same error, or to results and states
that are related. -/
def InStep (P : σ → σ → Prop) (x y : EStateM ε σ α) (Q : α → α → σ → σ → Prop) : Prop :=
  ∀ s t, P s t → SameOutcome Q (x s) (y t)

/-- The same results, and states that are related. -/
def Equal (P : σ → σ → Prop) (a b : α) (s t : σ) : Prop := a = b ∧ P s t

theorem SameOutcome.mono {Q Q' : α → α → σ → σ → Prop} {r r' : EStateM.Result ε σ α}
    (h : SameOutcome Q r r') (hQ : ∀ a b s t, Q a b s t → Q' a b s t) : SameOutcome Q' r r' := by
  cases h with
  | ok h => exact .ok (hQ _ _ _ _ h)
  | error e s t => exact .error e s t

/-- The second steps have to come to the same after the results of the first ones only. -/
theorem SameOutcome.bind {Q : α → α → σ → σ → Prop} {R : β → β → σ → σ → Prop}
    {x y : EStateM ε σ α} {f g : α → EStateM ε σ β} {s t : σ} (hx : SameOutcome Q (x s) (y t))
    (hf : ∀ a b s' t', x s = .ok a s' → y t = .ok b t' → Q a b s' t' →
      SameOutcome R (f a s') (g b t')) : SameOutcome R ((x >>= f) s) ((y >>= g) t) := by
  show SameOutcome R (EStateM.bind x f s) (EStateM.bind y g t)
  unfold EStateM.bind
  cases hs : x s <;> cases ht : y t <;> rw [hs, ht] at hx <;> cases hx
  · next h => exact hf _ _ _ _ hs ht h
  · exact .error _ _ _

namespace InStep

variable {P S : σ → σ → Prop} {Q : α → α → σ → σ → Prop} {R : β → β → σ → σ → Prop}
  {x y : EStateM ε σ α} {f g : α → EStateM ε σ β}

theorem pure {a b : α} (h : ∀ s t, P s t → Q a b s t) :
    InStep P (Pure.pure a : EStateM ε σ α) (Pure.pure b) Q := fun s t hst => .ok (h s t hst)

theorem throw (e : ε) : InStep P (MonadExcept.throw e : EStateM ε σ α) (MonadExcept.throw e) Q :=
  fun s t _ => .error e s t

theorem pure_bind {a : α} (h : InStep P (f a) (g a) R) :
    InStep P (Pure.pure a >>= f) (Pure.pure a >>= g) R := h

/-- What is known of all states that are related can be assumed. -/
theorem assuming {p : Prop} (hx : p → InStep P x y Q) : InStep (fun s t => p ∧ P s t) x y Q :=
  fun s t h => hx h.1 s t h.2

/-- The second steps have to be in step after the results of the first ones only. -/
theorem bind_of (hx : InStep P x y Q)
    (hf : ∀ a b s t s' t', x s = .ok a s' → y t = .ok b t' → Q a b s' t' →
      SameOutcome R (f a s') (g b t')) : InStep P (x >>= f) (y >>= g) R :=
  fun s t hst => (hx s t hst).bind fun a b s' t' => hf a b s t s' t'

theorem bind (hx : InStep P x y Q) (hf : ∀ a b, InStep (Q a b) (f a) (g b) R) :
    InStep P (x >>= f) (y >>= g) R :=
  hx.bind_of fun a b _ _ s t _ _ h => hf a b s t h

/-- After a first step that has the same result on both sides. -/
theorem bind_equal (hx : InStep P x y (Equal S)) (hf : ∀ a, InStep S (f a) (g a) R) :
    InStep P (x >>= f) (y >>= g) R := by
  refine hx.bind fun a b => ?_
  rintro s t ⟨rfl, hst⟩
  exact hf a s t hst

end InStep
end

/-! ## Contexts that cannot be told apart -/

namespace Standard

/-- The names under which something is kept that no expression can name. -/
def reservedNames : List String := [Context.selectionName, Context.inliningName, switchName]

/-- A relation between contexts that gives expressions the same values and shows the same under the
reserved names, and that lasts while both contexts are asked for the same. -/
structure AlikeReads (ev : Evaluator) (C : Context → Context → Prop) : Prop where
  value_eq {c d : Context} (h : C c d) (text : String) : ev.value d text = ev.value c text
  evaluate {c d : Context} (h : C c d) (text : String) :
    C (ev.evaluate text c).2 (ev.evaluate text d).2
  reserved {c d : Context} (h : C c d) {name : String} (hname : name ∈ reservedNames) :
    d.value? name = c.value? name
  touch {c d : Context} (h : C c d) {name : String} (hname : name ∈ reservedNames) :
    C (c.touch name) (d.touch name)

/-- A relation between contexts that also lasts while both contexts are changed in the same way. -/
structure AlikeBindings (ev : Evaluator) (C : Context → Context → Prop) : Prop extends
    AlikeReads ev C where
  overwrite {c d : Context} (h : C c d) {name : String} (hname : name ∈ reservedNames)
    (v : Value) : C (c.overwrite name v) (d.overwrite name v)
  setLocal {c d : Context} (h : C c d) (name : String) (v : Value) :
    C (c.setLocal name v) (d.setLocal name v)

/-- A relation between contexts, and the one between what they are inside of a scope. -/
structure AlikeScopes (C D : Context → Context → Prop) : Prop where
  push {c d : Context} (h : C c d) : D c.push d.push
  pop {c d : Context} (h : D c d) : C c.pop d.pop

/-- A relation between contexts that is the same inside of a scope. -/
structure AlikeContexts (ev : Evaluator) (C : Context → Context → Prop) : Prop extends
  AlikeBindings ev C, AlikeScopes C C

/-- Contexts that are the same. -/
theorem alikeContexts_eq (ev : Evaluator) : AlikeContexts ev Eq where
  value_eq h _ := by rw [h]
  evaluate h _ := by rw [h]
  reserved h _ _ := by rw [h]
  touch h _ _ := by rw [h]
  overwrite h _ _ _ := by rw [h]
  setLocal h _ _ := by rw [h]
  push h := by rw [h]
  pop h := by rw [h]

end Standard

variable {ev : Evaluator} {C D : Context → Context → Prop} {c d : Context}

namespace Standard.AlikeReads

theorem isInlining_eq (hC : AlikeReads ev C) (h : C c d) : d.isInlining = c.isInlining := by
  rw [Context.isInlining, Context.isInlining, hC.reserved h (by decide)]

theorem expand (hC : AlikeReads ev C) (h : C c d) (part : Inline.Segment) :
    (part.expand ev d).1 = (part.expand ev c).1 ∧ C (part.expand ev c).2 (part.expand ev d).2 := by
  cases part with
  | literal text => exact ⟨rfl, h⟩
  | expression text escaped =>
    have hvalue := hC.value_eq h (String.ofList text)
    have hcontext := hC.evaluate h (String.ofList text)
    have hfirst : (ev.evaluate (String.ofList text) d).1 = (ev.evaluate (String.ofList text) c).1 :=
      hvalue
    simp only [Inline.Segment.expand]
    generalize ev.evaluate (String.ofList text) c = before at *
    generalize ev.evaluate (String.ofList text) d = after at *
    obtain ⟨result, c'⟩ := before
    obtain ⟨result', d'⟩ := after
    obtain rfl : result' = result := hfirst
    cases result' <;> exact ⟨rfl, hcontext⟩

theorem expandAll (hC : AlikeReads ev C) (h : C c d) (parts : List Inline.Segment) :
    (Inline.expandAll ev parts d).1 = (Inline.expandAll ev parts c).1 ∧
      C (Inline.expandAll ev parts c).2 (Inline.expandAll ev parts d).2 := by
  induction parts generalizing c d with
  | nil => exact ⟨rfl, h⟩
  | cons part parts ih =>
    obtain ⟨hfirst, hcontext⟩ := hC.expand h part
    unfold Inline.expandAll
    generalize part.expand ev c = before at *
    generalize part.expand ev d = after at *
    obtain ⟨result, c'⟩ := before
    obtain ⟨result', d'⟩ := after
    obtain rfl : result' = result := hfirst
    cases result' with
    | error cause => exact ⟨rfl, hcontext⟩
    | ok front =>
      obtain ⟨hrest, hcontext'⟩ := ih hcontext
      simp only
      generalize Inline.expandAll ev parts c' = before at *
      generalize Inline.expandAll ev parts d' = after at *
      obtain ⟨rest, c''⟩ := before
      obtain ⟨rest', d''⟩ := after
      obtain rfl : rest' = rest := hrest
      cases rest' <;> exact ⟨rfl, hcontext'⟩

theorem expand? (hC : AlikeReads ev C) (h : C c d) (text : String) :
    (Inline.expand? ev text d).1 = (Inline.expand? ev text c).1 ∧
      C (Inline.expand? ev text c).2 (Inline.expand? ev text d).2 := by
  obtain ⟨hresult, hcontext⟩ := hC.expandAll h (Inline.segments text.toList)
  simp only [Inline.expand?]
  split
  · generalize Inline.expandAll ev (Inline.segments text.toList) c = before at *
    generalize Inline.expandAll ev (Inline.segments text.toList) d = after at *
    obtain ⟨result, c'⟩ := before
    obtain ⟨result', d'⟩ := after
    obtain rfl : result' = result := hresult
    cases result' <;> exact ⟨rfl, hcontext⟩
  · exact ⟨rfl, h⟩

end Standard.AlikeReads

/-! ## The work of processors -/

/-- Elements that are alike, in contexts that are alike. -/
structure Workspace.Alike (E : Element → Element → Prop) (C : Context → Context → Prop)
    (w v : Workspace) : Prop where
  element : E w.element v.element
  context : C w.context v.context

namespace InStep

variable {α : Type} {E : Element → Element → Prop} {P : Workspace → Workspace → Prop}

theorem ofExcept (x : Except EngineError α) :
    InStep P (Work.ofExcept x) (Work.ofExcept x) (Equal P) := by
  cases x with
  | ok a => exact .pure fun _ _ h => ⟨rfl, h⟩
  | error e => exact .throw e

theorem ofExcept_bind {β : Type} {f g : α → Work β} {R : β → β → Workspace → Workspace → Prop}
    (x : Except EngineError α) (hf : ∀ a, x = .ok a → InStep P (f a) (g a) R) :
    InStep P (Work.ofExcept x >>= f) (Work.ofExcept x >>= g) R := by
  cases x with
  | ok a => exact hf a rfl
  | error e => exact fun s t _ => .error e s t

theorem text (v : Value) : InStep P (Work.text v) (Work.text v) (Equal P) := ofExcept _

theorem element : InStep (Workspace.Alike E C) Work.element Work.element
    fun e f w v => E e f ∧ Workspace.Alike E C w v := fun _ _ h => .ok ⟨h.element, h⟩

theorem context : InStep (Workspace.Alike E C) Work.context Work.context
    fun c d w v => C c d ∧ Workspace.Alike E C w v := fun _ _ h => .ok ⟨h.context, h⟩

theorem changeElement {f g : Element → Element} (hf : ∀ d e, E d e → E (f d) (g e)) :
    InStep (Workspace.Alike E C) (Work.changeElement f) (Work.changeElement g)
      (Equal (Workspace.Alike E C)) :=
  fun _ _ h => .ok ⟨rfl, hf _ _ h.element, h.context⟩

theorem changeContext {f g : Context → Context} (hf : ∀ c d, C c d → C (f c) (g d)) :
    InStep (Workspace.Alike E C) (Work.changeContext f) (Work.changeContext g)
      (Equal (Workspace.Alike E C)) :=
  fun _ _ h => .ok ⟨rfl, h.element, hf _ _ h.context⟩

theorem evaluate (hC : Standard.AlikeReads ev C) {call call' : Call}
    (hev : call.evaluator = ev) (hev' : call'.evaluator = ev) (expression : String) :
    InStep (Workspace.Alike E C) (call.evaluate expression) (call'.evaluate expression)
      (Equal (Workspace.Alike E C)) := by
  subst hev
  intro w v h
  show SameOutcome _
    (Work.ofExcept (call.evaluator.value w.context expression)
      { w with context := (call.evaluator.evaluate expression w.context).2 })
    (Work.ofExcept (call'.evaluator.value v.context expression)
      { v with context := (call'.evaluator.evaluate expression v.context).2 })
  rw [hev', hC.value_eq h.context]
  exact ofExcept _ _ _ ⟨h.element, hC.evaluate h.context expression⟩

end InStep

/-- Two calls of a processor come to the same if its work for both elements does. -/
theorem Entry.sameOutcome_call {p : Entry} {e f : Element} {r s : Run}
    {Q : Directive → Directive → Workspace → Workspace → Prop} (hlocation : f.location = e.location)
    (hrun : SameOutcome Q (p.processor.run (p.calledWith ev e) (p.workspace e r.context))
      (p.processor.run (p.calledWith ev f) (p.workspace f s.context))) :
    SameOutcome (fun a b t u => Q a.1 b.1 ⟨a.2, t.context⟩ ⟨b.2, u.context⟩)
      (p.call ev e r) (p.call ev f s) := by
  rw [call_run, call_run, hlocation]
  generalize p.processor.run (p.calledWith ev e) (p.workspace e r.context) = result at hrun
  generalize p.processor.run (p.calledWith ev f) (p.workspace f s.context) = result' at hrun
  cases hrun with
  | ok h => exact .ok h
  | error cause => exact .error _ _ _

/-! ## Parts of a run -/

/-- Runs in contexts that are alike. -/
def Run.Alike (C : Context → Context → Prop) (r s : Run) : Prop := C r.context s.context

/-- Nodes that are related one by one, and the same halt. -/
structure Emitted.Alike (O : Node → Node → Prop) (a b : Emitted) : Prop where
  nodes : List.Forall₂ O a.nodes b.nodes
  halt : b.halt = a.halt

theorem Emitted.Alike.eq {a b : Emitted} (h : a.Alike Eq b) : b = a := by
  obtain ⟨nodes, stop⟩ := a
  obtain ⟨nodes', stop'⟩ := b
  obtain ⟨hnodes, hstop⟩ := h
  rw [List.forall₂_eq_eq_eq] at hnodes
  exact congrArg₂ Emitted.mk hnodes.symm hstop

/-- The same error, or nodes that are related one by one, in contexts that are alike. -/
def SameEmission (C : Context → Context → Prop) (O : Node → Node → Prop) :
    EStateM.Result Failure Run Emitted → EStateM.Result Failure Run Emitted → Prop :=
  SameOutcome fun a b r s => a.Alike O b ∧ Run.Alike C r s

namespace SameEmission

variable {O : Node → Node → Prop} {x x' y y' : Running Emitted} {r s : Run}

/-- The second parts have to come to the same after the first ones only. -/
theorem andThen (hx : SameEmission C O (x r) (x' s))
    (hy : ∀ first t u, x r = .ok ⟨first, none⟩ t → Run.Alike C t u →
      SameEmission C O (y t) (y' u)) :
    SameEmission C O (Running.andThen x y r) (Running.andThen x' y' s) := by
  refine SameOutcome.bind hx ?_
  rintro ⟨first, halt⟩ first' t u hrun - ⟨⟨hnodes, hhalt⟩, htu⟩
  rw [hhalt]
  cases halt with
  | some halt => exact .ok ⟨⟨hnodes, hhalt⟩, htu⟩
  | none =>
    refine SameOutcome.bind (hy first t u hrun htu) fun second second' t' u' _ _ h => ?_
    exact .ok ⟨⟨List.rel_append hnodes h.1.nodes, h.1.halt⟩, h.2⟩

theorem inScope (hC : Standard.AlikeScopes C D)
    (hx : SameEmission D O (x { r with context := r.context.push })
      (x' { s with context := s.context.push })) :
    SameEmission C O (Running.inScope x r) (Running.inScope x' s) := by
  unfold Running.inScope
  generalize x { r with context := r.context.push } = result at hx
  generalize x' { s with context := s.context.push } = result' at hx
  cases hx with
  | ok h => exact .ok ⟨h.1, hC.pop h.2⟩
  | error e => exact .error e _ _

/-- The items of a repetition come to the same if what is done for each of them does, after what is
done for the items before it. -/
theorem emitItems (hC : Standard.AlikeScopes C D) (hD : Standard.AlikeBindings ev D)
    {binding status : String} {size index : ℕ} {items : List Value} (hrs : Run.Alike C r s)
    (hbody : ∀ done item rest first t u, items = done ++ item :: rest →
      emitItems x binding status size index done r = .ok ⟨first, none⟩ t →
      let c := t.context.push.bindItem binding status ⟨index + done.length, size, item⟩
      Run.Alike D { t with context := c } u →
      SameEmission D O (x { t with context := c }) (x' u)) :
    SameEmission C O (emitItems x binding status size index items r)
      (emitItems x' binding status size index items s) := by
  induction items generalizing index r s with
  | nil => exact .ok ⟨⟨.nil, rfl⟩, hrs⟩
  | cons item items ih =>
    refine andThen (inScope hC ?_) fun first t u hfirst htu => ih htu ?_
    · exact hbody [] item items [] r _ rfl rfl (hD.setLocal (hD.setLocal (hC.push hrs) _ _) _ _)
    · intro done item' rest first' t' u' hitems hdone
      have hlength : index + 1 + done.length = index + (item :: done).length := by
        rw [List.length_cons]
        omega
      rw [hlength]
      refine hbody (item :: done) item' rest (first ++ first') t' u' (by rw [hitems]; rfl) ?_
      rw [NaturalTemplate.emitItems, Running.andThen_of_eq_ok hfirst, hdone]

end SameEmission

/-- Two parts of a run that are in step and produce nodes that are related one by one. -/
def EmitInStep (C : Context → Context → Prop) (O : Node → Node → Prop) (x y : Running Emitted) :
    Prop :=
  InStep (Run.Alike C) x y fun a b r s => a.Alike O b ∧ Run.Alike C r s

namespace EmitInStep

variable {O : Node → Node → Prop} {x x' y y' : Running Emitted}

theorem nothing : EmitInStep C O (pure {}) (pure {}) := .pure fun _ _ h => ⟨⟨.nil, rfl⟩, h⟩

theorem node {n m : Node} (h : O n m) : EmitInStep C O (pure ⟨[n], none⟩) (pure ⟨[m], none⟩) :=
  .pure fun _ _ hst => ⟨⟨.cons h .nil, rfl⟩, hst⟩

theorem andThen (hx : EmitInStep C O x x') (hy : EmitInStep C O y y') :
    EmitInStep C O (Running.andThen x y) (Running.andThen x' y') :=
  fun r s hrs => SameEmission.andThen (hx r s hrs) fun _ t u _ htu => hy t u htu

theorem inScope (hC : Standard.AlikeScopes C D) (hx : EmitInStep D O x x') :
    EmitInStep C O (Running.inScope x) (Running.inScope x') :=
  fun _ _ hrs => SameEmission.inScope hC (hx _ _ (hC.push hrs))

theorem emitText (hC : Standard.AlikeReads ev C) {content : String} {l : Location}
    (htext : ∀ written, O (.text written l) (.text written l)) :
    EmitInStep C O (emitText ev content l) (emitText ev content l) := by
  intro r s hrs
  have htouch : C (r.context.touch Context.inliningName) (s.context.touch Context.inliningName) :=
    hC.touch hrs (by decide)
  obtain ⟨hresult, hcontext⟩ := hC.expand? htouch content
  rw [emitText_run, emitText_run, hC.isInlining_eq hrs]
  by_cases hinlining : r.context.isInlining = true
  · simp only [hinlining, if_true]
    generalize Inline.expand? ev content (r.context.touch Context.inliningName) = before at *
    generalize Inline.expand? ev content (s.context.touch Context.inliningName) = after at *
    obtain ⟨result, c⟩ := before
    obtain ⟨result', d⟩ := after
    obtain rfl : result' = result := hresult
    cases result' with
    | ok expanded => exact .ok ⟨⟨.cons (htext _) .nil, rfl⟩, hcontext⟩
    | error cause => exact .error _ _ _
  · simp only [hinlining]
    exact .ok ⟨⟨.cons (htext _) .nil, rfl⟩, htouch⟩

/-- Nodes that are not elements are the same on both sides. -/
theorem leaf (hC : Standard.AlikeReads ev C) (hleaf : ∀ n : Node, n.element? = none → O n n)
    {n : Node} (hn : n.element? = none) {visit visit' : Element → Running Emitted} :
    EmitInStep C O (emitNode ev visit n) (emitNode ev visit' n) := by
  cases n with
  | element => cases hn
  | text content l => exact emitText hC fun written => hleaf _ rfl
  | _ => exact node (hleaf _ rfl)

theorem emitAll (hC : Standard.AlikeReads ev C) {visit visit' : Element → Running Emitted}
    (hleaf : ∀ n : Node, n.element? = none → O n n) {N : Node → Node → Prop}
    (hnode : ∀ n m, N n m → n = m ∧ n.element? = none ∨
      ∃ e f : Element, n = e.toNode ∧ m = f.toNode ∧ EmitInStep C O (visit e) (visit' f))
    {nodes nodes' : List Node} (hnodes : List.Forall₂ N nodes nodes') :
    EmitInStep C O (emitAll ev visit nodes) (emitAll ev visit' nodes') := by
  induction hnodes with
  | nil => exact nothing
  | cons h _ ih =>
    rw [emitAll_cons, emitAll_cons]
    refine andThen ?_ ih
    obtain ⟨rfl, hnone⟩ | ⟨e, f, rfl, rfl, hvisit⟩ := hnode _ _ h
    · exact leaf hC hleaf hnone
    · exact hvisit

theorem emitItems (hC : Standard.AlikeScopes C D) (hD : Standard.AlikeBindings ev D)
    (hx : EmitInStep D O x x') (binding status : String) (size index : Nat) (items : List Value) :
    EmitInStep C O (emitItems x binding status size index items)
      (emitItems x' binding status size index items) := fun _ _ hrs =>
  SameEmission.emitItems hC hD hrs fun _ _ _ _ _ _ _ _ h => hx _ _ h

end EmitInStep
end NaturalTemplate
