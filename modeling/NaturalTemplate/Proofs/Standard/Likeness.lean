import NaturalTemplate.Proofs.Standard.Answers

/-!
# Like trees in like contexts

Two runs of the standard processors, over trees that are alike and in contexts that are alike, stay
in step from the first node to the last.
-/
namespace NaturalTemplate.Standard
open Markup

/-- What two runs of the standard processors have in common. Elements are compared while some
processors are pending for them, and with regard to whether their children are to be processed. -/
structure Likeness (ev : Evaluator) where
  /-- How contexts are related that many scopes inside of where the runs start. -/
  contexts : ℕ → Context → Context → Prop
  elements : List Entry → Bool → Element → Element → Prop
  /-- How nodes are related before they are processed. -/
  nodes : Node → Node → Prop
  /-- How nodes are related that come of it. -/
  outputs : Node → Node → Prop
  assignable : Set String
  alikeScopes (depth : ℕ) : AlikeScopes (contexts depth) (contexts (depth + 1))
  alikeBindings (depth : ℕ) : AlikeBindings ev (contexts (depth + 1))
  alikeElements (pending : List Entry) (children : Bool) :
    AlikeElements assignable (List.Forall₂ nodes) (elements pending children)
  own : ∀ name ∈ valueAttributes ++ flagAttributes ++ ["class", "style"], name ∈ assignable
  element_of_nodes {n m : Node} (h : nodes n m) : n = m ∧ n.element? = none ∨
    ∃ e f : Element, n = e.toNode ∧ m = f.toNode ∧ elements registry.entries true e f
  location_eq {pending : List Entry} {children : Bool} {e f : Element}
    (h : elements pending children e f) : f.location = e.location
  size_eq {pending : List Entry} {children : Bool} {e f : Element}
    (h : elements pending children e f) : f.toNode.size = e.toNode.size
  matches?_eq {pending : List Entry} {children : Bool} {e f : Element} {p : Entry}
    (hp : p ∈ registry.entries) (h : elements pending children e f) :
    p.target.matches? f = p.target.matches? e
  called {pending others : List Entry} {children : Bool} {e f : Element} {p : Entry}
    (hpending : pending.Sublist registry.entries) (h : elements pending children e f)
    (hnext : Entry.next? e pending = some (p, others)) :
    elements others children (takeAttributes e (p.target.claimed e)).2
        (takeAttributes f (p.target.claimed f)).2 ∧
      (p.calledWith ev f).value = (p.calledWith ev e).value ∧
      ∀ directive ∈ assigners, p.processor.rule = .attribute directive →
        ∀ assigned, assignments (p.calledWith ev e).value = .ok assigned →
          ∀ x ∈ assigned, x.1 ∈ assignable
  left {pending : List Entry} {children : Bool} {e f : Element} {body : String}
    (h : elements pending children e f) (he : e.children = bodyNodes body)
    (hf : f.children = bodyNodes body) : elements pending false e f
  anew {pending : List Entry} {children : Bool} {e f : Element}
    (h : elements pending children e f) : elements pending true e f
  leaf {n : Node} (h : n.element? = none) : outputs n n
  /-- When no attribute calls for a processor any more, nothing is left that may differ. -/
  kept {pending : List Entry} {e f : Element} {nodes nodes' : List Node}
    (h : elements pending true e f) (hdone : ∀ q ∈ pending, q.target.claimed e = [])
    (hnodes : List.Forall₂ outputs nodes nodes') :
    outputs (Element.toNode { e with children := nodes })
      (Element.toNode { f with children := nodes' })
  keptAsIs {pending : List Entry} {e f : Element} (h : elements pending false e f)
    (hdone : ∀ q ∈ pending, q.target.claimed e = []) : outputs e.toNode f.toNode

theorem Entry.next?_congr {pending : List Entry} {e f : Element}
    (h : ∀ p ∈ pending, p.target.matches? f = p.target.matches? e) :
    Entry.next? f pending = Entry.next? e pending := by
  induction pending with
  | nil => rfl
  | cons p pending ih =>
    obtain ⟨hp, hrest⟩ := List.forall_mem_cons.mp h
    rw [Entry.next?, Entry.next?, hp, ih hrest]

theorem Entry.sublist_of_next? {pending others : List Entry} {e : Element} {p : Entry}
    (h : Entry.next? e pending = some (p, others)) : others.Sublist pending := by
  obtain ⟨front, back, rfl, rfl, -⟩ := Entry.exists_of_next? h
  exact (List.sublist_cons_self p back).append_left front

/-- When the body was removed no attribute calls for a processor. -/
theorem claimed_of_remove {ev : Evaluator} {pending others : List Entry}
    (hpending : pending.Sublist registry.entries) {e e' : Element} {p : Entry}
    (hnext : Entry.next? e pending = some (p, others)) (hname : p.processor.name = "remove")
    {r s : Run} {directive : Directive} (hcall : p.call ev e r = .ok (directive, e') s) :
    ∀ q ∈ others, q.target.claimed e' = [] := by
  have hp : p.processor ∈ processors := mem_processors_of_mem_entries
    (mem_entries_of_ofDialects ofDialects_dialect p (hpending.subset (Entry.mem_of_next? hnext).1))
  have hattributes : e'.attributes ⊆ e.attributes := by
    obtain ⟨⟨c, hrun⟩, -⟩ := call_eq_ok hcall
    rw [run_eq_remove hp hname] at hrun
    have htaken := (takeAttributes_spec e (p.target.claimed e)).1
    obtain ⟨rfl, -⟩ | ⟨rfl, -⟩ := ensures_remove _ _ _ _ hrun
    · exact htaken
    · exact htaken
  obtain ⟨front, back, rfl, rfl, hfront⟩ := Entry.exists_of_next? hnext
  intro q hq
  obtain hq | hq := List.mem_append.mp hq
  · have hnone := claimed_eq_nil_iff.mp (claimed_of_matches?_eq_false (hfront q hq))
    exact claimed_eq_nil_iff.mpr fun a ha => hnone a (hattributes ha)
  · have hpair := (List.pairwise_append.mp (pairwise_remove.sublist hpending)).2.1
    have htarget := List.rel_of_pairwise_cons hpair hq hname
    rw [htarget]
    exact claimed_eq_nil_iff.mpr fun a _ => rfl

namespace Likeness

variable {ev : Evaluator} (L : Likeness ev) {pending others : List Entry} {children : Bool}
  {e f : Element} {p : Entry} {depth : ℕ}

theorem next?_eq (hpending : pending.Sublist registry.entries)
    (h : L.elements pending children e f) : Entry.next? f pending = Entry.next? e pending :=
  Entry.next?_congr fun _ hp => L.matches?_eq (hpending.subset hp) h

/-- A processor answers alike for elements that are alike. -/
theorem inStep_call (hpending : pending.Sublist registry.entries)
    (h : L.elements pending children e f) (hnext : Entry.next? e pending = some (p, others)) :
    InStep (Run.Alike (L.contexts (depth + 1))) (p.call ev e) (p.call ev f) fun a b r s =>
      Answers (List.Forall₂ L.nodes) p.processor.name a.2 b.2 a.1 b.1 ∧
        L.elements others children a.2 b.2 ∧ Run.Alike (L.contexts (depth + 1)) r s := by
  obtain ⟨hrest, hvalue, hassigned⟩ := L.called hpending h hnext
  have hp : p.processor ∈ processors := mem_processors_of_mem_entries
    (mem_entries_of_ofDialects ofDialects_dialect p (hpending.subset (Entry.mem_of_next? hnext).1))
  have hrun := answer_run (L.alikeBindings depth) (L.alikeElements others children)
    ⟨rfl, rfl, hvalue⟩ hp L.own hassigned
  intro r s hrs
  have hanswer := hrun (p.workspace e r.context) (p.workspace f s.context) ⟨hrest, hrs⟩
  exact (Entry.sameOutcome_call (L.location_eq h) hanswer).mono fun _ _ _ _ h =>
    ⟨h.1, h.2.element, h.2.context⟩

/-- What the processors made of elements that are alike. -/
inductive Outcomes : Outcome → Outcome → Prop where
  | keep {pending : List Entry} {children : Bool} {e f : Element}
    (h : L.elements pending children e f) (hdone : ∀ q ∈ pending, q.target.claimed e = []) :
    Outcomes (.keep e children) (.keep f children)
  | drop : Outcomes .drop .drop
  | splice {nodes nodes' : List Node} (h : List.Forall₂ L.nodes nodes nodes') :
    Outcomes (.splice nodes) (.splice nodes')
  | iterate {pending : List Entry} {e f : Element} (hpending : pending.Sublist registry.entries)
    (h : L.elements pending true e f) (items : List Value) (binding status : String) :
    Outcomes (.iterate e pending items binding status) (.iterate f pending items binding status)

/-- The calls that are made for elements that are alike come to the same. -/
theorem inStep_settle (hpending : pending.Sublist registry.entries)
    (h : L.elements pending children e f) :
    InStep (Run.Alike (L.contexts (depth + 1))) (settle ev pending children e)
      (settle ev pending children f)
      fun o o' r s => L.Outcomes o o' ∧ Run.Alike (L.contexts (depth + 1)) r s := by
  induction pending, children, e using settle.induct generalizing f with
  | case1 pending children e hnext =>
    have hnext' := (L.next?_eq hpending h).trans hnext
    rw [settle_of_next?_eq_none hnext, settle_of_next?_eq_none hnext']
    have hdone : ∀ q ∈ pending, q.target.claimed e = [] := fun q hq =>
      claimed_of_matches?_eq_false (matches?_of_next?_eq_none hnext q hq)
    exact .pure fun _ _ hrs => ⟨.keep h hdone, hrs⟩
  | case2 pending children e p others hnext ihproceed ihskip =>
    have hothers : others.Sublist registry.entries := (Entry.sublist_of_next? hnext).trans hpending
    rw [settle_of_next? hnext, settle_of_next? ((L.next?_eq hpending h).trans hnext)]
    refine (L.inStep_call hpending h hnext).bind_of ?_
    rintro ⟨directive, e'⟩ ⟨directive', f'⟩ r - s t hcall - ⟨hanswer, h', hst⟩
    cases hanswer with
    | proceed => exact ihproceed e' hothers h' s t hst
    | removeNode => exact .ok ⟨.drop, hst⟩
    | removeBody hname =>
      have hempty := (L.alikeElements others children).setBody h' ""
      have hnil (e : Element) : (e.setChildren []).children = bodyNodes "" := rfl
      have hdone := claimed_of_remove hpending hnext hname hcall
      exact .ok ⟨.keep (L.left hempty (hnil e') (hnil f')) hdone, hst⟩
    | replace hnodes => exact .ok ⟨.splice hnodes, hst⟩
    | iterate items binding status => exact .ok ⟨.iterate hothers (L.anew h') _ _ _, hst⟩
    | skipChildren he hf => exact ihskip e' hothers (L.left h' he hf) s t hst

/-- Elements that are alike lead to nodes that are alike. -/
theorem emit_visit (fuel : Nat) (hpending : pending.Sublist registry.entries)
    (h : L.elements pending true e f) :
    EmitInStep (L.contexts depth) L.outputs (visit ev registry.entries fuel pending e)
      (visit ev registry.entries fuel pending f) := by
  induction fuel generalizing pending e f depth with
  | zero => exact .throw _
  | succ fuel ih =>
    have hall : ∀ {nodes nodes' : List Node}, List.Forall₂ L.nodes nodes nodes' →
        EmitInStep (L.contexts (depth + 1)) L.outputs
          (emitAll ev (visit ev registry.entries fuel registry.entries) nodes)
          (emitAll ev (visit ev registry.entries fuel registry.entries) nodes') := by
      refine .emitAll (L.alikeBindings depth).toAlikeReads (fun _ => L.leaf) fun n m hnm => ?_
      obtain hleaf | ⟨e, f, hn, hm, hef⟩ := L.element_of_nodes hnm
      · exact .inl hleaf
      · exact .inr ⟨e, f, hn, hm, ih (List.Sublist.refl _) hef⟩
    rw [visit, visit]
    refine .inScope (L.alikeScopes depth) ((L.inStep_settle hpending h).bind ?_)
    rintro outcome outcome' r s ⟨houtcome, hrs⟩
    cases houtcome with
    | @keep pending children e f h hdone =>
      cases children with
      | false => exact EmitInStep.node (L.keptAsIs h hdone) r s hrs
      | true =>
        refine InStep.bind (hall ((L.alikeElements _ _).children h)) (fun body body' => ?_) r s hrs
        exact .pure fun _ _ hbody =>
          ⟨⟨.cons (L.kept h hdone hbody.1.nodes) .nil, hbody.1.halt⟩, hbody.2⟩
    | drop => exact EmitInStep.nothing r s hrs
    | splice hnodes => exact hall hnodes r s hrs
    | iterate hothers h items binding status =>
      exact EmitInStep.emitItems (L.alikeScopes (depth + 1)) (L.alikeBindings (depth + 1))
        (ih hothers h) _ _ _ _ _ r s hrs

/-- Trees that are alike lead to nodes that are alike, or to the same error. -/
theorem emit_emit (hC : AlikeBindings ev (L.contexts 0)) {nodes nodes' : List Node}
    (h : List.Forall₂ L.nodes nodes nodes') :
    EmitInStep (L.contexts 0) L.outputs (registry.emit ev nodes) (registry.emit ev nodes') := by
  refine .emitAll hC.toAlikeReads (fun _ => L.leaf) (fun n m hnm => ?_) h
  obtain hleaf | ⟨e, f, hn, hm, hef⟩ := L.element_of_nodes hnm
  · exact .inl hleaf
  · refine .inr ⟨e, f, hn, hm, ?_⟩
    have hfuel : registry.fuel f = registry.fuel e := by
      rw [Registry.fuel, Registry.fuel, L.size_eq hef]
    rw [hfuel]
    exact L.emit_visit _ (List.Sublist.refl _) hef

end Likeness

/-! ## The same elements -/

theorem forall₂_eq_iff {α : Type} {as bs : List α} : List.Forall₂ Eq as bs ↔ as = bs := by
  rw [List.forall₂_eq_eq_eq]

/-- The same elements are alike whatever is done to them. -/
theorem alikeElements_eq : AlikeElements Set.univ (List.Forall₂ Eq) Eq where
  children h := forall₂_eq_iff.mpr (congrArg Element.children h)
  existing h _ _ := by rw [h]
  setAttribute h _ _ _ := by rw [h]
  removeAttribute h _ _ := by rw [h]
  setBody h _ := by rw [h]
  keepFirstElement h := by rw [h]

/-- The same elements, in contexts that are alike. -/
def sameElements {ev : Evaluator} (contexts : ℕ → Context → Context → Prop)
    (alikeScopes : ∀ depth, AlikeScopes (contexts depth) (contexts (depth + 1)))
    (alikeBindings : ∀ depth, AlikeBindings ev (contexts (depth + 1))) : Likeness ev where
  contexts := contexts
  elements _ _ := Eq
  nodes := Eq
  outputs := Eq
  assignable := Set.univ
  alikeScopes := alikeScopes
  alikeBindings := alikeBindings
  alikeElements _ _ := alikeElements_eq
  own _ _ := trivial
  element_of_nodes {n m} h := by
    subst h
    cases hn : n.element? with
    | none => exact .inl ⟨rfl, rfl⟩
    | some e =>
      have he := Node.eq_toNode_of_element? hn
      exact .inr ⟨e, e, he, he, rfl⟩
  location_eq h := by rw [h]
  size_eq h := by rw [h]
  matches?_eq _ h := by rw [h]
  called _ h _ := by
    subst h
    exact ⟨rfl, rfl, fun _ _ _ _ _ _ _ => trivial⟩
  left h _ _ := h
  anew h := h
  leaf _ := rfl
  kept h _ hnodes := by
    rw [h, forall₂_eq_iff.mp hnodes]
  keptAsIs h _ := by rw [h]

end NaturalTemplate.Standard
