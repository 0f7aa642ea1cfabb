import NaturalTemplate.Proofs.Markup.Elements
import NaturalTemplate.Proofs.Markup.RoundTrip
import NaturalTemplate.Proofs.Processing.Visits
import NaturalTemplate.Proofs.Standard.Reserved

/-!
# Templates that no processor matches

Nothing is done to nodes that no processor matches while text is not expanded: they come out as they
are. The context is asked whether text is expanded, and nothing else. So an engine writes a template
without anything for its processors as its source.
-/
namespace NaturalTemplate
open Markup

/-! ## Asking for one value -/

namespace Scope

variable {name : String} {f : Binding → Binding}

/-- The innermost binding of a name is the one that is changed. -/
theorem findSome?_modifyInnermost? {ss ts : List Scope} (h : modifyInnermost? name f ss = some ts) :
    ∃ b, ss.findSome? (find? name) = some b ∧ ts.findSome? (find? name) = some (f b) := by
  induction ss generalizing ts with
  | nil => cases h
  | cons s ss ih =>
    rw [modifyInnermost?] at h
    cases hs : s.find? name with
    | some b =>
      simp only [hs, Option.isSome_some, if_true, Option.some.injEq] at h
      subst h
      exact ⟨b, by simp [hs], by simp [find?_modify, hs]⟩
    | none =>
      simp only [hs, Option.isSome_none, Bool.false_eq_true, if_false] at h
      obtain ⟨us, hus, rfl⟩ := Option.map_eq_some_iff.mp h
      obtain ⟨b, hb, hfb⟩ := ih hus
      exact ⟨b, by simp [hs, hb], by simp [hs, hfb]⟩

end Scope

namespace Context

variable {name : String} {c d e : Context}

theorem binding?_modify (name : String) (f : Binding → Binding) (c : Context) :
    (c.modify name f).binding? name = (c.binding? name).map f := by
  unfold modify
  cases hmod : Scope.modifyInnermost? name f c.scopes with
  | some scopes =>
    obtain ⟨b, hb, hfb⟩ := Scope.findSome?_modifyInnermost? hmod
    simp [binding?, List.findSome?_append, hb, hfb]
  | none =>
    have hnone := Scope.findSome?_of_modifyInnermost? hmod
    simp [binding?, List.findSome?_append, hnone, Scope.find?_modify]

theorem touch_of_binding? (h : ∀ producer, c.binding? name ≠ some (.lazy producer)) :
    c.touch name = c := by
  unfold touch
  split
  · next producer hb => exact absurd hb (h producer)
  · rfl

/-- Who asks twice gets what was computed the first time. -/
theorem touch_touch (name : String) (c : Context) : (c.touch name).touch name = c.touch name := by
  refine touch_of_binding? fun producer => ?_
  unfold touch
  split
  · next b _ =>
    show (c.modify name _).binding? name ≠ _
    rw [binding?_modify]
    cases c.binding? name <;> simp
  · next hlazy => exact hlazy producer

theorem touch_push (name : String) (c : Context) : c.push.touch name = (c.touch name).push := by
  have hmodify (f : Binding → Binding) : c.push.modify name f = (c.modify name f).push := by
    have hpush : Scope.modifyInnermost? name f ([] :: c.scopes) =
        (Scope.modifyInnermost? name f c.scopes).map ([] :: ·) := rfl
    unfold modify push
    rw [hpush]
    cases Scope.modifyInnermost? name f c.scopes <;> rfl
  have hbinding : c.push.binding? name = c.binding? name := rfl
  unfold touch
  rw [hbinding]
  split
  · rw [hmodify]
    rfl
  · rfl

/-- A context as it was, or after the value of a name was asked for. -/
inductive Asked (name : String) (c : Context) : Context → Prop where
  | same : Asked name c c
  | asked : Asked name c (c.touch name)

namespace Asked

theorem trans (hcd : c.Asked name d) (hde : d.Asked name e) : c.Asked name e := by
  cases hcd with
  | same => exact hde
  | asked =>
    cases hde with
    | same => exact .asked
    | asked =>
      rw [touch_touch]
      exact .asked

theorem pop (h : c.push.Asked name d) : c.Asked name d.pop := by
  cases h with
  | same => exact .same
  | asked =>
    rw [touch_push, pop_push]
    exact .asked

theorem frame {written : Set String} (h : c.Asked name d) : c.Frame written d := by
  cases h with
  | same => exact .refl c
  | asked => exact frame_touch c name

/-- A value that was not bound lazily, or is there already, is not computed. -/
theorem eq_of_binding? (h : c.Asked name d)
    (hlazy : ∀ producer, c.binding? name ≠ some (.lazy producer)) : d = c := by
  cases h with
  | same => rfl
  | asked => exact touch_of_binding? hlazy

end Asked
end Context

/-! ## Nothing is done -/

variable {ev : Evaluator}

theorem Entry.next?_eq_none {pending : List Entry} {e : Element}
    (h : ∀ p ∈ pending, p.target.matches? e = false) : Entry.next? e pending = none := by
  induction pending with
  | nil => rfl
  | cons p pending ih =>
    obtain ⟨hp, hrest⟩ := List.forall_mem_cons.mp h
    rw [next?, hp, ih hrest]
    rfl

/-- A part of a run that puts out nodes and does nothing else, where text is not expanded. -/
def Passes (x : Running Emitted) (nodes : List Node) : Prop :=
  ∀ r, r.context.isInlining = false →
    ∃ c, x r = .ok ⟨nodes, none⟩ ⟨c, r.deeds⟩ ∧ r.context.Asked Context.inliningName c

namespace Passes

variable {x y : Running Emitted} {nodes nodes' : List Node}

theorem ofNodes (nodes : List Node) : Passes (pure ⟨nodes, none⟩) nodes :=
  fun r _ => ⟨r.context, rfl, .same⟩

theorem emitText (content : String) (l : Location) :
    Passes (emitText ev content l) [.text content l] := by
  intro r hinlining
  refine ⟨r.context.touch Context.inliningName, ?_, .asked⟩
  rw [emitText_run, if_neg (by rw [hinlining]; exact Bool.false_ne_true)]

theorem andThen (hx : Passes x nodes) (hy : Passes y nodes') :
    Passes (Running.andThen x y) (nodes ++ nodes') := by
  intro r hinlining
  obtain ⟨c, hrun, hc⟩ := hx r hinlining
  have hinlining' : c.isInlining = false := by
    rw [hc.frame.isInlining_eq (Set.notMem_empty _), hinlining]
  obtain ⟨d, hrun', hd⟩ := hy ⟨c, r.deeds⟩ hinlining'
  refine ⟨d, ?_, hc.trans hd⟩
  rw [Running.andThen_of_eq_ok hrun, hrun']

theorem inScope (hx : Passes x nodes) : Passes (Running.inScope x) nodes := by
  intro r hinlining
  obtain ⟨c, hrun, hc⟩ := hx { r with context := r.context.push } hinlining
  refine ⟨c.pop, ?_, hc.pop⟩
  unfold Running.inScope
  rw [hrun]

theorem emitAll {visit : Element → Running Emitted} {nodes : List Node}
    (hvisit : ∀ e : Element, e.toNode ∈ nodes → Passes (visit e) [e.toNode]) :
    Passes (emitAll ev visit nodes) nodes := by
  induction nodes with
  | nil => exact ofNodes []
  | cons n nodes ih =>
    have hhere : Passes (emitNode ev visit n) [n] := by
      cases n with
      | element tag children endTag => exact hvisit ⟨tag, children, endTag⟩ List.mem_cons_self
      | text content l => exact emitText content l
      | _ => exact ofNodes _
    rw [emitAll_cons]
    exact hhere.andThen (ih fun e he => hvisit e (List.mem_cons_of_mem _ he))

theorem around {e : Element} (hx : Passes x e.children) :
    Passes (Running.around e x) [e.toNode] := by
  intro r hinlining
  obtain ⟨c, hrun, hc⟩ := hx r hinlining
  refine ⟨c, ?_, hc⟩
  rw [Running.around_run, hrun]

end Passes

/-- Whether no processor is called for any element of some trees. -/
def Registry.Ignores (r : Registry) (nodes : List Node) : Prop :=
  ∀ e ∈ Node.elements nodes, ∀ p ∈ r.entries, p.target.matches? e = false

instance (r : Registry) (nodes : List Node) : Decidable (r.Ignores nodes) := by
  unfold Registry.Ignores
  infer_instance

theorem Registry.Ignores.sublist {r : Registry} {ns ms : List Node} (h : r.Ignores ms)
    (hsub : ns.Sublist ms) : r.Ignores ns :=
  fun e he => h e ((Node.elements_sublist hsub).subset he)

theorem Registry.ignores_toNode {r : Registry} {e : Element} :
    r.Ignores [e.toNode] ↔
      (∀ p ∈ r.entries, p.target.matches? e = false) ∧ r.Ignores e.children := by
  rw [Ignores, Node.elements_toNode, List.forall_mem_cons]
  rfl

/-- An element is visited without anything being done if no processor is called for it or for those
in it. The visits are nested no deeper than the elements. -/
theorem passes_visit {r : Registry} {fuel : Nat} {e : Element} (h : r.Ignores [e.toNode])
    (hfuel : e.toNode.size ≤ fuel) : Passes (visit ev r.entries fuel r.entries e) [e.toNode] := by
  induction fuel generalizing e with
  | zero => exact absurd hfuel (Nat.not_le.mpr (Node.size_pos _))
  | succ fuel ih =>
    obtain ⟨hhere, hchildren⟩ := Registry.ignores_toNode.mp h
    have hbody : Passes (emitAll ev (visit ev r.entries fuel r.entries) e.children) e.children := by
      refine .emitAll fun f hf => ih (hchildren.sublist (List.singleton_sublist.mpr hf)) ?_
      have hsize : e.toNode.size = Node.sizeAll e.children + 1 := rfl
      have hinside := Node.size_le_sizeAll hf
      omega
    rw [visit_succ, settle_of_next?_eq_none (Entry.next?_eq_none hhere)]
    exact hbody.around.inScope

/-- Nodes come out as they are where no processor is called for an element and text is not
expanded. -/
theorem passes_emit {r : Registry} {nodes : List Node} (h : r.Ignores nodes) :
    Passes (r.emit ev nodes) nodes := by
  refine .emitAll fun e he => passes_visit (h.sublist (List.singleton_sublist.mpr he)) ?_
  unfold Registry.fuel
  have hfactor : e.toNode.size + 1 ≤ (e.toNode.size + 1) * (r.size + 1) :=
    Nat.le_mul_of_pos_right _ r.size.succ_pos
  omega

namespace Engine

theorem render_of_parse {engine : Engine} (hcomments : engine.config.comments = .keep)
    {source : String} {d : Document} (hparse : engine.parse source = .ok d) :
    d.render = source := by
  unfold parse parseSource at hparse
  split at hparse
  · next hok =>
    cases hparse
    obtain ⟨herror, hrender⟩ := render_of_parseSource hok
    have hkeep : engine.config.parseOptions.comments = .keep := hcomments
    rw [hrender, hkeep, keptTexts_keep, (tokenize_faithful ..).text herror]
    simp [Source.ofString]
  · cases hparse

/-- An engine puts out nodes as they are if its processors are not called for any element in them
and text is not expanded. It does nothing on the way but to ask whether text is expanded. So it
writes a template in which nothing is for its processors as its source. -/
theorem process_of_ignores (engine : Engine) :
    (∀ nodes, engine.registry.Ignores nodes → ∀ run : Run, run.context.isInlining = false →
      ∃ c, engine.registry.emit engine.evaluator nodes run = .ok ⟨nodes, none⟩ ⟨c, run.deeds⟩ ∧
        run.context.Asked Context.inliningName c ∧ run.context.Frame ∅ c ∧
        ((∀ producer, run.context.binding? Context.inliningName ≠ some (.lazy producer)) →
          c = run.context)) ∧
      (engine.config.comments = .keep → ∀ source d, engine.parse source = .ok d →
        Registry.ofDialects [] = .ok engine.registry ∨ engine.registry.Ignores d.nodes →
        ∀ entries : List (String × Value), Value.find? Context.inliningName entries = none →
          ∃ c, Context.ofValue (.object entries) = .ok c ∧
            engine.process source (.object entries) = (.ok source, c)) := by
  constructor
  · intro nodes hnodes run hinlining
    obtain ⟨c, hrun, hc⟩ := passes_emit hnodes run hinlining
    exact ⟨c, hrun, hc, hc.frame, hc.eq_of_binding?⟩
  · intro hcomments source d hparse hnodes entries hname
    obtain ⟨c, hc, hscopes, hroot⟩ := value?_ofValue entries
    have hunbound : c.binding? Context.inliningName = none := by
      simp [Context.binding?, hscopes, hroot, hname]
    have hinlining : c.isInlining = false := by
      simp [Context.isInlining, Context.value?, hunbound]
    have hignores : engine.registry.Ignores d.nodes := by
      obtain hnone | hignores := hnodes
      · obtain hempty := Except.ok.inj hnone
        rw [← hempty]
        exact fun _ _ => List.forall_mem_nil _
      · exact hignores
    have hpasses : Passes (engine.registry.emit engine.evaluator d.nodes) d.nodes :=
      passes_emit hignores
    obtain ⟨left, hrun, hleft⟩ := hpasses { context := c } hinlining
    obtain rfl := hleft.eq_of_binding? fun producer => by simp [hunbound]
    refine ⟨left, hc, ?_⟩
    simp only [process, hparse, fill, hc, processTemplate, hrun, output]
    rw [← render_of_parse hcomments hparse]

/-- Attributes of another dialect, a comment for the parser and an expression in a text stay as they
are written. -/
theorem process_of_ignores_mark :
    let mark : Processor := .forAttribute "mark" 1 fun _ => pure .removeNode
    let registry : Registry := ⟨[⟨"t:mark", 1, .ofRule "t" mark.rule, mark⟩], ["t"]⟩
    let engine : Engine := ⟨{ comments := .keep }, registry, .standard⟩
    let source := "<p  u:mark='1'>[[x]]<!--/* y */--></P>"
    ∃ d c left, engine.parse source = .ok d ∧ engine.registry.Ignores d.nodes ∧
      engine.registry.emit engine.evaluator d.nodes ⟨{}, []⟩ =
        .ok ⟨d.nodes, none⟩ ⟨left, []⟩ ∧
      left = {} ∧ engine.process source (.object [("x", .null)]) = (.ok source, c) := by
  intro mark registry engine source
  have hcheck : (engine.parse source).toOption.any
      (fun d => decide (engine.registry.Ignores d.nodes)) = true := by
    decide +kernel
  obtain ⟨d, hparse, hcheck⟩ := exists_of_any_toOption hcheck
  have hignores := of_decide_eq_true hcheck
  obtain ⟨hemit, hprocess⟩ := process_of_ignores engine
  obtain ⟨left, hrun, -, -, hsame⟩ := hemit d.nodes hignores ⟨{}, []⟩ rfl
  obtain ⟨c, -, houtput⟩ := hprocess rfl source d hparse (.inr hignores) [("x", .null)] rfl
  exact ⟨d, c, left, hparse, hignores, hrun, hsame nofun, houtput⟩

end Engine
end NaturalTemplate
