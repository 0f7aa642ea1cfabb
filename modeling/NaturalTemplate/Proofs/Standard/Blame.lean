import NaturalTemplate.Engine
import NaturalTemplate.Proofs.Expression.Evaluation
import NaturalTemplate.Proofs.Standard.Termination

/-!
# Whom an error blames

A standard processor fails for want of a value, or because it cannot use one, and does not say
where. The place is put to the error where the processor is called: the error of a call names the
processor and the element, or the expression. Expressions in text are expanded without a processor.
If the value of one cannot be written, the error that ends the run says neither.
-/
namespace NaturalTemplate
open Markup

/-! ## What work raises -/

/-- An error about an expression, or about a value, that does not say which processor it comes from
or where. -/
inductive EngineError.IsRaised : EngineError → Prop where
  | expression (text : String) (cause : ExpressionError) : IsRaised (.expression text cause)
  | type (cause : TypeError) : IsRaised (.type cause)

/-- Work that fails with such errors only. -/
def Work.Raises {α : Type} (x : Work α) : Prop :=
  ∀ w e w', x w = .error e w' → e.IsRaised

theorem expression_of_value {c : Context} {text : String} {e : EngineError}
    (h : Evaluator.standard.value c text = .error e) :
    ∃ text cause, e = .expression text cause := by
  simp only [Evaluator.standard] at h
  split at h <;> cases h
  exact ⟨_, _, rfl⟩

namespace Work.Raises

variable {α β : Type}

theorem pure (a : α) : Raises (Pure.pure a : Work α) := fun _ _ _ => nofun

theorem throw {e : EngineError} (h : e.IsRaised) : Raises (MonadExcept.throw e : Work α) := by
  intro w e' w' hrun
  cases hrun
  exact h

theorem bind {x : Work α} {f : α → Work β} (hx : Raises x) (hf : ∀ a, Raises (f a)) :
    Raises (x >>= f) := by
  intro w e w' h
  obtain h | ⟨a, v, -, h⟩ := eq_error_of_bind h
  · exact hx _ _ _ h
  · exact hf a _ _ _ h

theorem element : Raises Work.element := fun _ _ _ => nofun

theorem context : Raises Work.context := fun _ _ _ => nofun

theorem changeElement (f : Element → Element) : Raises (Work.changeElement f) := fun _ _ _ => nofun

theorem changeContext (f : Context → Context) : Raises (Work.changeContext f) := fun _ _ _ => nofun

theorem ofExcept {x : Except EngineError α} (h : ∀ e, x = .error e → e.IsRaised) :
    Raises (Work.ofExcept x) := by
  cases x with
  | ok a => exact .pure a
  | error e => exact .throw (h e rfl)

theorem text (v : Value) : Raises (Work.text v) := by
  refine .ofExcept fun e h => ?_
  unfold Value.text at h
  split at h <;> cases h
  exact .type _

theorem evaluate {call : Call} (hcall : call.evaluator = .standard) (expression : String) :
    Raises (call.evaluate expression) := by
  refine .bind .context fun c => .bind (.changeContext _) fun _ => .ofExcept fun e h => ?_
  rw [hcall] at h
  obtain ⟨text, cause, rfl⟩ := expression_of_value h
  exact .expression text cause

end Work.Raises

namespace Standard
open Work

variable {call : Call}

/-! ## The standard processors -/

theorem isRaised_of_assignments {text : String} {e : EngineError}
    (h : assignments text = .error e) : e.IsRaised := by
  unfold assignments at h
  generalize Nesting.splitAll ',' {} text.toList = parts at h
  induction parts with
  | nil => cases h
  | cons part parts ih =>
    rw [List.mapM_cons] at h
    cases hpart : assignment part with
    | error e' =>
      rw [hpart] at h
      cases h
      unfold assignment at hpart
      split at hpart <;> cases hpart
      exact .type _
    | ok a =>
      rw [hpart] at h
      cases hparts : parts.mapM assignment with
      | error e' =>
        rw [hparts] at h
        cases h
        exact ih hparts
      | ok as =>
        rw [hparts] at h
        cases h

theorem isRaised_of_iteration {declaration : String} {e : EngineError}
    (h : iteration declaration = .error e) : e.IsRaised := by
  unfold iteration at h
  split at h
  · cases h
    exact .type _
  · dsimp only at h
    split at h <;> cases h
    exact .type _

theorem raises_setAttribute (name : String) (v : Value) : Raises (setAttribute name v) := by
  unfold setAttribute
  split
  · exact .changeElement _
  · exact .bind (.text v) fun _ => .changeElement _

variable (hcall : call.evaluator = .standard)
include hcall

theorem raises_setAll (assigned : List (String × String)) : Raises (setAll call assigned) := by
  induction assigned with
  | nil => exact .pure _
  | cons x rest ih =>
    exact .bind (.evaluate hcall x.2) fun v => .bind (raises_setAttribute x.1 v) fun _ => ih

theorem raises_joinAll (join : String → String → String) (assigned : List (String × String)) :
    Raises (joinAll join call assigned) := by
  induction assigned with
  | nil => exact .pure _
  | cons x rest ih =>
    refine .bind (.evaluate hcall x.2) fun v => .bind (.text v) fun extra => ?_
    dsimp only
    split
    · exact .bind (.changeElement _) fun _ => ih
    · exact ih

theorem raises_bindAll (assigned : List (String × String)) : Raises (bindAll call assigned) := by
  induction assigned with
  | nil => exact .pure _
  | cons x rest ih =>
    have hbind : Raises (call.evaluate x.2 >>= fun v =>
        Work.changeContext (fun c => c.setLocal x.1 v) >>= fun _ => bindAll call rest) :=
      .bind (.evaluate hcall x.2) fun v => .bind (.changeContext _) fun _ => ih
    rw [bindAll]
    split
    · exact .bind (.throw (.type _)) fun _ => hbind
    · exact hbind

theorem raises_appendTo (name : String) (s : Separator) : Raises (appendTo name s call) := by
  refine .bind (.evaluate hcall _) fun v => .bind (.text v) fun extra => ?_
  dsimp only
  split
  · exact .bind (.changeElement _) fun _ => .pure _
  · exact .pure _

theorem raises_setBody (escaped : Bool) : Raises (setBody escaped call) :=
  .bind (.evaluate hcall _) fun v => .bind (.text v) fun _ => .bind (.changeElement _) fun _ =>
    .pure _

theorem raises_each : Raises (each call) := by
  refine .bind (.ofExcept fun _ => isRaised_of_iteration) fun i =>
    .bind (.evaluate hcall _) fun collection => ?_
  split
  · exact .pure _
  · exact .throw (.type _)

theorem raises_conditional (keepWhen : Bool) : Raises (conditional keepWhen call) := by
  refine .bind (.evaluate hcall _) fun v => ?_
  split <;> exact .pure _

theorem raises_case : Raises (case call) := by
  unfold case
  refine .bind .context fun c => .bind (.changeContext _) fun _ => ?_
  split
  · exact .throw (.type _)
  · split
    · exact .pure _
    · extract_lets finish
      have hfinish (matched : Bool) : Raises (finish matched) := by
        simp only [finish]
        split
        · exact .bind (.changeContext _) fun _ => .pure _
        · exact .pure _
      split
      · exact hfinish true
      · exact .bind (.evaluate hcall _) fun _ => hfinish _

omit hcall in
theorem raises_inline : Raises (inline call) := by
  unfold inline
  extract_lets finish
  have hfinish (on : Bool) : Raises (finish on) := .bind (.changeContext _) fun _ => .pure _
  split
  · exact hfinish true
  · exact hfinish true
  · exact hfinish true
  · exact hfinish false
  · exact .bind (.throw (.type _)) hfinish

omit hcall in
theorem raises_unwrap : Raises (unwrap call) := .bind .element fun _ => .pure _

theorem raises_remove : Raises (remove call) := by
  unfold remove
  extract_lets declared finish
  have hfinish (mode : String) : Raises (finish mode) := by
    simp only [finish]
    split
    · exact .pure _
    · exact .pure _
    · exact raises_unwrap
    · exact .bind (.changeElement _) fun _ => .pure _
    · exact .pure _
    · exact .pure _
    · exact .throw (.type _)
  split
  · exact hfinish declared
  · exact .bind (.evaluate hcall _) fun v => .bind (.text v) hfinish

theorem raises_run {p : Processor} (hp : p ∈ processors) : Raises (p.run call) := by
  have hassigned {work : List (String × String) → Work Unit}
      (hwork : ∀ assigned, Raises (work assigned)) :
      Raises (Work.ofExcept (assignments call.value) >>= fun assigned =>
        work assigned >>= fun _ => pure Directive.proceed) :=
    .bind (.ofExcept fun _ => isRaised_of_assignments) fun assigned =>
      (hwork assigned).bind fun _ => .pure _
  obtain ⟨name, rule, precedence, run⟩ := p
  have hstandard : IsStandard name rule run := isStandard_of_mem hp
  show Raises (run call)
  cases hstandard with
  | each => exact raises_each hcall
  | case => exact raises_case hcall
  | whenTrue | whenFalse => exact raises_conditional hcall _
  | switch | object =>
    exact .bind (.evaluate hcall _) fun _ => .bind (.changeContext _) fun _ => .pure _
  | bindings => exact hassigned (raises_bindAll hcall)
  | attr => exact hassigned (raises_setAll hcall)
  | attrprepend | attrappend => exact hassigned (raises_joinAll hcall _)
  | @value name =>
    exact .bind (.evaluate hcall _) fun v => (raises_setAttribute name v).bind fun _ => .pure _
  | flag => exact .bind (.evaluate hcall _) fun _ => .bind (.changeElement _) fun _ => .pure _
  | inline => exact raises_inline
  | classappend | styleappend => exact raises_appendTo hcall _ _
  | text | utext => exact raises_setBody hcall _
  | remove => exact raises_remove hcall
  | block => exact raises_unwrap

omit hcall

/-! ## Who is blamed -/

/-- What an error says that ends a run, by the last thing that was done in the run. -/
inductive Blames (places : Set Location) : EngineError → List Deed → Prop where
  | expression (text : String) (cause : ExpressionError) (deeds : List Deed) :
    Blames places (.expression text cause) deeds
  /-- A processor that was called for an element. -/
  | called {p : Entry} {before : Workspace} {cause : TypeError} (hp : p ∈ registry.entries)
    (hplace : before.element.location ∈ places) (deeds : List Deed) :
    Blames places
      (.processing p.id before.element.location (EngineError.type cause).message)
      (.called p before (.error
        (.processing p.id before.element.location (EngineError.type cause).message)) :: deeds)
  /-- A text in which an expression has a value that cannot be written. -/
  | expanded {c : Context} {content : String} {front back : List Inline.Segment}
    {text : List Char} {escaped : Bool} {v : Value} (hinlining : c.isInlining = true)
    (hcontent : Inline.segments content.toList = front ++ .expression text escaped :: back)
    (hvalue : Evaluator.standard.value c (String.ofList text) = .ok v)
    (htext : v.text? = none) (deeds : List Deed) :
    Blames places (.type (.notText v.type)) (.expanded content :: deeds)

/-- A part of a run that does not halt the template and fails with an error that blames someone. -/
structure Accountable (places : Set Location) (x : Running Emitted) : Prop where
  goesOn {r s : Run} {emitted : Emitted} (h : x r = .ok emitted s) : emitted.halt = none
  blames {r s : Run} {failure : Failure} (h : x r = .error failure s) :
    ∃ e, failure = .error e ∧ Blames places e s.deeds

/-! ## Calls -/

variable {places : Set Location} {p : Entry} {e : Element} {r s : Run}

theorem directive_of_call {ev : Evaluator} (hp : p ∈ registry.entries) {e' : Element}
    {directive : Directive} (h : p.call ev e r = .ok (directive, e') s) (earlyExit : Bool) :
    directive ≠ .halt earlyExit := by
  rintro rfl
  obtain ⟨-, hanswer⟩ := (stable_shrunk (takeAttributes e (p.target.claimed e)).2).of_call hp
    (fun _ _ => trivial) (fun _ _ _ _ _ _ _ => trivial) h ⟨rfl, rfl, .refl _⟩
  cases hanswer

theorem blames_of_call (hp : p ∈ registry.entries) (hplace : e.location ∈ places)
    {failure : Failure} (h : p.call .standard e r = .error failure s) :
    ∃ e, failure = .error e ∧ Blames places e s.deeds := by
  rw [Entry.call_run] at h
  split at h
  · cases h
  · next cause w hrun =>
    cases h
    refine ⟨_, rfl, ?_⟩
    have hcall : (p.calledWith .standard e).evaluator = .standard := rfl
    have hbefore : (⟨e, r.context⟩ : Workspace).element.location ∈ places := hplace
    cases raises_run hcall (mem_processors_of_mem_registry hp) _ _ _ hrun with
    | expression text cause => exact .expression text cause _
    | type cause => exact .called hp hbefore _

theorem blames_of_settle {pending : List Entry} (hpending : pending.Sublist registry.entries)
    {children : Bool} (hplace : e.location ∈ places) {failure : Failure}
    (h : settle .standard pending children e r = .error failure s) :
    ∃ e, failure = .error e ∧ Blames places e s.deeds := by
  induction pending, children, e using settle.induct generalizing r with
  | case1 pending children e hnext =>
    rw [settle_of_next?_eq_none hnext] at h
    cases h
  | case2 pending children e p others hnext ihproceed ihskip =>
    have hothers := (Entry.sublist_of_next? hnext).trans hpending
    have hp := hpending.subset (Entry.mem_of_next? hnext).1
    rw [settle_of_next? hnext] at h
    obtain hcall | ⟨⟨directive, e'⟩, t, hcall, h⟩ := eq_error_of_bind h
    · exact blames_of_call hp hplace hcall
    · have hplace' : e'.location ∈ places := (shrunk_of_call hp hcall).location ▸ hplace
      cases directive with
      | proceed => exact ihproceed e' hothers hplace' h
      | skipChildren => exact ihskip e' hothers hplace' h
      | _ => cases h

theorem settle_ne_halt {ev : Evaluator} {pending : List Entry}
    (hpending : pending.Sublist registry.entries) {children : Bool} {halt : Halt} :
    settle ev pending children e r ≠ .ok (.halt halt) s := by
  intro h
  induction pending, children, e using settle.induct generalizing r with
  | case1 pending children e hnext =>
    rw [settle_of_next?_eq_none hnext] at h
    cases h
  | case2 pending children e p others hnext ihproceed ihskip =>
    have hothers := (Entry.sublist_of_next? hnext).trans hpending
    have hp := hpending.subset (Entry.mem_of_next? hnext).1
    rw [settle_of_next? hnext] at h
    obtain ⟨⟨directive, e'⟩, t, hcall, h⟩ := eq_ok_of_bind h
    cases directive with
    | proceed => exact ihproceed e' hothers h
    | skipChildren => exact ihskip e' hothers h
    | halt earlyExit => exact directive_of_call hp hcall earlyExit rfl
    | _ => cases h

/-! ## Text -/

theorem error_of_expand {text : List Char} {escaped : Bool} {c c' : Context} {e : EngineError}
    (h : (Inline.Segment.expression text escaped).expand .standard c = (.error e, c')) :
    Evaluator.standard.value c (String.ofList text) = .error e ∨
      ∃ v, Evaluator.standard.value c (String.ofList text) = .ok v ∧ v.text? = none ∧
        e = .type (.notText v.type) := by
  rw [Inline.Segment.expand, Evaluator.evaluate] at h
  cases hvalue : Evaluator.standard.value c (String.ofList text) with
  | error e' =>
    rw [hvalue] at h
    cases h
    exact .inl rfl
  | ok v =>
    simp only [hvalue, Value.text] at h
    cases htext : v.text? with
    | some s =>
      rw [htext] at h
      cases h
    | none =>
      rw [htext] at h
      cases h
      exact .inr ⟨v, rfl, htext, rfl⟩

/-- A text that cannot be expanded has an expression that has no value, or one that cannot be
written. Expressions have their values in any context in which all names have the same values. -/
theorem error_of_expandAll {parts : List Inline.Segment} {c d d' : Context} {e : EngineError}
    (hc : c.SameValues d) (h : Inline.expandAll .standard parts d = (.error e, d')) :
    (∃ text cause, e = .expression text cause) ∨
      ∃ front text escaped back v, parts = front ++ .expression text escaped :: back ∧
        Evaluator.standard.value c (String.ofList text) = .ok v ∧ v.text? = none ∧
        e = .type (.notText v.type) := by
  induction parts generalizing d with
  | nil => cases h
  | cons part parts ih =>
    rw [Inline.expandAll] at h
    split at h
    · next d₁ hpart =>
      cases h
      cases part with
      | literal => cases hpart
      | expression text escaped =>
        obtain hvalue | ⟨v, hvalue, htext, rfl⟩ := error_of_expand hpart
        · exact .inl (expression_of_value hvalue)
        · rw [Evaluator.value_congr fun name _ => hc name] at hvalue
          exact .inr ⟨[], text, escaped, parts, v, rfl, hvalue, htext, rfl⟩
    · next front d₁ hpart =>
      split at h
      · next hrest =>
        cases h
        have hframe : d.Frame ∅ (part.expand .standard d).2 := frame_expand part d
        rw [hpart] at hframe
        have hd : c.SameValues d₁ := fun name =>
          (hframe.value? (Set.notMem_empty name)).trans (hc name)
        obtain hexpression | ⟨front, text, escaped, back, v, rfl, hv⟩ := ih hd hrest
        · exact .inl hexpression
        · exact .inr ⟨part :: front, text, escaped, back, v, rfl, hv⟩
      · cases h

theorem blames_of_emitText {content : String} {l : Location} {failure : Failure}
    (h : emitText .standard content l r = .error failure s) :
    ∃ e, failure = .error e ∧ Blames places e s.deeds := by
  rw [emitText_run] at h
  dsimp only at h
  split at h
  · next hinlining =>
    split at h
    · cases h
    · next cause d hexpand =>
      cases h
      refine ⟨cause, rfl, ?_⟩
      unfold Inline.expand? at hexpand
      dsimp only at hexpand
      split at hexpand
      · split at hexpand
        · cases hexpand
        · next hall =>
          cases hexpand
          have hsame : r.context.SameValues (r.context.touch Context.inliningName) :=
            r.context.sameValues_touchAll [Context.inliningName]
          obtain ⟨text, cause, rfl⟩ | ⟨front, text, escaped, back, v, hparts, hvalue, htext, rfl⟩ :=
            error_of_expandAll hsame hall
          · exact .expression text cause _
          · exact .expanded hinlining hparts hvalue htext _
      · cases hexpand
  · cases h

/-! ## Visits -/

/-- Whether all elements of some nodes stand at some of these places. -/
def Lies (places : Set Location) (nodes : List Node) : Prop :=
  ∀ f ∈ Node.elements nodes, f.location ∈ places

theorem Lies.of_sublist {nodes inner : List Node} (h : Lies places nodes)
    (hsub : (Node.elements inner).Sublist (Node.elements nodes)) : Lies places inner :=
  fun f hf => h f (hsub.subset hf)

theorem Lies.of_mem {nodes : List Node} (h : Lies places nodes)
    (he : e ∈ nodes.filterMap Node.element?) : Lies places [e.toNode] := by
  obtain ⟨n, hn, helement⟩ := List.mem_filterMap.mp he
  obtain rfl := Node.eq_toNode_of_element? helement
  exact h.of_sublist (Node.elements_sublist_of_mem hn)

theorem Lies.children (h : Lies places [e.toNode]) : Lies places e.children := by
  rw [Lies, Node.elements_toNode] at h
  exact (List.forall_mem_cons.mp h).2

theorem Lies.location (h : Lies places [e.toNode]) : e.location ∈ places := by
  rw [Lies, Node.elements_toNode] at h
  exact (List.forall_mem_cons.mp h).1

/-- The elements that are visited inside a visit stand where the visited one does, or where
elements in it do. -/
theorem Shrinks.lies {pending entries : List Entry} {outcome : Outcome}
    (h : Shrinks pending e outcome) (he : Lies places [e.toNode]) {y : List Entry × Element}
    (hy : y ∈ outcome.visits entries) : Lies places [y.2.toNode] := by
  have hinside {nodes : List Node}
      (hsub : (Node.elements nodes).Sublist (Node.elements e.children))
      (hy : y ∈ (nodes.filterMap Node.element?).map fun e => (entries, e)) :
      Lies places [y.2.toNode] := by
    obtain ⟨f, hf, rfl⟩ := List.mem_map.mp hy
    exact (he.children.of_sublist hsub).of_mem hf
  cases outcome with
  | keep e' children =>
    cases children with
    | false => cases hy
    | true => exact hinside h.elements hy
  | splice nodes => exact hinside h hy
  | iterate e' others items binding status =>
    obtain ⟨item, -, rfl⟩ := List.mem_map.mp hy
    intro f hf
    rw [Node.elements_toNode] at hf
    obtain rfl | hf := List.mem_cons.mp hf
    · exact h.1.location ▸ he.location
    · exact he.children f (h.1.elements.subset hf)
  | _ => cases hy

namespace Accountable

theorem pure (nodes : List Node) : Accountable places (Pure.pure ⟨nodes, none⟩) where
  goesOn h := by
    cases h
    rfl
  blames h := by cases h

theorem inScope {x : Running Emitted} (hx : Accountable places x) :
    Accountable places (Running.inScope x) where
  goesOn h := by
    obtain ⟨t, hrun, rfl⟩ := Running.eq_ok_of_inScope h
    exact hx.goesOn hrun
  blames h := by
    rw [Running.inScope_run] at h
    split at h
    · cases h
    · next hrun =>
      cases h
      obtain ⟨e, hfailure, hblames⟩ := hx.blames hrun
      exact ⟨e, hfailure, hblames⟩

theorem around {x : Running Emitted} (hx : Accountable places x) (e : Element) :
    Accountable places (Running.around e x) where
  goesOn h := by
    obtain ⟨body, hrun, rfl⟩ := Running.eq_ok_of_around h
    have hhalt := hx.goesOn hrun
    exact hhalt
  blames h := by
    rw [Running.around_run] at h
    split at h
    · cases h
    · next hrun =>
      cases h
      exact hx.blames hrun

end Accountable

theorem closed_accountable (places : Set Location) :
    Running.Closed .standard (Accountable places) where
  nothing := .pure []
  leaf _ := .pure _
  text content l := by
    refine ⟨fun h => ?_, fun h => blames_of_emitText h⟩
    obtain ⟨written, rfl⟩ := eq_ok_of_emitText h
    rfl
  andThen {x y} hx hy := by
    refine ⟨fun h => ?_, fun {r s failure} h => ?_⟩
    · obtain ⟨-, h⟩ | ⟨first, t, second, -, hsecond, rfl⟩ := Running.eq_ok_of_andThen h
      · exact hx.goesOn h
      · have hhalt := hy.goesOn hsecond
        exact hhalt
    · rw [Running.andThen_run] at h
      split at h
      · next hfirst =>
        rw [hx.goesOn hfirst] at h
        dsimp only [Option.isSome_none] at h
        split at h
        · cases h
        · split at h
          · cases h
          · next hsecond =>
            cases h
            exact hy.blames hsecond
      · next hfirst =>
        cases h
        exact hx.blames hfirst
  item {x} hx f := .inScope ⟨fun h => hx.goesOn h, fun h => hx.blames h⟩

theorem accountable_visit {fuel : Nat} {pending : List Entry}
    (hpending : pending.Sublist registry.entries)
    (hfuel : need registry.entries pending e < fuel) (he : Lies places [e.toNode]) :
    Accountable places (visit .standard registry.entries fuel pending e) := by
  induction fuel generalizing pending e with
  | zero => exact absurd hfuel (Nat.not_lt_zero _)
  | succ fuel ih =>
    rw [visit_succ]
    have hfollow {r t : Run} {outcome : Outcome}
        (hsettle : settle .standard pending true e r = .ok outcome t) :
        Accountable places
          (outcome.follow .standard registry.entries (visit .standard registry.entries fuel)) := by
      have hshrinks := shrinks_of_settle hpending hsettle
      refine (closed_accountable places).follow (fun emitted hhalt => ?_)
        (fun e _ hx => hx.around e) fun y hy => ?_
      · obtain ⟨nodes, halt⟩ := emitted
        cases halt with
        | none => exact .pure nodes
        | some halt =>
          obtain rfl := hhalt halt rfl
          exact absurd hsettle (settle_ne_halt hpending)
      · have hdescends := hshrinks.descends hy
        have hneed := hdescends.need_lt
        exact ih (hdescends.sublist hpending) (by simp only at hneed; omega) (hshrinks.lies he hy)
    refine .inScope ⟨fun h => ?_, fun h => ?_⟩
    · obtain ⟨outcome, t, hsettle, h⟩ := eq_ok_of_bind h
      exact (hfollow hsettle).goesOn h
    · obtain h | ⟨outcome, t, hsettle, h⟩ := eq_error_of_bind h
      · exact blames_of_settle hpending he.location h
      · exact (hfollow hsettle).blames h

theorem accountable_emit {nodes : List Node} (h : Lies places nodes) :
    Accountable places (registry.emit .standard nodes) :=
  (closed_accountable places).emitAll fun e he =>
    accountable_visit (.refl _) (need_lt_fuel e) (h.of_mem he)

end Standard

namespace Engine

/-- An error that processing with the standard dialect ends in is about an expression, or it names a
processor and the place of an element of the template. The only other error is that of a text in
which an expression has a value that cannot be written: it says no more than this. -/
theorem blame_of_processTemplate {engine : Engine}
    (hregistry : Registry.ofDialects [Standard.dialect] = .ok engine.registry)
    (hevaluator : engine.evaluator = .standard) {d : Document} {c left : Context}
    {e : EngineError} (h : engine.processTemplate d c = (.error e, left)) :
    ∃ r, engine.registry.emit engine.evaluator d.nodes { context := c } = .error (.error e) r ∧
      ((∃ text cause, e = .expression text cause) ∨
        (∃ p before cause deeds, r.deeds = .called p before (.error e) :: deeds ∧
          p.id ∈ engine.registry.ids ∧
          (∃ f ∈ Node.elements d.nodes, f.location = before.element.location) ∧
          e = .processing p.id before.element.location (EngineError.type cause).message) ∨
        (∃ content c₀ front text escaped back v deeds, r.deeds = .expanded content :: deeds ∧
          c₀.isInlining = true ∧
          Inline.segments content.toList = front ++ .expression text escaped :: back ∧
          Evaluator.standard.value c₀ (String.ofList text) = .ok v ∧ v.text? = none ∧
          e = .type (.notText v.type))) := by
  have hr : Standard.registry = engine.registry :=
    Except.ok.inj (Standard.ofDialects_dialect.symm.trans hregistry)
  have hlies : Standard.Lies { l | ∃ f ∈ Node.elements d.nodes, f.location = l } d.nodes :=
    fun f hf => ⟨f, hf, rfl⟩
  have haccount := Standard.accountable_emit hlies
  unfold processTemplate at h
  rw [hevaluator, ← hr] at h ⊢
  split at h
  · next emitted r hemit =>
    simp only [output, haccount.goesOn hemit, Prod.mk.injEq, reduceCtorEq, false_and] at h
  · next failure r hemit =>
    obtain ⟨e', rfl, hblames⟩ := haccount.blames hemit
    cases h
    refine ⟨r, hemit, ?_⟩
    generalize hdeeds : r.deeds = deeds at hblames
    cases hblames with
    | expression text cause => exact .inl ⟨text, cause, rfl⟩
    | called hp hplace deeds =>
      exact .inr (.inl ⟨_, _, _, deeds, rfl, List.mem_map_of_mem hp, hplace, rfl⟩)
    | expanded hinlining hcontent hvalue htext deeds =>
      exact .inr (.inr ⟨_, _, _, _, _, _, _, deeds, rfl, hinlining, hcontent, hvalue, htext, rfl⟩)

/-- The second item of a repetition cannot be written, and the element of the template that should
write it is blamed. -/
theorem blame_of_processTemplate_item :
    let engine : Engine := ⟨{}, Standard.registry, .standard⟩
    let c : Context := { root := [("xs", .value (.array [.string "a", .array []]))] }
    let e : EngineError :=
      .processing "Standard:text" ⟨2, 25, 29⟩ "Type error: cannot write array as text"
    ∃ d left, ∃ r : Run, ∃ (p : Entry) (before : Workspace) (deeds : List Deed),
      engine.parse "<ul>\n<li th:each=\"x : ${xs}\"><b th:text=\"${x}\"></b></li></ul>" = .ok d ∧
        engine.processTemplate d c = (.error e, left) ∧
        r.deeds = .called p before (.error e) :: deeds ∧ p.id ∈ engine.registry.ids ∧
        ∃ f ∈ Node.elements d.nodes, f.location = before.element.location := by
  intro engine c e
  have hcheck : (engine.parse
      "<ul>\n<li th:each=\"x : ${xs}\"><b th:text=\"${x}\"></b></li></ul>").toOption.any
      (fun d => (engine.processTemplate d c).1 = .error e) = true := by
    decide +kernel
  obtain ⟨d, hparse, hcheck⟩ := exists_of_any_toOption hcheck
  have hprocess : engine.processTemplate d c = (.error e, (engine.processTemplate d c).2) :=
    Prod.ext (of_decide_eq_true hcheck) rfl
  obtain ⟨r, -, ⟨text, cause, herror⟩ | ⟨p, before, cause, deeds, hdeeds, hid, hplace, -⟩ |
    ⟨content, c₀, front, text, escaped, back, v, deeds, -, -, -, -, -, herror⟩⟩ :=
      blame_of_processTemplate Standard.ofDialects_dialect rfl hprocess
  · exact absurd herror (by simp [e])
  · exact ⟨d, _, r, p, before, deeds, hparse, hprocess, hdeeds, hid, hplace⟩
  · exact absurd herror (by simp [e])

/-- The value of an expression in text cannot be written, and the error does not say where. -/
theorem processTemplate_unwritten :
    let engine : Engine := ⟨{}, Standard.registry, .standard⟩
    let c : Context := { root := [("x", .value (.array [.string "a"]))] }
    ∃ d left, Registry.ofDialects [Standard.dialect] = .ok engine.registry ∧
      engine.parse "<p th:inline=\"text\">[[${x}]]</p>" = .ok d ∧
      engine.processTemplate d c = (.error (.type (.notText .array)), left) := by
  intro engine c
  have hcheck : (engine.parse "<p th:inline=\"text\">[[${x}]]</p>").toOption.any
      (fun d => (engine.processTemplate d c).1 = .error (.type (.notText .array))) = true := by
    decide +kernel
  obtain ⟨d, hparse, hcheck⟩ := exists_of_any_toOption hcheck
  exact ⟨d, _, Standard.ofDialects_dialect, hparse, Prod.ext (of_decide_eq_true hcheck) rfl⟩

end Engine
end NaturalTemplate
