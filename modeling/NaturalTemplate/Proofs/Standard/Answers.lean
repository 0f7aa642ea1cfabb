import NaturalTemplate.Proofs.Processing.InStep
import NaturalTemplate.Proofs.Standard.Body

/-!
# What the standard processors cannot tell apart

The standard processors see an element through its children, the attributes that they write and the
value of the attribute that called for them. Called for elements that are alike in this, in contexts
that are alike, they answer alike and leave elements that are alike.
-/
namespace NaturalTemplate.Standard
open Markup

variable {ev : Evaluator} {C : Context → Context → Prop} {E : Element → Element → Prop}
  {N : List Node → List Node → Prop} {assignable : Set String} {call call' : Call} {name : String}

/-- A relation between elements with children that are related, which shows the same in the
attributes with assignable names, and lasts while the attributes and the bodies of both elements are
changed in the same way. -/
structure AlikeWrites (assignable : Set String) (N : List Node → List Node → Prop)
    (E : Element → Element → Prop) : Prop where
  children {e f : Element} (h : E e f) : N e.children f.children
  existing {e f : Element} (h : E e f) {name : String} (hname : name ∈ assignable) :
    existing name f = existing name e
  setAttribute {e f : Element} (h : E e f) {name : String} (hname : name ∈ assignable)
    (value : String) : E (e.setAttribute name value) (f.setAttribute name value)
  removeAttribute {e f : Element} (h : E e f) {name : String} (hname : name ∈ assignable) :
    E (e.removeAttribute name) (f.removeAttribute name)
  setBody {e f : Element} (h : E e f) (body : String) :
    E (e.setChildren (bodyNodes body)) (f.setChildren (bodyNodes body))

/-- A relation between elements that lasts while all but the first of the elements in both are taken
away. -/
def AlikeFirsts (E : Element → Element → Prop) : Prop :=
  ∀ e f, E e f → E { e with children := keepFirstElement e.children }
    { f with children := keepFirstElement f.children }

/-- A relation between elements that lasts whatever is done to both elements. -/
structure AlikeElements (assignable : Set String) (N : List Node → List Node → Prop)
    (E : Element → Element → Prop) : Prop extends AlikeWrites assignable N E where
  keepFirstElement {e f : Element} (h : E e f) :
    E { e with children := keepFirstElement e.children }
      { f with children := keepFirstElement f.children }

/-! ## Ways to remove an element -/

/-- The mode that the value of `th:remove` asks for, by its name or by an expression, if the
expression has a value with a text. -/
def removeMode? (ev : Evaluator) (value : String) (c : Context) : Option String :=
  if Text.trimmed value ∈ removeModes then some (Text.trimmed value)
  else ((ev.value c (Text.trimmed value)).bind Value.text).toOption

/-- Finds out about the mode in which an element is to be removed. -/
def readMode (call : Call) : Work String :=
  if Text.trimmed call.value ∈ removeModes then pure (Text.trimmed call.value)
  else call.evaluate (Text.trimmed call.value) >>= Work.text

/-- Removes an element in a mode. -/
def removeIn (mode : String) (call : Call) : Work Directive := do
  match mode with
  | "all" => return .removeNode
  | "body" => return .removeBody
  | "tag" => unwrap call
  | "all-but-first" =>
    Work.changeElement fun e => { e with children := keepFirstElement e.children }
    return .proceed
  | "none" | "" => return .proceed
  | mode => throw (.type (.removeMode mode))

theorem remove_eq (call : Call) :
    remove call = readMode call >>= fun mode => removeIn mode call := by
  unfold remove readMode
  extract_lets declared finish
  split
  · rfl
  · rw [bind_assoc]
    rfl

theorem eq_ok_of_ofExcept {α : Type} {x : Except EngineError α} {a : α} {w v : Workspace}
    (h : Work.ofExcept x w = .ok a v) : x = .ok a := by
  cases x <;> cases h
  rfl

theorem removeMode?_of_readMode {mode : String} {w v : Workspace}
    (h : readMode call w = .ok mode v) :
    removeMode? call.evaluator call.value w.context = some mode := by
  unfold readMode at h
  unfold removeMode?
  split at h
  · next hdeclared =>
    rw [if_pos hdeclared]
    cases h
    rfl
  · next hdeclared =>
    rw [if_neg hdeclared]
    obtain ⟨value, w', hvalue, htext⟩ := eq_ok_of_bind h
    rw [eq_ok_of_ofExcept hvalue, Except.bind, eq_ok_of_ofExcept htext]
    rfl

/-! ## The same answers -/

/-- Two calls with attributes of the same value. -/
structure AlikeCalls (ev : Evaluator) (call call' : Call) : Prop where
  evaluator : call.evaluator = ev
  evaluator' : call'.evaluator = ev
  value : call'.value = call.value

/-- The same answer of a processor for two elements, up to nodes that are related. Only one
processor asks for an element without its body, and where children are to be left as they are, they
are the same text. -/
inductive Answers (N : List Node → List Node → Prop) (processor : String) (e f : Element) :
    Directive → Directive → Prop where
  | proceed : Answers N processor e f .proceed .proceed
  | removeNode : Answers N processor e f .removeNode .removeNode
  | removeBody (hname : processor = "remove") : Answers N processor e f .removeBody .removeBody
  | replace {nodes nodes' : List Node} (h : N nodes nodes') :
    Answers N processor e f (.replace nodes) (.replace nodes')
  | iterate (items : List Value) (binding : String) (status : Option String) :
    Answers N processor e f (.iterate items binding status) (.iterate items binding status)
  | skipChildren {body : String} (he : e.children = bodyNodes body)
    (hf : f.children = bodyNodes body) : Answers N processor e f .skipChildren .skipChildren

/-- The body of an element is set to a text, or to nothing if the text is empty. -/
theorem setChildren_content (escaped : Bool) (content : String) (e : Element) :
    (if content = "" then e.setChildren []
      else e.setText (if escaped then Text.escape content else content)) =
        e.setChildren (bodyNodes (if escaped then Text.escape content else content)) := by
  have hempty : (if escaped then Text.escape content else content) = "" ↔ content = "" := by
    cases escaped
    · rfl
    · exact escape_eq_empty
  simp only [bodyNodes, hempty]
  split <;> rfl

/-- Work that comes to the same answer and leaves elements and contexts alike. -/
def AnswerInStep (N : List Node → List Node → Prop) (processor : String)
    (E : Element → Element → Prop) (C : Context → Context → Prop) (x y : Work Directive) : Prop :=
  InStep (Workspace.Alike E C) x y fun d d' w v =>
    Answers N processor w.element v.element d d' ∧ Workspace.Alike E C w v

theorem answer_proceed {processor : String} :
    AnswerInStep N processor E C (pure .proceed) (pure .proceed) :=
  .pure fun _ _ h => ⟨.proceed, h⟩

theorem answer_removeNode {processor : String} :
    AnswerInStep N processor E C (pure .removeNode) (pure .removeNode) :=
  .pure fun _ _ h => ⟨.removeNode, h⟩

section
variable {processor : String} (hC : AlikeBindings ev C) (hE : AlikeWrites assignable N E)
  (hcall : AlikeCalls ev call call')

include hC hcall in
theorem inStep_evaluate (expression : String) :
    InStep (Workspace.Alike E C) (call.evaluate expression) (call'.evaluate expression)
      (Equal (Workspace.Alike E C)) :=
  .evaluate hC.toAlikeReads hcall.evaluator hcall.evaluator' expression

include hC hcall in
theorem inStep_evaluateValue :
    InStep (Workspace.Alike E C) call.evaluateValue call'.evaluateValue
      (Equal (Workspace.Alike E C)) := by
  rw [Call.evaluateValue, Call.evaluateValue, hcall.value]
  exact inStep_evaluate hC hcall _

/-! ## Content -/

include hE in
theorem inStep_setAttribute (hname : name ∈ assignable) (v : Value) :
    InStep (Workspace.Alike E C) (setAttribute name v) (setAttribute name v)
      (Equal (Workspace.Alike E C)) := by
  unfold setAttribute
  split
  · exact .changeElement fun e f h => hE.removeAttribute h hname
  · exact (InStep.text v).bind_equal fun text =>
      .changeElement fun e f h => hE.setAttribute h hname _

include hE in
/-- What is joined to an attribute depends on what the attribute was before. -/
theorem inStep_join (hname : name ∈ assignable) (join : String → String) :
    InStep (Workspace.Alike E C)
      (Work.changeElement fun e => e.setAttribute name (Text.escape (join (existing name e))))
      (Work.changeElement fun e => e.setAttribute name (Text.escape (join (existing name e))))
      (Equal (Workspace.Alike E C)) := by
  refine .changeElement fun e f h => ?_
  rw [hE.existing h hname]
  exact hE.setAttribute h hname _

include hC hE hcall

theorem inStep_setAll {assigned : List (String × String)}
    (hassigned : ∀ x ∈ assigned, x.1 ∈ assignable) :
    InStep (Workspace.Alike E C) (setAll call assigned) (setAll call' assigned)
      (Equal (Workspace.Alike E C)) := by
  induction assigned with
  | nil => exact .pure fun _ _ h => ⟨rfl, h⟩
  | cons x rest ih =>
    obtain ⟨hx, hrest⟩ := List.forall_mem_cons.mp hassigned
    exact (inStep_evaluate hC hcall x.2).bind_equal fun v =>
      (inStep_setAttribute hE hx v).bind_equal fun _ => ih hrest

theorem inStep_joinAll (join : String → String → String) {assigned : List (String × String)}
    (hassigned : ∀ x ∈ assigned, x.1 ∈ assignable) :
    InStep (Workspace.Alike E C) (joinAll join call assigned) (joinAll join call' assigned)
      (Equal (Workspace.Alike E C)) := by
  induction assigned with
  | nil => exact .pure fun _ _ h => ⟨rfl, h⟩
  | cons x rest ih =>
    obtain ⟨hx, hrest⟩ := List.forall_mem_cons.mp hassigned
    refine (inStep_evaluate hC hcall x.2).bind_equal fun v => (InStep.text v).bind_equal
      fun extra => ?_
    dsimp only
    split
    · exact (inStep_join hE hx fun before => join before extra).bind_equal fun _ => ih hrest
    · exact ih hrest

theorem answer_setAttributes (hassigned : ∀ assigned, assignments call.value = .ok assigned →
      ∀ x ∈ assigned, x.1 ∈ assignable) :
    AnswerInStep N processor E C (setAttributes call) (setAttributes call') := by
  unfold setAttributes
  rw [hcall.value]
  exact .ofExcept_bind _ fun assigned h =>
    (inStep_setAll hC hE hcall (hassigned assigned h)).bind_equal fun _ => answer_proceed

theorem answer_joinAttributes (join : String → String → String)
    (hassigned : ∀ assigned, assignments call.value = .ok assigned →
      ∀ x ∈ assigned, x.1 ∈ assignable) :
    AnswerInStep N processor E C (joinAttributes join call) (joinAttributes join call') := by
  unfold joinAttributes
  rw [hcall.value]
  exact .ofExcept_bind _ fun assigned h =>
    (inStep_joinAll hC hE hcall join (hassigned assigned h)).bind_equal fun _ => answer_proceed

theorem answer_setOne (hname : name ∈ assignable) :
    AnswerInStep N processor E C (setOne name call) (setOne name call') :=
  (inStep_evaluateValue hC hcall).bind_equal fun v =>
    (inStep_setAttribute hE hname v).bind_equal fun _ => answer_proceed

theorem answer_appendTo (hname : name ∈ assignable) (s : Separator) :
    AnswerInStep N processor E C (appendTo name s call) (appendTo name s call') := by
  refine (inStep_evaluateValue hC hcall).bind_equal fun v => (InStep.text v).bind_equal
    fun extra => ?_
  split
  · exact (inStep_join hE hname fun before => s.append before extra).bind_equal fun _ =>
      answer_proceed
  · exact answer_proceed

theorem answer_setFlag (hname : name ∈ assignable) :
    AnswerInStep N processor E C (setFlag name call) (setFlag name call') := by
  refine (inStep_evaluateValue hC hcall).bind_equal fun v => ?_
  have hchange : InStep (Workspace.Alike E C)
      (Work.changeElement fun e =>
        if v.isTruthy then e.setAttribute name name else e.removeAttribute name)
      (Work.changeElement fun e =>
        if v.isTruthy then e.setAttribute name name else e.removeAttribute name)
      (Equal (Workspace.Alike E C)) := by
    refine .changeElement fun e f h => ?_
    split
    · exact hE.setAttribute h hname name
    · exact hE.removeAttribute h hname
  exact hchange.bind_equal fun _ => answer_proceed

/-- Both elements get the same body. -/
theorem answer_setBody (escaped : Bool) :
    AnswerInStep N processor E C (setBody escaped call) (setBody escaped call') := by
  refine (inStep_evaluateValue hC hcall).bind_equal fun v => (InStep.text v).bind_equal
    fun content => ?_
  simp only [setChildren_content]
  intro w v h
  exact .ok ⟨.skipChildren (children_setChildren _ _) (children_setChildren _ _),
    hE.setBody h.element _, h.context⟩

/-! ## Scope -/

omit hE

theorem inStep_bindAll (assigned : List (String × String)) :
    InStep (Workspace.Alike E C) (bindAll call assigned) (bindAll call' assigned)
      (Equal (Workspace.Alike E C)) := by
  induction assigned with
  | nil => exact .pure fun _ _ h => ⟨rfl, h⟩
  | cons x rest ih =>
    have hbind : InStep (Workspace.Alike E C)
        (call.evaluate x.2 >>= fun v =>
          Work.changeContext (fun c => c.setLocal x.1 v) >>= fun _ => bindAll call rest)
        (call'.evaluate x.2 >>= fun v =>
          Work.changeContext (fun c => c.setLocal x.1 v) >>= fun _ => bindAll call' rest)
        (Equal (Workspace.Alike E C)) :=
      (inStep_evaluate hC hcall x.2).bind_equal fun v =>
        (InStep.changeContext fun c d h => hC.setLocal h x.1 v).bind_equal fun _ => ih
    rw [bindAll, bindAll]
    split
    · exact InStep.bind_equal (S := Workspace.Alike E C) (.throw _) fun _ => hbind
    · exact hbind

theorem answer_selectObject :
    AnswerInStep N processor E C (selectObject call) (selectObject call') :=
  (inStep_evaluateValue hC hcall).bind_equal fun v =>
    (InStep.changeContext fun _ _ h => hC.setLocal h Context.selectionName v).bind_equal fun _ =>
      answer_proceed

theorem answer_bindVariables :
    AnswerInStep N processor E C (bindVariables call) (bindVariables call') := by
  unfold bindVariables
  rw [hcall.value]
  exact (InStep.ofExcept _).bind_equal fun assigned =>
    (inStep_bindAll hC hcall assigned).bind_equal fun _ => answer_proceed

theorem answer_inline :
    AnswerInStep N processor E C (inline call) (inline call') := by
  unfold inline
  rw [hcall.value]
  extract_lets finish
  have hfinish : ∀ on, AnswerInStep N processor E C (finish on) (finish on) := fun on =>
    (InStep.changeContext fun c d h => hC.setLocal h Context.inliningName (.bool on)).bind_equal
      fun _ => answer_proceed
  split
  · exact InStep.pure_bind (hfinish true)
  · exact InStep.pure_bind (hfinish true)
  · exact InStep.pure_bind (hfinish true)
  · exact InStep.pure_bind (hfinish false)
  · exact InStep.bind_equal (S := Workspace.Alike E C) (.throw _) hfinish

/-! ## Structure -/

theorem answer_each : AnswerInStep N processor E C (each call) (each call') := by
  unfold each
  rw [hcall.value]
  refine (InStep.ofExcept _).bind_equal fun i => (inStep_evaluate hC hcall _).bind_equal fun v => ?_
  split
  · exact .pure fun _ _ h => ⟨.iterate _ _ _, h⟩
  · exact .throw _

theorem answer_conditional (keepWhen : Bool) :
    AnswerInStep N processor E C (conditional keepWhen call) (conditional keepWhen call') := by
  refine (inStep_evaluateValue hC hcall).bind_equal fun v => ?_
  split
  · exact answer_proceed
  · exact answer_removeNode

theorem answer_switch : AnswerInStep N processor E C (switch call) (switch call') :=
  (inStep_evaluateValue hC hcall).bind_equal fun _ =>
    (InStep.changeContext fun _ _ h => hC.setLocal h switchName _).bind_equal fun _ =>
      answer_proceed

omit hcall in
theorem markMatched_alike {c d : Context} (h : C c d) : C (markMatched c) (markMatched d) := by
  unfold markMatched
  rw [hC.reserved h (by decide)]
  split
  · exact hC.overwrite h (by decide) _
  · exact h

theorem answer_case : AnswerInStep N processor E C (case call) (case call') := by
  refine InStep.context.bind fun c d => .assuming fun hcd => ?_
  refine (InStep.changeContext fun c d h => hC.touch h (by decide)).bind_equal fun _ => ?_
  rw [hC.reserved hcd (by decide), hcall.value]
  split
  · exact .throw _
  · split
    · exact answer_removeNode
    · extract_lets finish
      have hfinish : ∀ matched, AnswerInStep N processor E C (finish matched) (finish matched) := by
        intro matched
        simp only [finish]
        split
        · exact (InStep.changeContext fun c d h => markMatched_alike hC h).bind_equal fun _ =>
            answer_proceed
        · exact answer_removeNode
      split
      · exact InStep.pure_bind (hfinish true)
      · exact (inStep_evaluateValue hC hcall).bind_equal fun v => hfinish _

omit hC hcall
include hE

theorem answer_unwrap (call call' : Call) :
    AnswerInStep N processor E C (unwrap call) (unwrap call') := by
  refine InStep.element.bind fun e f => .pure fun w v h => ?_
  exact ⟨.replace (hE.children h.1), h.2⟩

theorem answer_removeIn (hprocessor : processor = "remove") (mode : String)
    (hkeep : mode = "all-but-first" → AlikeFirsts E) :
    AnswerInStep N processor E C (removeIn mode call) (removeIn mode call') := by
  unfold removeIn
  split
  · exact answer_removeNode
  · exact .pure fun _ _ h => ⟨.removeBody hprocessor, h⟩
  · exact answer_unwrap hE call call'
  · exact (InStep.changeElement (hkeep rfl)).bind_equal fun _ => answer_proceed
  · exact answer_proceed
  · exact answer_proceed
  · exact .throw _

include hC hcall
omit hE in
theorem inStep_readMode :
    InStep (Workspace.Alike E C) (readMode call) (readMode call')
      (Equal (Workspace.Alike E C)) := by
  unfold readMode
  rw [hcall.value]
  split
  · exact .pure fun _ _ h => ⟨rfl, h⟩
  · exact (inStep_evaluate hC hcall _).bind_equal InStep.text

/-- Elements are alike where all but the first of their children are removed, if only in the mode
that asks for it. -/
theorem sameOutcome_remove (hprocessor : processor = "remove") {w v : Workspace}
    (hwv : Workspace.Alike E C w v)
    (hkeep : removeMode? ev call.value w.context = some "all-but-first" → AlikeFirsts E) :
    SameOutcome (fun d d' w v => Answers N processor w.element v.element d d' ∧
      Workspace.Alike E C w v) (remove call w) (remove call' v) := by
  rw [remove_eq, remove_eq]
  refine (inStep_readMode hC hcall w v hwv).bind ?_
  rintro mode _ w' v' hmode - ⟨rfl, hwv'⟩
  refine answer_removeIn hE hprocessor mode (fun hfirst => hkeep ?_) w' v' hwv'
  rw [← hcall.evaluator, removeMode?_of_readMode hmode, hfirst]

/-- The standard processors write attributes with assignable names only: those that have processors
of their own, and those that the value of an attribute assigns to. -/
theorem sameOutcome_run {p : Processor} (hp : p ∈ processors)
    (hown : ∀ name ∈ valueAttributes ++ flagAttributes ++ ["class", "style"], name ∈ assignable)
    (hassigned : ∀ directive ∈ assigners, p.rule = .attribute directive →
      ∀ assigned, assignments call.value = .ok assigned → ∀ x ∈ assigned, x.1 ∈ assignable)
    {w v : Workspace} (hwv : Workspace.Alike E C w v)
    (hkeep : p.name = "remove" → removeMode? ev call.value w.context = some "all-but-first" →
      AlikeFirsts E) :
    SameOutcome (fun d d' w v => Answers N p.name w.element v.element d d' ∧
      Workspace.Alike E C w v) (p.run call w) (p.run call' v) := by
  obtain ⟨name, rule, precedence, run⟩ := p
  have hstandard : IsStandard name rule run := isStandard_of_mem hp
  show SameOutcome (fun d d' w v => Answers N name w.element v.element d d' ∧
    Workspace.Alike E C w v) (run call w) (run call' v)
  cases hstandard with
  | each => exact answer_each hC hcall w v hwv
  | switch => exact answer_switch hC hcall w v hwv
  | case => exact answer_case hC hcall w v hwv
  | whenTrue | whenFalse => exact answer_conditional hC hcall _ w v hwv
  | object => exact answer_selectObject hC hcall w v hwv
  | bindings => exact answer_bindVariables hC hcall w v hwv
  | attr => exact answer_setAttributes hC hE hcall (hassigned "attr" (by decide) rfl) w v hwv
  | attrprepend =>
    exact answer_joinAttributes hC hE hcall _ (hassigned "attrprepend" (by decide) rfl) w v hwv
  | attrappend =>
    exact answer_joinAttributes hC hE hcall _ (hassigned "attrappend" (by decide) rfl) w v hwv
  | value hname => exact answer_setOne hC hE hcall (hown _ (by simp [hname])) w v hwv
  | flag hname => exact answer_setFlag hC hE hcall (hown _ (by simp [hname])) w v hwv
  | inline => exact answer_inline hC hcall w v hwv
  | classappend => exact answer_appendTo hC hE hcall (hown "class" (by simp)) _ w v hwv
  | styleappend => exact answer_appendTo hC hE hcall (hown "style" (by simp)) _ w v hwv
  | text | utext => exact answer_setBody hC hE hcall _ w v hwv
  | remove => exact sameOutcome_remove hC hE hcall rfl hwv (hkeep rfl)
  | block => exact answer_unwrap hE call call' w v hwv

end

theorem answer_run (hC : AlikeBindings ev C) (hE : AlikeElements assignable N E)
    (hcall : AlikeCalls ev call call') {p : Processor} (hp : p ∈ processors)
    (hown : ∀ name ∈ valueAttributes ++ flagAttributes ++ ["class", "style"], name ∈ assignable)
    (hassigned : ∀ directive ∈ assigners, p.rule = .attribute directive →
      ∀ assigned, assignments call.value = .ok assigned → ∀ x ∈ assigned, x.1 ∈ assignable) :
    AnswerInStep N p.name E C (p.run call) (p.run call') := fun _ _ hwv =>
  sameOutcome_run hC hE.toAlikeWrites hcall hp hown hassigned hwv fun _ _ _ _ h =>
    hE.keepFirstElement h

/-! ## When no attribute calls for a processor any more -/

theorem claimed_eq_nil_iff {t : Target} {e : Element} :
    t.claimed e = [] ↔ ∀ a ∈ e.attributes, t.claims a = false := by
  simp [Target.claimed]

theorem claimed_of_matches?_eq_false {t : Target} {e : Element} (h : t.matches? e = false) :
    t.claimed e = [] := by
  rw [claimed_eq_nil_iff]
  intro a ha
  cases t with
  | «attribute» qualified data =>
    have hnone := List.any_eq_false.mp h a ha
    simpa using hnone
  | element name => rfl

/-- After the processor that can remove the body, only the one for blocks comes. -/
theorem pairwise_remove : registry.entries.Pairwise fun p q =>
    p.processor.name = "remove" → q.target = .element "th:block".toList := by
  obtain ⟨early, hentries, hearly⟩ := entries_eq
  have hlate : late.Pairwise fun p q =>
      p.processor.name = "remove" → q.target = .element "th:block".toList := by
    decide
  rw [hentries, List.pairwise_append]
  have hnot {p : Entry} (hp : p ∈ early) : p.processor.name ≠ "remove" := fun hname =>
    hearly p hp (by simp [hname])
  exact ⟨List.pairwise_of_forall_mem_list fun p hp _ _ hname => absurd hname (hnot hp), hlate,
    fun p hp _ _ hname => absurd hname (hnot hp)⟩

theorem run_eq_remove {p : Processor} (hp : p ∈ processors) (hname : p.name = "remove") :
    p.run = remove := by
  have hmem : .forAttribute "remove" 1600 remove ∈ processors := by simp [processors]
  exact run_of_name hp hmem hname

end NaturalTemplate.Standard
