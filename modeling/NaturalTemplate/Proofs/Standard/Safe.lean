import NaturalTemplate.Proofs.Processing.Scopes
import NaturalTemplate.Proofs.Standard.Tame

/-!
# What the standard processors keep safe

A standard processor that is called for an element of a tame template leaves the element strict and
tame and text without expansion, and what it puts in place of the element is as safe.
-/
namespace NaturalTemplate.Standard
open Markup

/-- What the work of a processor starts from, and leaves, where no markup comes from outside. -/
structure IsSafeWorkspace (policy : CommentPolicy) (name : String) (w : Workspace) : Prop where
  name : w.element.name = name
  element : IsSafe policy w.element
  inlining : w.context.isInlining = false

/-- Whether work that succeeds leaves a workspace safe and gives a result with some property. -/
def KeepsSafe {α : Type} (policy : CommentPolicy) (name : String) (x : Work α) (q : α → Prop) :
    Prop :=
  ∀ w, IsSafeWorkspace policy name w → ∀ a w', x w = .ok a w' →
    IsSafeWorkspace policy name w' ∧ q a

/-- What processors may answer. -/
def IsSafeDirective (policy : CommentPolicy) : Directive → Prop
  | .replace nodes => Node.EverywhereIn (IsSafeNode policy) nodes
  | .iterate _ binding status =>
    binding ≠ Context.inliningName ∧
      status.getD (IterationStatus.defaultName binding) ≠ Context.inliningName
  | .halt _ => False
  | _ => True

namespace KeepsSafe

variable {α β : Type} {policy : CommentPolicy} {name : String} {x : Work α} {f : α → Work β}
  {q : α → Prop} {r : β → Prop}

theorem pure {a : α} (ha : q a) : KeepsSafe policy name (Pure.pure a) q := by
  intro w hw b w' h
  cases h
  exact ⟨hw, ha⟩

theorem throw (e : EngineError) : KeepsSafe policy name (MonadExcept.throw e : Work α) q := by
  intro w _ b w' h
  cases h

theorem bind (hx : KeepsSafe policy name x q) (hf : ∀ a, q a → KeepsSafe policy name (f a) r) :
    KeepsSafe policy name (x >>= f) r := by
  intro w hw b w' h
  simp only [Bind.bind, EStateM.bind] at h
  cases hrun : x w with
  | error e t =>
    rw [hrun] at h
    cases h
  | ok a t =>
    rw [hrun] at h
    obtain ⟨ht, ha⟩ := hx w hw a t hrun
    exact hf a ha t ht b w' h

theorem mono (hx : KeepsSafe policy name x q) {s : α → Prop} (hs : ∀ a, q a → s a) :
    KeepsSafe policy name x s := by
  intro w hw a w' h
  obtain ⟨hw', ha⟩ := hx w hw a w' h
  exact ⟨hw', hs a ha⟩

theorem ofExcept (x : Except EngineError α) :
    KeepsSafe policy name (Work.ofExcept x) fun a => x = .ok a := by
  cases x with
  | ok a => exact .pure rfl
  | error e => exact .throw e

theorem text (v : Value) : KeepsSafe policy name (Work.text v) fun _ => True :=
  (ofExcept v.text).mono fun _ _ => trivial

theorem changeElement {f : Element → Element} (hname : ∀ e, (f e).name = e.name)
    (hf : ∀ e, e.name = name → IsSafe policy e → IsSafe policy (f e)) :
    KeepsSafe policy name (Work.changeElement f) fun _ => True := by
  intro w hw a w' h
  cases h
  exact ⟨⟨(hname _).trans hw.name, hf _ hw.name hw.element, hw.inlining⟩, trivial⟩

theorem changeContext {f : Context → Context} (hf : ∀ c, (f c).isInlining = c.isInlining) :
    KeepsSafe policy name (Work.changeContext f) fun _ => True := by
  intro w hw a w' h
  cases h
  exact ⟨⟨hw.name, hw.element, (hf _).trans hw.inlining⟩, trivial⟩

theorem element :
    KeepsSafe policy name Work.element fun e => e.name = name ∧ IsSafe policy e := by
  intro w hw a w' h
  cases h
  exact ⟨hw, hw.name, hw.element⟩

theorem context : KeepsSafe policy name Work.context fun _ => True := by
  intro w hw a w' h
  cases h
  exact ⟨hw, trivial⟩

theorem evaluate (call : Call) (expression : String) :
    KeepsSafe policy name (call.evaluate expression) fun _ => True := by
  intro w hw v w' h
  have hframe : w.context.Frame ∅ (call.evaluator.evaluate expression w.context).2 :=
    Context.frame_evaluate _ _ _
  have hinlining := (hframe.isInlining_eq (Set.notMem_empty _)).trans hw.inlining
  have hrest : KeepsSafe policy name
      (Work.ofExcept (call.evaluator.evaluate expression w.context).1) fun _ => True :=
    (ofExcept _).mono fun _ _ => trivial
  let evaluated : Workspace :=
    { w with context := (call.evaluator.evaluate expression w.context).2 }
  have hevaluated : IsSafeWorkspace policy name evaluated := ⟨hw.name, hw.element, hinlining⟩
  exact hrest evaluated hevaluated v w' h

theorem evaluateValue (call : Call) :
    KeepsSafe policy name call.evaluateValue fun _ => True :=
  evaluate call _

end KeepsSafe

variable {policy : CommentPolicy} {tag name : String}

/-! ## Content -/

theorem keepsSafe_set {value : String} (hassign : IsAssignable tag name)
    (hvalue : '"' ∉ value.toList) :
    KeepsSafe policy tag (Work.changeElement fun e => e.setAttribute name value)
      fun _ => True :=
  .changeElement (fun _ => rfl) fun _ htag he => he.setAttribute (htag ▸ hassign) hvalue

theorem keepsSafe_removeAttribute (name : String) :
    KeepsSafe policy tag (Work.changeElement fun e => e.removeAttribute name)
      fun _ => True :=
  .changeElement (fun _ => rfl) fun _ _ he => he.removeAttribute name

theorem keepsSafe_setAttribute (hassign : IsAssignable tag name)
    (v : Value) : KeepsSafe policy tag (setAttribute name v) fun _ => True := by
  unfold setAttribute
  split
  · exact keepsSafe_removeAttribute name
  · exact (KeepsSafe.text v).bind fun text _ =>
      keepsSafe_set hassign (Text.not_mem_escape (by simp) text)

theorem keepsSafe_setAll (call : Call) {assigned : List (String × String)}
    (hassigned : ∀ x ∈ assigned, IsAssignable tag x.1) :
    KeepsSafe policy tag (setAll call assigned) fun _ => True := by
  induction assigned with
  | nil => exact .pure trivial
  | cons x rest ih =>
    obtain ⟨hx, hrest⟩ := List.forall_mem_cons.mp hassigned
    exact (KeepsSafe.evaluate call x.2).bind fun v _ =>
      (keepsSafe_setAttribute hx v).bind fun _ _ => ih hrest

/-- Joining text to what was there before escapes both anew. -/
theorem keepsSafe_join (hassign : IsAssignable tag name)
    (join : Element → String) :
    KeepsSafe policy tag
      (Work.changeElement fun e => e.setAttribute name (Text.escape (join e)))
      fun _ => True :=
  .changeElement (fun _ => rfl) fun e htag he =>
    he.setAttribute (htag ▸ hassign) (Text.not_mem_escape (by simp) (join e))

theorem keepsSafe_joinAll (join : String → String → String) (call : Call)
    {assigned : List (String × String)} (hassigned : ∀ x ∈ assigned, IsAssignable tag x.1) :
    KeepsSafe policy tag (joinAll join call assigned) fun _ => True := by
  induction assigned with
  | nil => exact .pure trivial
  | cons x rest ih =>
    obtain ⟨hx, hrest⟩ := List.forall_mem_cons.mp hassigned
    refine (KeepsSafe.evaluate call x.2).bind fun v _ => (KeepsSafe.text v).bind fun extra _ => ?_
    dsimp only
    split
    · exact (keepsSafe_join hx fun e => join (existing x.1 e) extra).bind fun _ _ => ih hrest
    · exact ih hrest

theorem keepsSafe_appendTo (hassign : IsAssignable tag name)
    (s : Separator) (call : Call) :
    KeepsSafe policy tag (appendTo name s call) (IsSafeDirective policy) := by
  refine (KeepsSafe.evaluateValue call).bind fun v _ => (KeepsSafe.text v).bind fun extra _ => ?_
  split
  · exact (keepsSafe_join hassign fun e => s.append (existing name e) extra).bind fun _ _ =>
      .pure trivial
  · exact .pure trivial

theorem keepsSafe_setFlag (hassign : IsAssignable tag name)
    (call : Call) : KeepsSafe policy tag (setFlag name call) (IsSafeDirective policy) := by
  have hvalue : '"' ∉ name.toList := by
    intro hmem
    have hchar := hassign.1.2 '"' hmem
    contradiction
  refine (KeepsSafe.evaluateValue call).bind fun v _ => ?_
  have hchange : KeepsSafe policy tag
      (Work.changeElement fun e =>
        if v.isTruthy then e.setAttribute name name else e.removeAttribute name)
      fun _ => True := by
    by_cases htrue : v.isTruthy = true
    · simp only [htrue, if_true]
      exact keepsSafe_set hassign hvalue
    · simp only [htrue, Bool.false_eq_true, if_false]
      exact keepsSafe_removeAttribute name
  exact hchange.bind fun _ _ => .pure trivial

/-- A text is escaped before it becomes the body of an element. -/
theorem keepsSafe_setBody (hvoid : isVoid tag = false) (call : Call) :
    KeepsSafe policy tag (setBody true call) (IsSafeDirective policy) := by
  refine (KeepsSafe.evaluateValue call).bind fun v _ => (KeepsSafe.text v).bind fun content _ => ?_
  have hbody : Node.EverywhereIn (IsSafeNode policy) [.ofText (Text.escape content)] := by
    intro n hn
    obtain rfl := List.mem_singleton.mp hn
    exact .of_leaf rfl ⟨trivial, Text.not_mem_escape (by simp) content⟩
  refine (KeepsSafe.changeElement (fun e => ?_) fun e htag he => ?_).bind fun _ _ => .pure trivial
  · split
    · rfl
    · exact name_setChildren e _
  · split
    · exact he.setChildren_nil
    · exact he.setChildren (htag ▸ hvoid) hbody

/-! ## Scope -/

theorem ne_inliningName {name : String} (h : isIdentifier name = true) :
    name ≠ Context.inliningName := by
  rintro rfl
  contradiction

theorem keepsSafe_setLocal (hname : name ≠ Context.inliningName) (v : Value) :
    KeepsSafe policy tag (Work.changeContext fun c => c.setLocal name v) fun _ => True :=
  .changeContext fun c => Context.isInlining_setLocal hname v c

theorem keepsSafe_bindAll (call : Call) (assigned : List (String × String)) :
    KeepsSafe policy tag (bindAll call assigned) fun _ => True := by
  induction assigned with
  | nil => exact .pure trivial
  | cons x rest ih =>
    rw [bindAll]
    by_cases hx : isIdentifier x.1 = true
    · simp only [hx, Bool.not_true, Bool.false_eq_true, if_false]
      exact (KeepsSafe.evaluate call x.2).bind fun v _ =>
        (keepsSafe_setLocal (ne_inliningName hx) v).bind fun _ _ => ih
    · simp only [hx, Bool.not_false, if_true]
      exact .bind (q := fun _ => False) (.throw _) fun _ h => h.elim

/-! ## Structure -/

theorem isIdentifier_of_iteration {declaration : String} {i : Iteration}
    (h : iteration declaration = .ok i) :
    isIdentifier i.binding = true ∧ ∀ status ∈ i.status, isIdentifier status = true := by
  unfold iteration at h
  split at h
  · cases h
  · extract_lets names at h
    split at h
    · next hnames hall =>
      cases h
      rw [hnames] at hall
      simpa using hall
    · next hnames hall =>
      cases h
      rw [hnames] at hall
      simpa using hall
    · cases h

/-- The name that a status gets by default does not end like those that are kept apart. -/
theorem defaultName_ne {name : String} (hname : name.toList.getLast? ≠ some 't')
    (binding : String) : IterationStatus.defaultName binding ≠ name := by
  rintro rfl
  simp [IterationStatus.defaultName] at hname

theorem keepsSafe_each (call : Call) :
    KeepsSafe policy tag (each call) (IsSafeDirective policy) := by
  refine (KeepsSafe.ofExcept _).bind fun i hi => (KeepsSafe.evaluate call _).bind fun v _ => ?_
  obtain ⟨hbinding, hstatus⟩ := isIdentifier_of_iteration hi
  split
  · refine .pure ⟨ne_inliningName hbinding, ?_⟩
    cases hs : i.status with
    | none => exact defaultName_ne (by decide) i.binding
    | some status => exact ne_inliningName (hstatus status hs)
  · exact .throw _

theorem keepsSafe_conditional (keepWhen : Bool) (call : Call) :
    KeepsSafe policy tag (conditional keepWhen call) (IsSafeDirective policy) := by
  refine (KeepsSafe.evaluateValue call).bind fun v _ => ?_
  split <;> exact .pure trivial

theorem keepsSafe_switch (call : Call) :
    KeepsSafe policy tag (switch call) (IsSafeDirective policy) :=
  (KeepsSafe.evaluateValue call).bind fun v _ =>
    (keepsSafe_setLocal (by decide) _).bind fun _ _ => .pure trivial

theorem isInlining_markMatched (c : Context) : (markMatched c).isInlining = c.isInlining := by
  have hne : Context.inliningName ∉ ({switchName} : Set String) := by
    rw [Set.mem_singleton_iff]
    decide
  unfold markMatched
  split
  · exact (Context.frame_overwrite c _ (Set.mem_singleton _)).isInlining_eq hne
  · rfl

theorem keepsSafe_touch (name : String) :
    KeepsSafe policy tag (Work.changeContext fun c => c.touch name) fun _ => True := by
  refine .changeContext fun c => ?_
  have hframe : c.Frame ∅ (c.touch name) := Context.frame_touch c name
  exact hframe.isInlining_eq (Set.notMem_empty _)

theorem keepsSafe_case (call : Call) :
    KeepsSafe policy tag (case call) (IsSafeDirective policy) := by
  refine KeepsSafe.context.bind fun c _ => (keepsSafe_touch switchName).bind fun _ _ => ?_
  split
  · exact .throw _
  · split
    · exact .pure trivial
    · extract_lets finish
      have hfinish : ∀ matched, KeepsSafe policy tag (finish matched) (IsSafeDirective policy) := by
        intro matched
        simp only [finish]
        split
        · exact (KeepsSafe.changeContext isInlining_markMatched).bind fun _ _ => .pure trivial
        · exact .pure trivial
      split
      · exact KeepsSafe.bind (q := fun _ => True) (.pure trivial) fun _ _ => hfinish _
      · exact (KeepsSafe.evaluateValue call).bind fun _ _ =>
          KeepsSafe.bind (q := fun _ => True) (.pure trivial) fun _ _ => hfinish _

theorem keepsSafe_unwrap (call : Call) :
    KeepsSafe policy tag (unwrap call) (IsSafeDirective policy) :=
  KeepsSafe.element.bind fun _ he => .pure he.2.children

theorem keepFirstElement_subset (nodes : List Node) : keepFirstElement nodes ⊆ nodes := by
  induction nodes with
  | nil => exact List.nil_subset _
  | cons n nodes ih =>
    rw [keepFirstElement]
    split
    · exact List.cons_subset_cons _ (List.filter_subset_self _)
    · exact List.cons_subset_cons _ ih

theorem keepsSafe_remove (call : Call) :
    KeepsSafe policy tag (remove call) (IsSafeDirective policy) := by
  unfold remove
  extract_lets declared finish
  have hkeep : KeepsSafe policy tag
      (Work.changeElement fun e => { e with children := keepFirstElement e.children })
      fun _ => True :=
    .changeElement (fun _ => rfl) fun e _ he =>
      he.withChildren (keepFirstElement_subset e.children)
  have hfinish : ∀ mode, KeepsSafe policy tag (finish mode) (IsSafeDirective policy) := by
    intro mode
    simp only [finish]
    split
    · exact .pure trivial
    · exact .pure trivial
    · exact keepsSafe_unwrap call
    · exact hkeep.bind fun _ _ => .pure trivial
    · exact .pure trivial
    · exact .pure trivial
    · exact .throw _
  split
  · exact KeepsSafe.bind (q := fun _ => True) (.pure trivial) fun _ _ => hfinish _
  · exact (KeepsSafe.evaluate call declared).bind fun v _ =>
      (KeepsSafe.text v).bind fun mode _ => hfinish mode

/-! ## The dialect -/

/-- Whether a processor can be called for an element of some name by a tame attribute only. -/
def IsTameCall (p : Processor) (tag : String) (call : Call) : Prop :=
  ∀ directive, p.rule = .attribute directive →
    ∃ a, call.trigger = some a ∧ calls directive a.name = true ∧ IsTame IsAssignable tag a

theorem isAssignable_of_assignments {a : Attribute} {directive : String}
    (ha : IsTame IsAssignable tag a) (hdirective : directive ∈ assigners)
    (hcalls : calls directive a.name = true) {assigned : List (String × String)}
    (hassigned : assignments a.decodedValue = .ok assigned) :
    ∀ x ∈ assigned, IsAssignable tag x.1 := by
  intro x hx
  refine ha.2 directive hdirective hcalls x.1 ?_
  rw [assignedNames, hassigned]
  exact List.mem_map_of_mem hx

/-- A standard processor that a tame attribute calls for keeps the workspace safe. -/
theorem keepsSafe_run {p : Processor} (hp : p ∈ processors) {call : Call}
    (hcall : IsTameCall p tag call) :
    KeepsSafe policy tag (p.run call) (IsSafeDirective policy) := by
  have hassigner : ∀ directive ∈ assigners, p.rule = .attribute directive →
      ∀ assigned, assignments call.value = .ok assigned → ∀ x ∈ assigned, IsAssignable tag x.1 := by
    intro directive hd hrule assigned hassigned
    obtain ⟨a, htrigger, hcalls, ha⟩ := hcall directive hrule
    rw [Call.value, htrigger] at hassigned
    exact isAssignable_of_assignments ha hd hcalls hassigned
  obtain ⟨name, rule, precedence, run⟩ := p
  have hstandard : IsStandard name rule run := isStandard_of_mem hp
  show KeepsSafe policy tag (run call) (IsSafeDirective policy)
  cases hstandard with
  | each => exact keepsSafe_each call
  | switch => exact keepsSafe_switch call
  | case => exact keepsSafe_case call
  | whenTrue | whenFalse => exact keepsSafe_conditional _ call
  | object =>
    exact (KeepsSafe.evaluateValue call).bind fun v _ =>
      (keepsSafe_setLocal (by decide) v).bind fun _ _ => .pure trivial
  | bindings =>
    exact (KeepsSafe.ofExcept _).bind fun assigned _ =>
      (keepsSafe_bindAll call assigned).bind fun _ _ => .pure trivial
  | attr =>
    exact (KeepsSafe.ofExcept _).bind fun assigned h =>
      (keepsSafe_setAll call (hassigner "attr" (by decide) rfl assigned h)).bind fun _ _ =>
        .pure trivial
  | attrprepend =>
    exact (KeepsSafe.ofExcept _).bind fun assigned h =>
      (keepsSafe_joinAll _ call (hassigner "attrprepend" (by decide) rfl assigned h)).bind
        fun _ _ => .pure trivial
  | attrappend =>
    exact (KeepsSafe.ofExcept _).bind fun assigned h =>
      (keepsSafe_joinAll _ call (hassigner "attrappend" (by decide) rfl assigned h)).bind
        fun _ _ => .pure trivial
  | @value name hname =>
    have hassign : IsAssignable tag name := isAssignable_of_mem (by simp [hname]) tag
    exact (KeepsSafe.evaluateValue call).bind fun v _ =>
      (keepsSafe_setAttribute hassign v).bind fun _ _ => .pure trivial
  | flag hname => exact keepsSafe_setFlag (isAssignable_of_mem (by simp [hname]) tag) call
  | inline =>
    obtain ⟨a, -, hcalls, ha⟩ := hcall "inline" rfl
    rw [ha.1.1 "inline" (by simp)] at hcalls
    contradiction
  | classappend | styleappend =>
    exact keepsSafe_appendTo (isAssignable_of_mem (by simp) tag) _ call
  | text =>
    obtain ⟨a, -, hcalls, ha⟩ := hcall "text" rfl
    have hvoid : isVoid tag = false := by
      by_contra hvoid
      rw [ha.1.2 (by simpa using hvoid)] at hcalls
      contradiction
    exact keepsSafe_setBody hvoid call
  | utext =>
    obtain ⟨a, -, hcalls, ha⟩ := hcall "utext" rfl
    rw [ha.1.1 "utext" (by simp)] at hcalls
    contradiction
  | remove => exact keepsSafe_remove call
  | block => exact keepsSafe_unwrap call

end NaturalTemplate.Standard
