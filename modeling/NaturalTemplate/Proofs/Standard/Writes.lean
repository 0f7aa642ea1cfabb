import NaturalTemplate.Proofs.Processing.Keeps
import NaturalTemplate.Proofs.Standard.Registry
import NaturalTemplate.Processor.Script

/-!
# What the standard processors write

All of them but the one for cases bind names in the innermost scope only. A case that matches notes
this in the binding of its switch, which is in a scope farther out.
-/
namespace NaturalTemplate
open Markup

/-! ## Scripts -/

namespace Step

theorem keeps_run (call : Call) (s : Step) :
    Keeps Workspace.context (Context.Changed ∅) (s.run call) := by
  cases s with
  | log label =>
    refine .bind ?_ fun visit => Work.keeps_changeContext fun c => .note _ c
    exact Work.keeps_element.bind fun e => Work.keeps_context.bind fun c => .pure _
  | logEval expression =>
    exact (call.keeps_evaluate expression).bind fun v =>
      Work.keeps_changeContext fun c => .note _ c
  | setAttribute name value => exact Work.keeps_changeElement fun e => e.setAttribute name value
  | removeAttribute name => exact Work.keeps_changeElement fun e => e.removeAttribute name
  | setText content => exact Work.keeps_changeElement fun e => e.setText content
  | setChildren markup =>
    exact (Work.keeps_ofExcept _).bind fun nodes => Work.keeps_changeElement _
  | evalText =>
    exact call.keeps_evaluateValue.bind fun v =>
      (Work.keeps_text v).bind fun content => Work.keeps_changeElement _
  | evalAttribute name expression =>
    exact (call.keeps_evaluate expression).bind fun v =>
      (Work.keeps_text v).bind fun content => Work.keeps_changeElement _
  | setLocal name v => exact Work.keeps_changeContext fun c => .setLocal name v c
  | bindLazy name v => exact Work.keeps_changeContext fun c => .bindLazy name _ c
  | setSelection v => exact Work.keeps_changeContext fun c => .setSelection v c
  | setInlining on => exact Work.keeps_changeContext fun c => .setInlining on c
  | fail cause => exact .throw _
  | parse markup =>
    rw [run]
    split
    · exact .pure _
    · exact .throw _

theorem keeps_runAll (call : Call) (steps : List Step) :
    Keeps Workspace.context (Context.Changed ∅) (runAll call steps) := by
  induction steps with
  | nil => exact .pure _
  | cons s ss ih => exact (keeps_run call s).bind fun _ => ih

end Step

theorem Ending.keeps_directive (ending : Ending) :
    Keeps Workspace.context (Context.Changed ∅) ending.directive := by
  cases ending with
  | replace markup => exact (Work.keeps_ofExcept _).bind fun nodes => .pure _
  | unwrap => exact Work.keeps_element.bind fun e => .pure _
  | replaceSelf => exact Work.keeps_element.bind fun e => .pure _
  | _ => exact .pure _

/-- What a script does stays in the scope of its element. -/
theorem Script.keeps_run (s : Script) (call : Call) :
    Keeps Workspace.context (Context.Changed ∅) (s.run call) :=
  (Step.keeps_runAll call s.steps).bind fun _ => s.ending.keeps_directive

namespace Standard

section
variable {R : Context → Context → Prop} [Context.Lasting R]

/-! ## Content -/

theorem keeps_setAttribute (name : String) (v : Value) :
    Keeps Workspace.context R (setAttribute name v) := by
  unfold setAttribute
  split
  · exact Work.keeps_changeElement _
  · exact (Work.keeps_text v).bind fun text => Work.keeps_changeElement _

theorem keeps_setAll (call : Call) (assignments : List (String × String)) :
    Keeps Workspace.context R (setAll call assignments) := by
  induction assignments with
  | nil => exact .pure _
  | cons a rest ih =>
    exact (call.keeps_evaluate a.2).bind fun v => (keeps_setAttribute a.1 v).bind fun _ => ih

theorem keeps_joinAll (join : String → String → String) (call : Call)
    (assignments : List (String × String)) :
    Keeps Workspace.context R (joinAll join call assignments) := by
  induction assignments with
  | nil => exact .pure _
  | cons a rest ih =>
    refine (call.keeps_evaluate a.2).bind fun v => (Work.keeps_text v).bind fun extra => ?_
    dsimp only
    split
    · exact (Work.keeps_changeElement _).bind fun _ => ih
    · exact ih

theorem keeps_appendTo (name : String) (s : Separator) (call : Call) :
    Keeps Workspace.context R (appendTo name s call) := by
  refine call.keeps_evaluateValue.bind fun v => (Work.keeps_text v).bind fun extra => ?_
  split
  · exact (Work.keeps_changeElement _).bind fun _ => .pure _
  · exact .pure _

theorem keeps_setFlag (name : String) (call : Call) :
    Keeps Workspace.context R (setFlag name call) :=
  call.keeps_evaluateValue.bind fun _ => (Work.keeps_changeElement _).bind fun _ => .pure _

theorem keeps_setBody (escaped : Bool) (call : Call) :
    Keeps Workspace.context R (setBody escaped call) :=
  call.keeps_evaluateValue.bind fun v => (Work.keeps_text v).bind fun _ =>
    (Work.keeps_changeElement _).bind fun _ => .pure _

/-! ## Scope -/

theorem keeps_bindAll (call : Call) (assignments : List (String × String)) :
    Keeps Workspace.context R (bindAll call assignments) := by
  induction assignments with
  | nil => exact .pure _
  | cons a rest ih =>
    rw [bindAll]
    cases hname : isIdentifier a.1 with
    | false => exact .bind_of (.throw _) fun _ _ _ h => by cases h
    | true =>
      exact (call.keeps_evaluate a.2).bind fun v =>
        (Work.keeps_changeContext fun c => Context.Lasting.setLocal hname v c).bind fun _ => ih

theorem keeps_inline (call : Call) : Keeps Workspace.context R (inline call) := by
  unfold inline
  extract_lets finish
  have hfinish : ∀ on, Keeps Workspace.context R (finish on) := fun on =>
    (Work.keeps_changeContext fun c => Context.Lasting.setInlining on c).bind fun _ => .pure _
  split
  · exact .bind (.pure true) hfinish
  · exact .bind (.pure true) hfinish
  · exact .bind (.pure true) hfinish
  · exact .bind (.pure false) hfinish
  · exact .bind (.throw _) hfinish

/-! ## Structure -/

theorem keeps_each (call : Call) : Keeps Workspace.context R (each call) := by
  refine (Work.keeps_ofExcept _).bind fun i => (call.keeps_evaluate i.expression).bind fun v => ?_
  split
  · exact .pure _
  · exact .throw _

theorem keeps_conditional (keepWhen : Bool) (call : Call) :
    Keeps Workspace.context R (conditional keepWhen call) := by
  refine call.keeps_evaluateValue.bind fun v => ?_
  split <;> exact .pure _

theorem keeps_remove (call : Call) : Keeps Workspace.context R (remove call) := by
  unfold remove
  extract_lets declared finish
  have hfinish : ∀ mode, Keeps Workspace.context R (finish mode) := by
    intro mode
    simp only [finish]
    split
    · exact .pure _
    · exact .pure _
    · exact Work.keeps_element.bind fun _ => .pure _
    · exact (Work.keeps_changeElement _).bind fun _ => .pure _
    · exact .pure _
    · exact .pure _
    · exact .throw _
  split
  · exact .bind (.pure declared) hfinish
  · exact (call.keeps_evaluate declared).bind fun v => (Work.keeps_text v).bind hfinish

/-- What the processors do other than those for switches and their cases. -/
theorem keeps_of_mem_processors {p : Processor} (hp : p ∈ processors) (hswitch : p.name ≠ "switch")
    (hcase : p.name ≠ "case") (call : Call) : Keeps Workspace.context R (p.run call) := by
  obtain ⟨name, rule, precedence, run⟩ := p
  have hstandard : IsStandard name rule run := isStandard_of_mem hp
  show Keeps Workspace.context R (run call)
  cases hstandard with
  | each => exact keeps_each call
  | switch => exact absurd rfl hswitch
  | case => exact absurd rfl hcase
  | whenTrue | whenFalse => exact keeps_conditional _ call
  | object =>
    exact call.keeps_evaluateValue.bind fun v =>
      (Work.keeps_changeContext fun c => Context.Lasting.setSelection v c).bind fun _ => .pure _
  | bindings =>
    exact (Work.keeps_ofExcept _).bind fun a => (keeps_bindAll call a).bind fun _ => .pure _
  | attr => exact (Work.keeps_ofExcept _).bind fun a => (keeps_setAll call a).bind fun _ => .pure _
  | attrprepend | attrappend =>
    exact (Work.keeps_ofExcept _).bind fun a => (keeps_joinAll _ call a).bind fun _ => .pure _
  | @value name =>
    exact call.keeps_evaluateValue.bind fun v => (keeps_setAttribute name v).bind fun _ => .pure _
  | @flag name => exact keeps_setFlag name call
  | inline => exact keeps_inline call
  | classappend | styleappend => exact keeps_appendTo _ _ call
  | text | utext => exact keeps_setBody _ call
  | remove => exact keeps_remove call
  | block => exact Work.keeps_element.bind fun _ => .pure _

end

/-! ## Switches -/

theorem run_of_name_switch {p : Processor} (hp : p ∈ processors) (hname : p.name = "switch") :
    p.run = switch := by
  have hmem : .forAttribute "switch" 250 switch ∈ processors := by simp [processors]
  exact run_of_name hp hmem hname

theorem run_of_name_case {p : Processor} (hp : p ∈ processors) (hname : p.name = "case") :
    p.run = case := by
  have hmem : .forAttribute "case" 275 case ∈ processors := by simp [processors]
  exact run_of_name hp hmem hname

theorem keeps_switch (call : Call) :
    Keeps Workspace.context (Context.Changed {switchName}) (switch call) :=
  call.keeps_evaluateValue.bind fun _ =>
    (Work.keeps_changeContext fun c => .setLocal switchName _ c).bind fun _ => .pure _

theorem changed_markMatched (c : Context) : c.Changed {switchName} (markMatched c) := by
  unfold markMatched
  split
  · exact .overwrite _ c rfl
  · exact .refl c

theorem keeps_case (call : Call) :
    Keeps Workspace.context (Context.Changed {switchName}) (case call) := by
  refine Work.keeps_context.bind fun c => ?_
  refine (Work.keeps_changeContext fun c => .touch switchName c).bind fun _ => ?_
  split
  · exact .throw _
  · next state _ =>
    split
    · exact .pure _
    · extract_lets finish
      have hfinish : ∀ matched,
          Keeps Workspace.context (Context.Changed {switchName}) (finish matched) := by
        intro matched
        simp only [finish]
        split
        · exact (Work.keeps_changeContext changed_markMatched).bind fun _ => .pure _
        · exact .pure _
      split
      · exact .bind (.pure true) hfinish
      · exact call.keeps_evaluateValue.bind fun _ => .bind (.pure _) hfinish

/-- The standard processors write the bindings of switches only. -/
theorem writes_of_mem_processors {p : Processor} (hp : p ∈ processors) : p.Writes {switchName} := by
  intro call
  by_cases hswitch : p.name = "switch"
  · rw [run_of_name_switch hp hswitch]
    exact keeps_switch call
  by_cases hcase : p.name = "case"
  · rw [run_of_name_case hp hcase]
    exact keeps_case call
  exact keeps_of_mem_processors hp hswitch hcase call

theorem mem_processors_of_mem_entries {p : Entry} (hp : p ∈ dialect.entries) :
    p.processor ∈ processors := by
  obtain ⟨q, hq, rfl⟩ := List.mem_map.mp hp
  exact hq

end Standard
end NaturalTemplate
