import NaturalTemplate.Proofs.Context.Held
import NaturalTemplate.Proofs.Processing.Scopes

/-!
# Switches and their cases

A switch puts its value in the scope of its element, and with it whether a case has matched. A case
finds the innermost of these and notes there that it has matched. Whatever else is called for an
element changes nothing of what the scopes hold for switches.
-/
namespace NaturalTemplate
open Markup

/-- Whether a deed is the call of a processor with some name. -/
def Deed.calls (name : String) : Deed → Bool
  | called p _ _ => p.processor.name == name
  | expanded _ => false

namespace Standard

variable {ev : Evaluator}

/-! ## What a switch keeps -/

/-- What a switch with some value keeps until a case matches. -/
def opened (v : Value) : Value := .ofEntries [("value", v), ("matched", .bool false)]

def isMatched (state : Value) : Bool := ((state.get? "matched").map Value.isTruthy).getD false

/-- The value of a switch, given what it keeps. -/
def switched (state : Value) : Value := (state.get? "value").getD .null

/-- What a switch keeps after a case has matched. -/
def marked : Value → Value
  | .object entries => .object (Value.insert "matched" (.bool true) entries)
  | state => state

@[simp] theorem isMatched_opened (v : Value) : isMatched (opened v) = false := rfl

@[simp] theorem isMatched_marked_opened (v : Value) : isMatched (marked (opened v)) = true := rfl

/-- What the scopes of a context hold for switches, innermost first. -/
abbrev switches (c : Context) : List (Option Value) := c.held switchName

theorem value?_eq_switches (c : Context) : c.value? switchName = (switches c).findSome? id :=
  Context.value?_eq_held switchName c

/-- The innermost scope, or the root if there is no scope, comes first. -/
theorem exists_switches (c : Context) : ∃ hidden outer, switches c = hidden :: outer := by
  have hlength : (switches c).length = c.depth + 1 := Context.length_held switchName c
  cases hheld : switches c with
  | nil => rw [hheld] at hlength; cases hlength
  | cons hidden outer => exact ⟨hidden, outer, rfl⟩

theorem switches_ne {name : String} (h : isIdentifier name = true) : switchName ≠ name := by
  rintro rfl
  contradiction

/-- What processors do that know nothing of switches. -/
def KeepsSwitches (c d : Context) : Prop := switches d = switches c

instance : Context.Lasting KeepsSwitches where
  refl _ := rfl
  trans _ _ _ hcd hde := hde.trans hcd
  evaluate ev text c := Context.held_evaluate switchName ev text c
  setLocal hname v c := Context.held_setLocal (switches_ne hname) v c
  setSelection v c := Context.held_setLocal (by decide) v c
  setInlining on c := Context.held_setLocal (by decide) _ c

/-- A case that matches notes it in the innermost switch. -/
theorem innermost_markMatched {c : Context} {state : Value}
    (h : c.value? switchName = some state) :
    Innermost (fun v w => v = state ∧ w = marked state) (switches c)
      (switches (markMatched c)) := by
  rw [markMatched, h]
  cases state with
  | object entries => exact Context.innermost_overwrite h _
  | _ => exact Context.innermost_same h

/-! ## Single calls -/

/-- Whether the declaration of a case is a star, or an expression that loosely equals a value. -/
def Chooses (ev : Evaluator) (v : Value) (p : Entry) (before : Workspace) : Prop :=
  let declaration := (p.calledWith ev before.element).value
  Text.trimmed declaration = "*" ∨
    ∃ w, ev.value (before.context.touch switchName) declaration = .ok w ∧ w.looselyEquals v = true

/-- A case that removes its element, as it would with any other evaluator: its expression is not
evaluated. -/
inductive Late : Deed → Prop where
  | intro {p : Entry} {before : Workspace}
    (hrun : ∀ ev, p.processor.run (p.calledWith ev before.element)
      (p.workspace before.element before.context) =
        .ok .removeNode (p.workspace before.element (before.context.touch switchName))) :
    Late (.called p before (.ok .removeNode))

/-- A case that is not the one for a value and removes its element. -/
inductive Passed (ev : Evaluator) (v : Value) : Deed → Prop where
  | intro {p : Entry} {before : Workspace} (hnot : ¬ Chooses ev v p before) :
    Passed ev v (.called p before (.ok .removeNode))

/-- A case that is the one for a value and goes on with its element. -/
inductive Chosen (ev : Evaluator) (v : Value) : Deed → Prop where
  | intro {p : Entry} {before : Workspace} (h : Chooses ev v p before) :
    Chosen ev v (.called p before (.ok .proceed))

/-- A case whose expression cannot be evaluated. -/
inductive Failed (ev : Evaluator) (v : Value) : Deed → Prop where
  | intro {p : Entry} {before : Workspace} {cause : EngineError} (hnot : ¬ Chooses ev v p before) :
    Failed ev v (.called p before (.error cause))

/-- What a case finds of its switch. -/
inductive Finds (state : Value) : Deed → Prop where
  | intro {p : Entry} {before : Workspace} {result : Except EngineError Directive}
    (h : before.context.value? switchName = some state) : Finds state (.called p before result)

/-- A case that finds no switch. -/
inductive Outside : Deed → Prop where
  | intro {p : Entry} {before : Workspace} {result : Except EngineError Directive}
    (h : before.context.value? switchName = none) : Outside (.called p before result)

instance : DecidablePred Outside
  | .called _ before _ =>
    decidable_of_iff (before.context.value? switchName = none) ⟨.intro, fun ⟨h⟩ => h⟩
  | .expanded _ => .isFalse fun h => by cases h

/-- What a switch keeps before and after a case that finds it. -/
inductive AnswersTo (ev : Evaluator) (d : Deed) : Value → Value → Prop where
  | late {state : Value} (hfinds : Finds state d) (hmatched : isMatched state = true)
    (h : Late d) : AnswersTo ev d state state
  | passed {state : Value} (hfinds : Finds state d) (hmatched : isMatched state = false)
    (h : Passed ev (switched state) d) : AnswersTo ev d state state
  | chosen {state : Value} (hfinds : Finds state d) (hmatched : isMatched state = false)
    (h : Chosen ev (switched state) d) : AnswersTo ev d state (marked state)

/-- A switch with some value. -/
inductive Opens (ev : Evaluator) (v : Value) : Deed → Prop where
  | intro {p : Entry} {before : Workspace}
    (hvalue : ev.value before.context (p.calledWith ev before.element).value = .ok v) :
    Opens ev v (.called p before (.ok .proceed))

/-- What the scopes hold for switches before and after a call. -/
inductive Turn (ev : Evaluator) : Deed → List (Option Value) → List (Option Value) → Prop where
  | other {d : Deed} {held : List (Option Value)} (hswitch : d.calls "switch" = false)
    (hcase : d.calls "case" = false) : Turn ev d held held
  /-- A switch hides what its scope held before. -/
  | opens {d : Deed} {v : Value} {hidden : Option Value} {outer : List (Option Value)}
    (hswitch : d.calls "switch" = true) (h : Opens ev v d) :
    Turn ev d (hidden :: outer) (some (opened v) :: outer)
  | answers {d : Deed} {held held' : List (Option Value)} (hcase : d.calls "case" = true)
    (h : Innermost (AnswersTo ev d) held held') : Turn ev d held held'

/-- Why a case fails: it finds no switch, or it finds one that no case has matched yet, and its
expression cannot be evaluated. -/
inductive Fails (ev : Evaluator) (d : Deed) : Option Value → Prop where
  | outside (h : Outside d) : Fails ev d none
  | failed {state : Value} (hfinds : Finds state d) (hmatched : isMatched state = false)
    (h : Failed ev (switched state) d) : Fails ev d (some state)

/-- A call that fails. -/
structure Stuck (ev : Evaluator) (held : List (Option Value)) (d : Deed) : Prop where
  fails : ∃ p before cause, d = .called p before (.error cause)
  case : d.calls "case" = true → Fails ev d (held.findSome? id)

/-- How a case goes: it finds its switch, and evaluates its expression if no case has matched. -/
theorem case_run (call : Call) (w : Workspace) :
    case call w =
      let asked : Workspace := { w with context := w.context.touch switchName }
      let finish (matched : Bool) (w : Workspace) :
          EStateM.Result EngineError Workspace Directive :=
        if matched then .ok .proceed { w with context := markMatched w.context }
        else .ok .removeNode w
      match w.context.value? switchName with
      | none => .error (.type .caseOutsideSwitch) asked
      | some state =>
        if isMatched state then .ok .removeNode asked
        else if Text.trimmed call.value = "*" then finish true asked
        else
          match call.evaluateValue asked with
          | .ok v w => finish (v.looselyEquals (switched state)) w
          | .error cause w => .error cause w := by
  show (match w.context.value? switchName with | none => _ | some state => _ : Work Directive) _ = _
  cases w.context.value? switchName with
  | none => rfl
  | some state =>
    dsimp only
    unfold isMatched
    split
    · rfl
    · split
      · rfl
      · show EStateM.bind call.evaluateValue _ _ = _
        unfold EStateM.bind
        cases call.evaluateValue { w with context := w.context.touch switchName } with
        | error cause w => rfl
        | ok v w =>
          show (if v.looselyEquals (switched state) then _ else _ : Work Directive) w = _
          dsimp only
          split <;> rfl

theorem evaluateValue_run (p : Entry) (e : Element) (w : Workspace) :
    (p.calledWith ev e).evaluateValue w =
      let declaration := (p.calledWith ev e).value
      let left : Workspace := { w with context := (ev.evaluate declaration w.context).2 }
      match ev.value w.context declaration with
      | .ok v => .ok v left
      | .error cause => .error cause left := by
  show Work.ofExcept (ev.value w.context (p.calledWith ev e).value) _ = _
  dsimp only
  cases ev.value w.context (p.calledWith ev e).value <;> rfl

/-- What a call leaves of what the scopes hold for switches. -/
def TakesTurn (ev : Evaluator) (p : Entry) (e : Element) (c : Context) :
    EStateM.Result EngineError Workspace Directive → Prop
  | .ok directive w =>
    Turn ev (.called p ⟨e, c⟩ (.ok directive)) (switches c) (switches w.context)
  | .error _ w => switches w.context = switches c ∧
      ∀ cause, Stuck ev (switches c) (.called p ⟨e, c⟩ (.error cause))

section
variable {p : Entry} {e : Element} {c d : Context} {state : Value}

/-- A case that finds a switch and leaves it as it is. -/
theorem turn_same {directive : Directive} (hname : p.processor.name = "case")
    (hstate : c.value? switchName = some state) (hd : switches d = switches c)
    (h : AnswersTo ev (.called p ⟨e, c⟩ (.ok directive)) state state) :
    Turn ev (.called p ⟨e, c⟩ (.ok directive)) (switches c) (switches d) := by
  rw [hd]
  refine .answers (beq_iff_eq.mpr hname) ((Context.innermost_same hstate).mono ?_)
  rintro _ _ ⟨rfl, rfl⟩
  exact h

theorem turn_chosen (hname : p.processor.name = "case")
    (hstate : c.value? switchName = some state) (hmatched : isMatched state = false)
    (hd : switches d = switches c) (h : Chooses ev (switched state) p ⟨e, c⟩) :
    Turn ev (.called p ⟨e, c⟩ (.ok .proceed)) (switches c) (switches (markMatched d)) := by
  have hmark : Innermost _ (switches d) (switches (markMatched d)) :=
    innermost_markMatched (by rw [value?_eq_switches, hd, ← value?_eq_switches, hstate])
  rw [hd] at hmark
  refine .answers (beq_iff_eq.mpr hname) (hmark.mono ?_)
  rintro _ _ ⟨rfl, rfl⟩
  exact .chosen (.intro hstate) hmatched (.intro h)

/-- A case answers to the innermost switch. -/
theorem takesTurn_case (hname : p.processor.name = "case") (hrun : p.processor.run = case)
    (e : Element) (c : Context) :
    TakesTurn ev p e c (p.processor.run (p.calledWith ev e) (p.workspace e c)) := by
  have htouch : switches (c.touch switchName) = switches c := Context.held_touch _ _ c
  rw [hrun, case_run]
  dsimp only [Entry.workspace]
  cases hstate : c.value? switchName with
  | none =>
    refine ⟨htouch, fun cause => ⟨⟨_, _, _, rfl⟩, fun _ => ?_⟩⟩
    rw [← value?_eq_switches, hstate]
    exact .outside (.intro hstate)
  | some state =>
    dsimp only
    by_cases hmatched : isMatched state = true
    · rw [if_pos hmatched]
      refine turn_same hname hstate htouch (.late (.intro hstate) hmatched (.intro fun ev' => ?_))
      rw [hrun, case_run]
      simp [Entry.workspace, hstate, hmatched]
    rw [if_neg hmatched]
    replace hmatched := Bool.eq_false_of_not_eq_true hmatched
    split
    · next hstar => exact turn_chosen hname hstate hmatched htouch (.inl hstar)
    next hstar =>
    have hasked := (Context.held_evaluate switchName ev (p.calledWith ev e).value
      (c.touch switchName)).trans htouch
    rw [evaluateValue_run]
    dsimp only
    cases hvalue : ev.value (c.touch switchName) (p.calledWith ev e).value with
    | error cause =>
      refine ⟨hasked, fun cause' => ⟨⟨_, _, _, rfl⟩, fun _ => ?_⟩⟩
      rw [← value?_eq_switches, hstate]
      refine .failed (.intro hstate) hmatched (.intro ?_)
      rintro (h | ⟨w, hw, -⟩)
      · exact hstar h
      · cases hvalue.symm.trans hw
    | ok v =>
      dsimp only
      split
      · next heq => exact turn_chosen hname hstate hmatched hasked (.inr ⟨v, hvalue, heq⟩)
      · next hne =>
        refine turn_same hname hstate hasked (.passed (.intro hstate) hmatched (.intro ?_))
        rintro (h | ⟨w, hw, heq⟩)
        · exact hstar h
        · cases hvalue.symm.trans hw
          exact hne heq

theorem takesTurn_switch (hname : p.processor.name = "switch") (hrun : p.processor.run = switch)
    (e : Element) (c : Context) :
    TakesTurn ev p e c (p.processor.run (p.calledWith ev e) (p.workspace e c)) := by
  have hcase (result : Except EngineError Directive) :
      (Deed.called p ⟨e, c⟩ result).calls "case" = false := by
    simp [Deed.calls, hname]
  have hasked := Context.held_evaluate switchName ev (p.calledWith ev e).value c
  have hswitch : switch (p.calledWith ev e) (p.workspace e c) =
      match (p.calledWith ev e).evaluateValue (p.workspace e c) with
      | .ok v w => .ok .proceed { w with context := w.context.setLocal switchName (opened v) }
      | .error cause w => .error cause w := by
    show EStateM.bind (p.calledWith ev e).evaluateValue _ _ = _
    unfold EStateM.bind
    cases (p.calledWith ev e).evaluateValue (p.workspace e c) <;> rfl
  rw [hrun, hswitch, evaluateValue_run]
  dsimp only [Entry.workspace]
  cases hvalue : ev.value c (p.calledWith ev e).value with
  | error cause =>
    exact ⟨hasked, fun cause => ⟨⟨_, _, _, rfl⟩, fun h => absurd h (by simp [hcase])⟩⟩
  | ok v =>
    obtain ⟨hidden, outer, hheld⟩ := exists_switches c
    have hopened := Context.held_setLocal_self (hasked.trans hheld) (opened v)
    show Turn ev _ (switches c) (switches _)
    rw [hheld, switches, hopened]
    exact .opens (beq_iff_eq.mpr hname) (.intro hvalue)

/-- The calls of the standard processors. -/
theorem takesTurn_of_mem_processors (ev : Evaluator) (hp : p.processor ∈ processors) (e : Element)
    (c : Context) :
    TakesTurn ev p e c (p.processor.run (p.calledWith ev e) (p.workspace e c)) := by
  by_cases hcase : p.processor.name = "case"
  · exact takesTurn_case hcase (run_of_name_case hp hcase) e c
  by_cases hswitch : p.processor.name = "switch"
  · exact takesTurn_switch hswitch (run_of_name_switch hp hswitch) e c
  have hkeeps := keeps_of_mem_processors (R := KeepsSwitches) hp hswitch hcase
    (p.calledWith ev e) (p.workspace e c)
  cases hrun : p.processor.run (p.calledWith ev e) (p.workspace e c) with
  | ok directive w =>
    rw [hrun] at hkeeps
    rw [TakesTurn, show switches w.context = switches c from hkeeps]
    exact .other (beq_false_of_ne hswitch) (beq_false_of_ne hcase)
  | error cause w =>
    rw [hrun] at hkeeps
    exact ⟨hkeeps, fun _ => ⟨⟨_, _, _, rfl⟩, fun h => absurd (beq_iff_eq.mp h) hcase⟩⟩

end

end Standard
end NaturalTemplate
