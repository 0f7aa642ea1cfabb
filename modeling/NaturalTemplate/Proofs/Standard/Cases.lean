import NaturalTemplate.Proofs.Standard.Belonging
import NaturalTemplate.Proofs.Standard.Stable

/-!
# The first case that matches

Of all cases that belong to a switch the first one that matches is kept, wherever they stand among
the elements inside, and whatever other switches do there.
-/
namespace NaturalTemplate
open Markup

variable {ev : Evaluator} {entries : List Entry}

namespace Standard

/-! ## Calls one after the other -/

/-- What some calls, the oldest first, leave of what the scopes hold for switches. If one of them
fails, it is the last, and the part of a run that makes it is not `fine`. -/
inductive Turns (ev : Evaluator) :
    Bool → List Deed → List (Option Value) → List (Option Value) → Prop where
  | done {fine : Bool} {held : List (Option Value)} : Turns ev fine [] held held
  | turn {fine : Bool} {d : Deed} {ds : List Deed} {held held' held'' : List (Option Value)}
    (h : Turn ev d held held') (hrest : Turns ev fine ds held' held'') :
    Turns ev fine (d :: ds) held held''
  | stuck {d : Deed} {held : List (Option Value)} (h : Stuck ev held d) :
    Turns ev false [d] held held

theorem Turn.exists_cons {d : Deed} {hidden : Option Value} {outer held' : List (Option Value)}
    (h : Turn ev d (hidden :: outer) held') : ∃ hidden' outer', held' = hidden' :: outer' := by
  cases h with
  | other => exact ⟨_, _, rfl⟩
  | opens => exact ⟨_, _, rfl⟩
  | answers _ h => cases h <;> exact ⟨_, _, rfl⟩

/-- Where the innermost scope holds a switch, nothing changes in those around it. -/
theorem Turn.enclosed {d : Deed} {state : Value} {outer held' : List (Option Value)}
    (h : Turn ev d (some state :: outer) held') : ∃ state', held' = some state' :: outer := by
  cases h with
  | other => exact ⟨_, rfl⟩
  | opens => exact ⟨_, rfl⟩
  | answers _ h =>
    cases h
    exact ⟨_, rfl⟩

/-- A case answers to the innermost switch. -/
theorem Turn.answers_of_case {d : Deed} {held held' : List (Option Value)}
    (h : Turn ev d held held') (hcase : d.calls "case" = true) :
    Innermost (AnswersTo ev d) held held' := by
  cases h with
  | other _ hnot => cases hcase.symm.trans hnot
  | opens hswitch => cases hswitch.symm.trans (calls_switch_of_case hcase)
  | answers _ h => exact h

theorem Turn.opens_of_switch {d : Deed} {held held' : List (Option Value)}
    (h : Turn ev d held held') (hswitch : d.calls "switch" = true) :
    ∃ v outer, held' = some (opened v) :: outer ∧ Opens ev v d := by
  cases h with
  | other hnot => cases hswitch.symm.trans hnot
  | opens _ h => exact ⟨_, _, rfl, h⟩
  | answers hcase => cases hswitch.symm.trans (calls_switch_of_case hcase)

/-- What the cases answer, in their order, that belong to a switch with some value. Until one is the
one for the value, they remove their elements, or one fails and is the last; after it, they remove
their elements and evaluate nothing. -/
inductive Decided (ev : Evaluator) (v : Value) : List Deed → Prop where
  | undecided {passed : List Deed} {failed : Option Deed}
    (hpassed : ∀ d ∈ passed, Finds (opened v) d ∧ Passed ev v d)
    (hfailed : ∀ d ∈ failed, Finds (opened v) d ∧ Failed ev v d) :
    Decided ev v (passed ++ failed.toList)
  | decided {passed late : List Deed} {chosen : Deed}
    (hpassed : ∀ d ∈ passed, Finds (opened v) d ∧ Passed ev v d)
    (hchosen : Finds (opened v) chosen ∧ Chosen ev v chosen)
    (hlate : ∀ d ∈ late, Finds (marked (opened v)) d ∧ Late d) :
    Decided ev v (passed ++ chosen :: late)

theorem Decided.cons {v : Value} {d : Deed} {ds : List Deed} (h : Decided ev v ds)
    (hfinds : Finds (opened v) d) (hd : Passed ev v d) : Decided ev v (d :: ds) := by
  cases h with
  | undecided hpassed hfailed =>
    exact .undecided (List.forall_mem_cons.mpr ⟨⟨hfinds, hd⟩, hpassed⟩) hfailed
  | decided hpassed hchosen hlate =>
    exact .decided (List.forall_mem_cons.mpr ⟨⟨hfinds, hd⟩, hpassed⟩) hchosen hlate

namespace Turns

variable {fine : Bool} {ds es calls inside : List Deed}
  {held held' held'' outer : List (Option Value)} {hidden : Option Value} {state v : Value}

theorem append (h : Turns ev true ds held held') (hrest : Turns ev fine es held' held'') :
    Turns ev fine (ds ++ es) held held'' := by
  generalize hfine : true = fine' at h
  induction h with
  | done => exact hrest
  | turn h _ ih => exact .turn h (ih hrest hfine)
  | stuck => cases hfine

theorem exists_cons (h : Turns ev fine ds (hidden :: outer) held') :
    ∃ hidden' outer', held' = hidden' :: outer' := by
  generalize hheld : hidden :: outer = held at h
  induction h generalizing hidden outer with
  | done => exact ⟨hidden, outer, hheld.symm⟩
  | turn h _ ih =>
    subst hheld
    obtain ⟨hidden', outer', rfl⟩ := h.exists_cons
    exact ih rfl
  | stuck => exact ⟨hidden, outer, hheld.symm⟩

theorem enclosed (h : Turns ev fine ds (some state :: outer) held') :
    ∃ state', held' = some state' :: outer := by
  generalize hheld : some state :: outer = held at h
  induction h generalizing state with
  | done => exact ⟨state, hheld.symm⟩
  | turn h _ ih =>
    subst hheld
    obtain ⟨state', rfl⟩ := h.enclosed
    exact ih rfl
  | stuck => exact ⟨state, hheld.symm⟩

/-- A switch of the element hides those around it from all that follows for the element, so these
answer to the cases alone that belong to none of its own. -/
theorem unswitched (h : Turns ev fine (calls ++ inside) (hidden :: outer) held') :
    ∃ left outer' hidden', held' = left :: outer' ∧
      Turns ev fine (unswitched inside calls) (hidden :: outer) (hidden' :: outer') := by
  induction calls generalizing hidden outer with
  | nil =>
    obtain ⟨left, outer', rfl⟩ := h.exists_cons
    exact ⟨left, outer', left, rfl, h⟩
  | cons d calls ih =>
    rw [List.cons_append] at h
    rw [Standard.unswitched]
    generalize hall : calls ++ inside = all at h
    cases h with
    | turn hturn hrest =>
      subst hall
      cases hturn with
      | other hswitch hcase =>
        rw [if_neg (by simp [hswitch]), if_neg (by simp [hcase])]
        exact ih hrest
      | opens hswitch =>
        obtain ⟨left, rfl⟩ := hrest.enclosed
        rw [if_pos hswitch]
        exact ⟨_, outer, hidden, rfl, .done⟩
      | answers hcase h =>
        rw [if_neg (by simp [calls_switch_of_case hcase]), if_pos hcase]
        obtain ⟨hidden', outer', rfl⟩ := (Turn.answers hcase h).exists_cons
        obtain ⟨left, outer'', hidden'', rfl, hturns⟩ := ih hrest
        exact ⟨left, outer'', hidden'', rfl, .turn (.answers hcase h) hturns⟩
    | stuck h =>
      obtain ⟨rfl, rfl⟩ := List.append_eq_nil_iff.mp hall
      refine ⟨hidden, outer, hidden, rfl, ?_⟩
      split
      · exact .done
      · split
        · exact .stuck h
        · exact .done

/-- Where the innermost scope holds no switch, cases answer to those around it. -/
theorem pop (h : Turns ev fine ds (none :: outer) held')
    (hcases : ∀ d ∈ ds, d.calls "case" = true) :
    ∃ outer', held' = none :: outer' ∧ Turns ev fine ds outer outer' := by
  generalize hheld : none :: outer = held at h
  induction h generalizing outer with
  | done => exact ⟨outer, hheld.symm, .done⟩
  | turn h _ ih =>
    obtain ⟨hcase, hrest⟩ := List.forall_mem_cons.mp hcases
    subst hheld
    replace h := h.answers_of_case hcase
    cases h with
    | farther h =>
      obtain ⟨outer', rfl, hturns⟩ := ih hrest rfl
      exact ⟨outer', rfl, .turn (.answers hcase h) hturns⟩
  | stuck h =>
    subst hheld
    exact ⟨outer, rfl, .stuck ⟨h.fails, h.case⟩⟩

theorem exists_behind {d : Deed} {front later : List Deed}
    (h : Turns ev fine (front ++ d :: later) held held') :
    ∃ left, Turns ev fine (d :: later) left held' := by
  induction front generalizing held with
  | nil => exact ⟨held, h⟩
  | cons d' front ih =>
    rw [List.cons_append] at h
    generalize hall : front ++ d :: later = all at h
    cases h with
    | turn _ hrest => exact ih (hall ▸ hrest)
    | stuck => exact absurd hall (by simp)

/-- What is called behind a switch that succeeds begins with what the switch keeps. -/
theorem exists_opened {p : Entry} {before : Workspace} {directive : Directive}
    {front later : List Deed} (hname : p.processor.name = "switch")
    (h : Turns ev fine (front ++ .called p before (.ok directive) :: later) held held') :
    ∃ v outer, ev.value before.context (p.calledWith ev before.element).value = .ok v ∧
      Turns ev fine later (some (opened v) :: outer) held' := by
  obtain ⟨left, h⟩ := h.exists_behind
  cases h with
  | turn hturn hrest =>
    obtain ⟨v, outer, rfl, hopens⟩ := hturn.opens_of_switch (beq_iff_eq.mpr hname)
    cases hopens with
    | intro hvalue => exact ⟨v, outer, hvalue, hrest⟩
  | stuck h =>
    obtain ⟨_, _, _, heq⟩ := h.fails
    cases heq

/-- Where no scope holds a switch, a case finds none. -/
theorem outside (h : Turns ev fine ds held held') (hnone : held.findSome? id = none)
    (hcases : ∀ d ∈ ds, d.calls "case" = true) : ∀ d ∈ ds, Outside d := by
  cases h with
  | done => exact List.forall_mem_nil _
  | turn h _ =>
    obtain ⟨_, _, hsome, -⟩ := (h.answers_of_case (hcases _ List.mem_cons_self)).findSome?
    cases hnone.symm.trans hsome
  | stuck h =>
    refine List.forall_mem_singleton.mpr ?_
    have hfails := h.case (hcases _ List.mem_cons_self)
    rw [hnone] at hfails
    cases hfails with
    | outside h => exact h

/-- Nothing is called behind a switch that fails. -/
theorem eq_nil_of_failed {p : Entry} {before : Workspace} {cause : EngineError}
    {front later : List Deed} (hname : p.processor.name = "switch")
    (h : Turns ev fine (front ++ .called p before (.error cause) :: later) held held') :
    later = [] := by
  obtain ⟨left, h⟩ := h.exists_behind
  cases h with
  | turn hturn _ =>
    obtain ⟨_, _, -, hopens⟩ := hturn.opens_of_switch (beq_iff_eq.mpr hname)
    cases hopens
  | stuck => rfl

/-! ### The cases of one switch -/

/-- Where a case has matched, those after it come too late. -/
theorem late (h : Turns ev fine ds (some state :: outer) held')
    (hcases : ∀ d ∈ ds, d.calls "case" = true) (hmatched : isMatched state = true) :
    ∀ d ∈ ds, Finds state d ∧ Late d := by
  generalize hheld : some state :: outer = held at h
  induction h with
  | done => exact List.forall_mem_nil _
  | turn h _ ih =>
    obtain ⟨hcase, hrest⟩ := List.forall_mem_cons.mp hcases
    subst hheld
    replace h := h.answers_of_case hcase
    cases h with
    | here h =>
      cases h with
      | late hfinds _ h => exact List.forall_mem_cons.mpr ⟨⟨hfinds, h⟩, ih hrest rfl⟩
      | passed _ hnot => cases hmatched.symm.trans hnot
      | chosen _ hnot => cases hmatched.symm.trans hnot
  | stuck h =>
    subst hheld
    cases h.case (hcases _ List.mem_cons_self) with
    | failed _ hnot => cases hmatched.symm.trans hnot

theorem decided (h : Turns ev fine ds (some (opened v) :: outer) held')
    (hcases : ∀ d ∈ ds, d.calls "case" = true) : Decided ev v ds := by
  generalize hheld : some (opened v) :: outer = held at h
  induction h with
  | done => exact @Decided.undecided ev v [] none (List.forall_mem_nil _) fun _ h => by cases h
  | turn h hlater ih =>
    obtain ⟨hcase, hrest⟩ := List.forall_mem_cons.mp hcases
    subst hheld
    replace h := h.answers_of_case hcase
    cases h with
    | here h =>
      cases h with
      | late _ hnot => simp at hnot
      | passed hfinds _ h => exact (ih hrest rfl).cons hfinds h
      | chosen hfinds _ h =>
        exact .decided (List.forall_mem_nil _) ⟨hfinds, h⟩
          (hlater.late hrest (isMatched_marked_opened v))
  | @stuck d _ h =>
    subst hheld
    refine @Decided.undecided ev v [] (some d) (List.forall_mem_nil _) fun d' hd' => ?_
    cases hd'
    cases h.case (hcases _ List.mem_cons_self) with
    | failed hfinds _ hfailed => exact ⟨hfinds, hfailed⟩

end Turns

/-! ## What becomes of the cases -/

def succeeds {ε σ α : Type} : EStateM.Result ε σ α → Bool
  | .ok .. => true
  | .error .. => false

/-- Whether a part of a run changes of what the scopes hold for switches what some cases do that it
records. -/
structure Follows {α : Type} (ev : Evaluator) (r : Run) (result : EStateM.Result Failure Run α)
    (cases : List Deed) : Prop where
  turns : Turns ev (succeeds result) cases (switches r.context)
    (switches (finalState result).context)
  areCases : ∀ d ∈ cases, d.calls "case" = true
  recorded : ∃ new, (finalState result).deeds = new ++ r.deeds ∧ cases.reverse.Sublist new

namespace Follows

variable {α : Type} {r : Run} {x y : Running Emitted} {first second : Run → List Deed}
  {cases : List Deed}

theorem nothing {result : EStateM.Result Failure Run α}
    (hkeeps : KeepsSwitches r.context (finalState result).context)
    (hdeeds : r.deeds <:+ (finalState result).deeds) : Follows ev r result [] where
  turns := by
    rw [show switches (finalState result).context = switches r.context from hkeeps]
    exact .done
  areCases := List.forall_mem_nil _
  recorded := by
    obtain ⟨new, hnew⟩ := hdeeds
    exact ⟨new, hnew.symm, List.nil_sublist _⟩

theorem andThen (hx : Follows ev r (x r) (first r))
    (hy : ∀ out s, x r = .ok ⟨out, none⟩ s → Follows ev s (y s) (second s)) :
    Follows ev r (Running.andThen x y r) (thenCalls x first second r) := by
  unfold thenCalls
  rw [Running.andThen_run]
  cases hrun : x r with
  | error failure s =>
    rw [hrun] at hx
    simpa using hx
  | ok emitted s =>
    obtain ⟨out, halt⟩ := emitted
    rw [hrun] at hx
    cases halt with
    | some halt => simpa using hx
    | none =>
      obtain ⟨hturns, hcases, new, hnew, hsub⟩ := hx
      obtain ⟨hturns', hcases', new', hnew', hsub'⟩ := hy out s hrun
      have hfinal : finalState (Running.andThen x y r) = finalState (y s) ∧
          succeeds (Running.andThen x y r) = succeeds (y s) := by
        rw [Running.andThen_of_eq_ok hrun]
        cases y s <;> exact ⟨rfl, rfl⟩
      rw [Running.andThen_run, hrun] at hfinal
      refine ⟨?_, List.forall_mem_append.mpr ⟨hcases, hcases'⟩, new' ++ new, ?_, ?_⟩
      · rw [hfinal.1, hfinal.2]
        exact hturns.append hturns'
      · rw [hfinal.1, hnew', List.append_assoc]
        exact congrArg _ hnew
      · rw [List.reverse_append]
        exact hsub'.append hsub

/-- What the innermost scope holds ends with it. -/
theorem inScope {left : Option Value} {outer : List (Option Value)}
    (hheld : switches (finalState (x { r with context := r.context.push })).context =
      left :: outer)
    (hturns : Turns ev (succeeds (x { r with context := r.context.push })) cases
      (switches r.context) outer)
    (hcases : ∀ d ∈ cases, d.calls "case" = true)
    (hrecorded : ∃ new, (finalState (x { r with context := r.context.push })).deeds =
      new ++ r.deeds ∧ cases.reverse.Sublist new) : Follows ev r (Running.inScope x r) cases := by
  have hpop {s : Run} (hs : switches s.context = left :: outer) :
      switches s.context.pop = outer := by
    obtain ⟨hidden, around, hr⟩ := exists_switches r.context
    rw [hr] at hturns
    obtain ⟨_, _, rfl⟩ := hturns.exists_cons
    exact Context.held_pop hs (List.cons_ne_nil _ _)
  rw [Running.inScope_run]
  cases hrun : x { r with context := r.context.push } <;> rw [hrun] at hheld hturns hrecorded
  all_goals
    refine ⟨?_, hcases, hrecorded⟩
    rw [← hpop hheld] at hturns
    exact hturns

/-- In a scope that holds no switch, cases answer to those around it. -/
theorem inItem {body : Running Emitted} {bind : Context → Context}
    (hbind : switches (bind r.context.push) = none :: switches r.context)
    (h : Follows ev { r with context := bind r.context.push }
      (body { r with context := bind r.context.push }) cases) :
    Follows ev r
      (Running.inScope (do
        Running.changeContext bind
        body) r) cases := by
  obtain ⟨hturns, hcases, hrecorded⟩ := h
  rw [hbind] at hturns
  obtain ⟨outer, hheld, hturns⟩ := hturns.pop hcases
  exact .inScope hheld hturns hcases hrecorded

end Follows

section
variable {visit : Element → Running Emitted} {cases : Element → Run → List Deed}

theorem follows_emitNode (hvisit : ∀ e r, Follows ev r (visit e r) (cases e r)) (n : Node)
    (r : Run) :
    Follows ev r (emitNode ev visit n r)
      ((match n.element? with
        | some e => cases e
        | none => fun _ => []) r) := by
  cases n with
  | element tag children endTag => exact hvisit ⟨tag, children, endTag⟩ r
  | text content l =>
    have hframe : r.context.Frame ∅ (finalState (emitText ev content l r)).context :=
      keeps_emitText content l r
    have hadds : Adds (fun _ => True) r (emitText ev content l r) :=
      adds_emitText (fun _ => trivial) content l r
    exact .nothing (hframe.held (Set.notMem_empty _)) hadds.suffix
  | _ => exact .nothing rfl List.suffix_rfl

theorem follows_emitAll (hvisit : ∀ e r, Follows ev r (visit e r) (cases e r)) (nodes : List Node)
    (r : Run) : Follows ev r (emitAll ev visit nodes r) (nodesCases ev visit cases nodes r) := by
  induction nodes generalizing r with
  | nil => exact .nothing rfl List.suffix_rfl
  | cons n nodes ih =>
    rw [emitAll_cons]
    exact .andThen (follows_emitNode hvisit n r) fun _ s _ => ih s

end

theorem follows_emitItems {body : Running Emitted} {cases : Run → List Deed}
    (hbody : ∀ r, Follows ev r (body r) (cases r)) {binding status : String}
    (hbinding : switchName ≠ binding) (hstatus : switchName ≠ status) (size index : ℕ)
    (items : List Value) (r : Run) :
    Follows ev r (emitItems body binding status size index items r)
      (itemsCases body cases binding status size index items r) := by
  induction items generalizing index r with
  | nil => exact .nothing rfl List.suffix_rfl
  | cons item items ih =>
    have hbound : switches (Context.bindItem binding status ⟨index, size, item⟩ r.context.push) =
        none :: switches r.context := by
      rw [switches, Context.bindItem, Context.held_setLocal hstatus, Context.held_setLocal hbinding]
      rfl
    rw [emitItems, itemsCases]
    exact .andThen (.inItem hbound (hbody _)) fun _ s _ => ih (index + 1) s

/-! ## Visits -/

theorem exists_turns_of_settle (ev : Evaluator) {pending : List Entry}
    (hpending : ∀ p ∈ pending, p.processor ∈ processors) (children : Bool) (e : Element) (r : Run) :
    ∃ calls, (finalState (settle ev pending children e r)).deeds = calls.reverse ++ r.deeds ∧
      Turns ev (succeeds (settle ev pending children e r)) calls (switches r.context)
        (switches (finalState (settle ev pending children e r)).context) := by
  induction pending, children, e using settle.induct generalizing r with
  | case1 pending children e hnext =>
    rw [settle_of_next?_eq_none hnext]
    exact ⟨[], rfl, .done⟩
  | case2 pending children e p others hnext ihproceed ihskip =>
    obtain ⟨hmem, hsub⟩ := Entry.mem_of_next? hnext
    have hothers : ∀ q ∈ others, q.processor ∈ processors := fun q hq => hpending q (hsub hq)
    have hcall := takesTurn_of_mem_processors ev (hpending p hmem) e r.context
    rw [settle_of_next? hnext]
    show ∃ calls, (finalState (EStateM.bind (p.call ev e) _ r)).deeds = _ ∧
      Turns ev (succeeds (EStateM.bind (p.call ev e) _ r)) calls _
        (switches (finalState (EStateM.bind (p.call ev e) _ r)).context)
    unfold EStateM.bind
    rw [Entry.call_run]
    cases hrun : p.processor.run (p.calledWith ev e) (p.workspace e r.context) with
    | error cause w =>
      rw [hrun] at hcall
      obtain ⟨hheld, hstuck⟩ := hcall
      refine ⟨[_], rfl, ?_⟩
      show Turns ev false _ _ (switches w.context)
      rw [hheld]
      exact .stuck (hstuck _)
    | ok directive w =>
      rw [hrun] at hcall
      let s : Run := ⟨w.context, .called p ⟨e, r.context⟩ (.ok directive) :: r.deeds⟩
      have hgoes {result : EStateM.Result Failure Run Outcome}
          (ih : ∃ calls, (finalState result).deeds = calls.reverse ++ s.deeds ∧
            Turns ev (succeeds result) calls (switches s.context)
              (switches (finalState result).context)) :
          ∃ calls, (finalState result).deeds = calls.reverse ++ r.deeds ∧
            Turns ev (succeeds result) calls (switches r.context)
              (switches (finalState result).context) := by
        obtain ⟨calls, hdeeds, hturns⟩ := ih
        refine ⟨_ :: calls, ?_, .turn hcall hturns⟩
        rw [hdeeds, List.reverse_cons, List.append_assoc]
        rfl
      cases directive with
      | proceed => exact hgoes (ihproceed w.element hothers s)
      | skipChildren => exact hgoes (ihskip w.element hothers s)
      | _ => exact hgoes ⟨[], rfl, .done⟩

/-- No item of a repetition is bound under the name of the switches. -/
theorem names_of_settle {pending others : List Entry}
    (hpending : ∀ p ∈ pending, p.processor ∈ processors) {children : Bool} {e e' : Element}
    {items : List Value} {binding status : String} {r s : Run}
    (h : settle ev pending children e r = .ok (.iterate e' others items binding status) s) :
    switchName ≠ binding ∧ switchName ≠ status := by
  induction pending, children, e using settle.induct generalizing r with
  | case1 pending children e hnext =>
    rw [settle_of_next?_eq_none hnext] at h
    cases h
  | case2 pending children e p others hnext ihproceed ihskip =>
    obtain ⟨hmem, hsub⟩ := Entry.mem_of_next? hnext
    have hothers : ∀ q ∈ others, q.processor ∈ processors := fun q hq => hpending q (hsub hq)
    rw [settle_of_next? hnext] at h
    obtain ⟨⟨directive, e''⟩, t, hcall, h⟩ := eq_ok_of_bind h
    cases directive with
    | proceed => exact ihproceed e'' hothers h
    | skipChildren => exact ihskip e'' hothers h
    | iterate items' binding' status' =>
      cases h
      obtain ⟨⟨c, hrun⟩, -⟩ := call_eq_ok hcall
      obtain ⟨-, declaration, i, hi, rfl, rfl⟩ := replies_run (hpending p hmem) _ _ _ _ hrun
      obtain ⟨hbinding, hstatus⟩ := isIdentifier_of_iteration hi
      refine ⟨switches_ne hbinding, ?_⟩
      cases hs : i.status with
      | none => exact (defaultName_ne (by decide) i.binding).symm
      | some status => exact switches_ne (hstatus status hs)
    | _ => cases h

theorem Follows.around {e : Element} {x : Running Emitted} {r : Run} {cases : List Deed}
    (h : Follows ev r (x r) cases) : Follows ev r (Running.around e x r) cases := by
  rw [Running.around_run]
  cases hrun : x r <;> rw [hrun] at h <;> exact ⟨h.turns, h.areCases, h.recorded⟩

section
variable {fuel : ℕ}

theorem follows_follow (hentries : ∀ p ∈ entries, p.processor ∈ processors)
    (hvisit : ∀ pending, (∀ p ∈ pending, p.processor ∈ processors) → ∀ e r,
      Follows ev r (visit ev entries fuel pending e r) (visitCases ev entries fuel pending e r))
    {outcome : Outcome} (hpending : ∀ p ∈ outcome.pending, p.processor ∈ processors)
    (hnames : ∀ e others items binding status, outcome = .iterate e others items binding status →
      switchName ≠ binding ∧ switchName ≠ status) (s : Run) :
    Follows ev s (outcome.follow ev entries (visit ev entries fuel) s)
      (insideCases ev entries (visit ev entries fuel) (visitCases ev entries fuel)
        (.ok outcome s)) := by
  have hall (nodes : List Node) (s : Run) :
      Follows ev s (emitAll ev (visit ev entries fuel entries) nodes s)
        (nodesCases ev (visit ev entries fuel entries) (visitCases ev entries fuel entries) nodes
          s) :=
    follows_emitAll (hvisit entries hentries) nodes s
  cases outcome with
  | keep e children =>
    cases children with
    | false => exact .nothing rfl List.suffix_rfl
    | true => exact (hall e.children s).around
  | splice nodes => exact hall nodes s
  | iterate e others items binding status =>
    obtain ⟨hbinding, hstatus⟩ := hnames _ _ _ _ _ rfl
    exact follows_emitItems (hvisit others hpending e) hbinding hstatus items.length 0 items s
  | drop | halt => exact .nothing rfl List.suffix_rfl

/-- What a visit leaves before the scope of its element ends comes of the calls for the element and
of the cases inside it. -/
theorem turns_of_visit (fuel : ℕ) (hentries : ∀ p ∈ entries, p.processor ∈ processors)
    (hvisit : ∀ pending, (∀ p ∈ pending, p.processor ∈ processors) → ∀ e r,
      Follows ev r (visit ev entries fuel pending e r) (visitCases ev entries fuel pending e r))
    {v : Visiting} (hpending : ∀ p ∈ v.pending, p.processor ∈ processors) {calls : List Deed}
    (hcalls : v.Calls ev calls) :
    let inside := insideCases ev entries (visit ev entries fuel) (visitCases ev entries fuel)
      (v.settled ev)
    let result := (settle ev v.pending true v.element >>=
      Outcome.follow ev entries (visit ev entries fuel))
      { v.start with context := v.start.context.push }
    Turns ev (succeeds result) (calls ++ inside) (none :: switches v.start.context)
        (switches (finalState result).context) ∧
      (∀ d ∈ inside, d.calls "case" = true) ∧
      ∃ new, (finalState result).deeds = new ++ (calls.reverse ++ v.start.deeds) ∧
        inside.reverse.Sublist new := by
  obtain ⟨calls', hdeeds, hturns⟩ := exists_turns_of_settle ev hpending true v.element
    { v.start with context := v.start.context.push }
  obtain rfl : calls = calls' := hcalls.unique ⟨hcalls.fuel, hdeeds⟩
  intro inside result
  change (finalState (v.settled ev)).deeds = _ at hdeeds
  change Turns ev (succeeds (v.settled ev)) _ _ (switches (finalState (v.settled ev)).context)
    at hturns
  cases hsettled : v.settled ev with
  | error failure s =>
    have hresult : result = .error failure s := by
      show EStateM.bind _ _ _ = _
      unfold EStateM.bind
      rw [show settle ev _ _ _ _ = _ from hsettled]
    have hinside : inside = [] := by simp only [inside, hsettled, insideCases]
    rw [hsettled] at hdeeds hturns
    rw [hresult, hinside, List.append_nil]
    exact ⟨hturns, List.forall_mem_nil _, [], hdeeds, List.Sublist.refl _⟩
  | ok outcome s =>
    have hresult : result = outcome.follow ev entries (visit ev entries fuel) s :=
      bind_of_eq_ok hsettled
    have hfollows := follows_follow hentries hvisit
      (fun p hp => hpending p (pending_of_settle hsettled hp))
      (fun e others items binding status h => names_of_settle hpending (h ▸ hsettled)) s
    have hinside : inside = insideCases ev entries (visit ev entries fuel)
        (visitCases ev entries fuel) (.ok outcome s) := by simp only [inside, hsettled]
    rw [hsettled] at hdeeds hturns
    rw [hresult, hinside]
    obtain ⟨hturns', hcases, new, hnew, hsub⟩ := hfollows
    refine ⟨hturns.append hturns', hcases, new, ?_, hsub⟩
    rw [hnew]
    exact congrArg _ hdeeds

end

/-- What a visit leaves comes of the cases in it that belong to switches around its element. -/
theorem follows_visit (hentries : ∀ p ∈ entries, p.processor ∈ processors) (fuel : ℕ)
    {pending : List Entry} (hpending : ∀ p ∈ pending, p.processor ∈ processors) (e : Element)
    (r : Run) :
    Follows ev r (visit ev entries fuel pending e r) (visitCases ev entries fuel pending e r) := by
  induction fuel generalizing pending e r with
  | zero => exact .nothing rfl List.suffix_rfl
  | succ fuel ih =>
    let v : Visiting := ⟨fuel + 1, pending, e, r⟩
    obtain ⟨calls, hcalls⟩ := Visiting.exists_calls ev (v := v) (Nat.succ_ne_zero fuel)
    obtain ⟨hturns, hcases, new, hnew, hsub⟩ :=
      turns_of_visit fuel hentries (fun pending hpending e r => ih hpending e r) hpending hcalls
    obtain ⟨left, outer, hidden, hheld, hunswitched⟩ := hturns.unswitched
    have hall := calls_of_mem_unswitched hcases calls
    obtain ⟨outer', heq, hturns⟩ := hunswitched.pop hall
    cases heq
    rw [visit_succ, visitCases, made_eq hcalls]
    refine .inScope hheld hturns hall ⟨new ++ calls.reverse, ?_, ?_⟩
    · rw [hnew, List.append_assoc]
    · refine ((unswitched_sublist _ calls).reverse).trans ?_
      rw [List.reverse_append]
      exact hsub.append (List.Sublist.refl _)

/-! ## Registries -/

theorem mem_processors_of_ofDialects {r : Registry} (hr : Registry.ofDialects [dialect] = .ok r) :
    ∀ p ∈ r.entries, p.processor ∈ processors :=
  fun p hp => mem_processors_of_mem_entries (mem_entries_of_ofDialects hr p hp)

/-- The processors that are pending in a visit are some of all. -/
theorem pending_of_makes {r : Registry} {nodes : List Node} {start : Run} {v : Visiting}
    (h : r.Makes ev nodes start v) : v.pending ⊆ r.entries := by
  obtain @⟨e, s, _, _, _, -, -, hmakes⟩ := h
  induction hmakes with
  | refl => exact List.Subset.refl _
  | tail _ hstep ih =>
    obtain hclone | hinside := hstep
    · obtain ⟨-, hsettled, -, -⟩ := hclone
      exact List.Subset.trans (pending_of_settle hsettled) ih
    · obtain ⟨-, hpending, -, -, -⟩ := hinside
      rw [hpending]
      exact List.Subset.refl _

/-- The calls for an element that is visited in a run, and then the cases inside it. -/
theorem turns_of_makes {r : Registry} (hr : Registry.ofDialects [dialect] = .ok r)
    {nodes : List Node} {start : Run} {v : Visiting} (hmade : r.Makes ev nodes start v)
    {calls : List Deed} (hcalls : v.Calls ev calls) :
    let inside := insideCases ev r.entries (visit ev r.entries (v.fuel - 1))
      (visitCases ev r.entries (v.fuel - 1)) (v.settled ev)
    (∃ fine held, Turns ev fine (calls ++ inside) (none :: switches v.start.context) held) ∧
      (∀ d ∈ inside, d.calls "case" = true) ∧
      ∃ new, (finalState (v.emitted ev r.entries)).deeds =
        new ++ (calls.reverse ++ v.start.deeds) ∧ inside.reverse.Sublist new := by
  have hentries := mem_processors_of_ofDialects hr
  obtain ⟨hturns, hcases, hrecorded⟩ := turns_of_visit (v.fuel - 1) hentries
    (fun pending hpending e r => follows_visit hentries _ hpending e r)
    (fun q hq => hentries q (pending_of_makes hmade hq)) hcalls
  rw [← Visiting.deeds_emitted hcalls.fuel] at hrecorded
  exact ⟨⟨_, _, hturns⟩, hcases, hrecorded⟩

/-- Every case that finds a switch belongs to one that succeeded. -/
theorem exists_switch_of_case {r : Registry} (hr : Registry.ofDialects [dialect] = .ok r)
    {nodes : List Node} {c : Context} (hnone : c.value? switchName = none) {d : Deed}
    (hd : d ∈ (finalState (r.emit ev nodes { context := c })).deeds)
    (hcase : d.calls "case" = true) (hfinds : ¬ Outside d) :
    ∃ v p before directive front later, p.processor.name = "switch" ∧
      r.Makes ev nodes { context := c } v ∧
      v.Calls ev (front ++ .called p before (.ok directive) :: later) ∧
      d ∈ casesOf ev r.entries v later := by
  have hentries := mem_processors_of_ofDialects hr
  obtain hout | @⟨v, front, later, opening, hmade, hcalls, hopening, hd⟩ :=
    belongs_of_mem_deeds hd hcase
  · have hvisit (e : Element) (run : Run) :
        Follows ev run (visit ev r.entries (r.fuel e) r.entries e run)
          (visitCases ev r.entries (r.fuel e) r.entries e run) :=
      follows_visit hentries (r.fuel e) hentries e run
    have hfollows := follows_emitAll hvisit nodes { context := c }
    have hnone' : (switches c).findSome? id = none := by rw [← value?_eq_switches, hnone]
    exact absurd (hfollows.turns.outside hnone' hfollows.areCases d hout) hfinds
  cases opening with
  | expanded text => cases hopening
  | called p before result =>
    have hname : p.processor.name = "switch" := beq_iff_eq.mp hopening
    cases result with
    | ok directive => exact ⟨v, p, before, directive, front, later, hname, hmade, hcalls, hd⟩
    | error cause =>
      obtain ⟨⟨_, _, hturns⟩, -, -⟩ := turns_of_makes hr hmade hcalls
      rw [List.append_assoc, List.cons_append] at hturns
      have hmem := (unswitched_sublist _ later).subset hd
      rw [hturns.eq_nil_of_failed hname] at hmem
      cases hmem

/-- Of all cases that belong to a switch the first one that is the one for its value is kept; those
before it remove their elements, and so do those after it, with nothing evaluated. -/
theorem decided_of_switch {r : Registry} (hr : Registry.ofDialects [dialect] = .ok r)
    {nodes : List Node} {c : Context} {v : Visiting} {p : Entry} {before : Workspace}
    {directive : Directive} {front later : List Deed} (hname : p.processor.name = "switch")
    (hmade : r.Makes ev nodes { context := c } v)
    (hcalls : v.Calls ev (front ++ .called p before (.ok directive) :: later)) :
    let cases := casesOf ev r.entries v later
    ∃ value,
      ev.value before.context (p.calledWith ev before.element).value = .ok value ∧
      (∀ d ∈ cases, d.calls "case" = true) ∧ Decided ev value cases ∧
      cases.reverse.Sublist (finalState (r.emit ev nodes { context := c })).deeds := by
  obtain ⟨⟨_, _, hturns⟩, hcases, new, hnew, hsub⟩ := turns_of_makes hr hmade hcalls
  rw [List.append_assoc, List.cons_append] at hturns
  obtain ⟨value, outer, hvalue, hlater⟩ := hturns.exists_opened hname
  obtain ⟨left, outer', hidden, -, hown⟩ := hlater.unswitched
  have hall := calls_of_mem_unswitched hcases later
  refine ⟨value, hvalue, hall, hown.decided hall, ?_⟩
  have hlater : later.Sublist (front ++ .called p before (.ok directive) :: later) :=
    (List.sublist_cons_self _ later).trans (List.sublist_append_right _ _)
  refine (unswitched_sublist _ later).reverse.trans (.trans ?_ hmade.recorded.sublist)
  rw [hnew, List.reverse_append]
  exact hsub.append (hlater.reverse.trans (List.sublist_append_left _ _))

/-- Every switch that is called in a run decides the cases that belong to it, and these are recorded
in their order: the first one that is the one for the value of the switch is kept, those before it
remove their elements, and so do those after it, with nothing evaluated. Every case that finds a
switch belongs to one, if nothing is bound under the name of the switches beforehand. -/
theorem cases_decided {r : Registry} (hr : Registry.ofDialects [dialect] = .ok r) (ev : Evaluator)
    (nodes : List Node) (c : Context) :
    (∀ p before result, p.processor.name = "switch" →
      .called p before result ∈ (finalState (r.emit ev nodes { context := c })).deeds →
        ∃ v front later, r.Makes ev nodes { context := c } v ∧
          v.Calls ev (front ++ .called p before result :: later)) ∧
      (c.value? switchName = none →
        ∀ d ∈ (finalState (r.emit ev nodes { context := c })).deeds, d.calls "case" = true →
          ¬ Outside d →
            ∃ v p before directive front later, p.processor.name = "switch" ∧
              r.Makes ev nodes { context := c } v ∧
              v.Calls ev (front ++ .called p before (.ok directive) :: later) ∧
              d ∈ casesOf ev r.entries v later) ∧
      ∀ v p before directive front later, p.processor.name = "switch" →
        r.Makes ev nodes { context := c } v →
        v.Calls ev (front ++ .called p before (.ok directive) :: later) →
          let cases := casesOf ev r.entries v later
          ∃ value,
            ev.value before.context (p.calledWith ev before.element).value = .ok value ∧
            (∀ d ∈ cases, d.calls "case" = true) ∧ Decided ev value cases ∧
            cases.reverse.Sublist (finalState (r.emit ev nodes { context := c })).deeds := by
  refine ⟨fun p before result _ h => ?_, ?_, ?_⟩
  · obtain ⟨v, calls, hmakes, hcalls, hmem⟩ := Registry.exists_makes h
    obtain ⟨front, later, rfl⟩ := List.append_of_mem hmem
    exact ⟨v, front, later, hmakes, hcalls⟩
  · exact fun hnone d hd hcase hfinds => exists_switch_of_case hr hnone hd hcase hfinds
  · exact fun v p before directive front later hname hmade hcalls =>
      decided_of_switch hr hname hmade hcalls

/-- Of three cases, one in a repetition, the first that matches is kept. -/
theorem cases_decided_repeated :
    let element (attributes : List (String × String)) (children : List Node) : Node := .element
      { name := "p", attributes := attributes.map fun (name, value) =>
          ⟨" ", name, "=", some value, .double, {}⟩ }
      children (.explicit "</p>")
    let nodes : List Node := [element [("th:switch", "${x}")]
      [element [("th:each", "y : ${xs}")] [element [("th:case", "${y}")] [.text "a" {}]],
        element [("th:case", "*")] [.text "b" {}]]]
    let c : Context :=
      { root := [("x", .value (.string "2")),
          ("xs", .value (.array [.string "1", .string "2", .string "3"]))] }
    let deeds := (finalState (registry.emit .standard nodes { context := c })).deeds
    c.value? switchName = none ∧
      (∃ d ∈ deeds, d.calls "case" = true ∧ ¬ Outside d ∧
        ∃ v later, d ∈ casesOf .standard registry.entries v later) ∧
      ∃ (p : Entry) (before : Workspace) (v : Visiting) (later : List Deed) (value : Value),
        Registry.Makes registry .standard nodes { context := c } v ∧
        Evaluator.standard.value before.context (p.calledWith .standard before.element).value =
          .ok value ∧
        Decided .standard value (casesOf .standard registry.entries v later) := by
  intro element nodes c deeds
  have hnone : c.value? switchName = none := by decide +kernel
  obtain ⟨hmakes, hbelongs, hdecided⟩ := cases_decided ofDialects_dialect .standard nodes c
  have hcases : deeds.any (fun d => d.calls "case" && !decide (Outside d)) = true := by
    decide +kernel
  have hswitches : deeds.any (fun d => d.calls "switch" && (answer? d).isSome) = true := by
    decide +kernel
  refine ⟨hnone, ?_, ?_⟩
  · obtain ⟨d, hmem, hd⟩ := List.any_eq_true.mp hcases
    obtain ⟨hcase, hfinds⟩ := Bool.and_eq_true_iff.mp hd
    have hfinds : ¬ Outside d := by simpa using hfinds
    obtain ⟨v, _, _, _, _, later, -, -, -, hbelongs⟩ := hbelongs hnone d hmem hcase hfinds
    exact ⟨d, hmem, hcase, hfinds, v, later, hbelongs⟩
  obtain ⟨d, hmem, hd⟩ := List.any_eq_true.mp hswitches
  obtain ⟨hcall, hanswer⟩ := Bool.and_eq_true_iff.mp hd
  cases d with
  | expanded text => cases hcall
  | called p before result =>
    cases result with
    | error cause => cases hanswer
    | ok directive =>
      have hname : p.processor.name = "switch" := beq_iff_eq.mp hcall
      obtain ⟨v, front, later, hmade, hcalls⟩ := hmakes p before _ hname hmem
      obtain ⟨value, hvalue, -, hcases, -⟩ :=
        hdecided v p before directive front later hname hmade hcalls
      exact ⟨p, before, v, later, value, hmade, hvalue, hcases⟩

end Standard
end NaturalTemplate
