import NaturalTemplate.Proofs.Context.Within
import NaturalTemplate.Proofs.Processing.Calls

/-!
# How a visit goes on after a call

A call leaves the context to what comes after it in its visit: to the later calls for the element,
to the nodes inside the element, or in its place, and to the visits of its clones. All of this is
done within the scopes of that context, if the processors change no other scopes.
-/
namespace NaturalTemplate
open Markup

variable {ev : Evaluator} {entries pending : List Entry} {written : Set String} {c : Context}

/-! ## The calls for an element -/

section
variable {P : Context → Prop}

/-- Whether a call was made in a context of some kind. -/
def Deed.IsIn (P : Context → Prop) (d : Deed) : Prop :=
  ∀ p before result, d = .called p before result → P before.context

/-- A part of a run in contexts of some kind: its calls are made in such ones, and it leaves one. -/
structure RunsIn {α : Type} (P : Context → Prop) (r : Run)
    (result : EStateM.Result Failure Run α) : Prop where
  left : P (finalState result).context
  calls : Adds (Deed.IsIn P) r result

theorem RunsIn.bind {α β : Type} {x : Running α} {f : α → Running β} {r : Run}
    (hx : RunsIn P r (x r))
    (hf : ∀ a s, x r = .ok a s → P s.context → RunsIn P s (f a s)) :
    RunsIn P r ((x >>= f) r) := by
  cases hrun : x r with
  | error failure s =>
    rw [bind_of_eq_error hrun]
    rw [hrun] at hx
    exact ⟨hx.left, hx.calls⟩
  | ok a s =>
    rw [bind_of_eq_ok hrun]
    rw [hrun] at hx
    have hrest := hf a s hrun hx.left
    exact ⟨hrest.left, hx.calls.trans hrest.calls⟩

theorem runsIn_pure {α : Type} {a : α} {r : Run} (hr : P r.context) :
    RunsIn P r ((pure a : Running α) r) :=
  ⟨hr, .of_eq rfl⟩

variable (hP : ∀ c d, P c → c.Changed written d → P d)
include hP

theorem Entry.runsIn_call {p : Entry} (hp : p.processor.Writes written) (e : Element) {r : Run}
    (hr : P r.context) : RunsIn P r (p.call ev e r) := by
  have hchanged := hp (p.calledWith ev e) (p.workspace e r.context)
  have hcall (result : Except EngineError Directive) :
      Deed.IsIn P (.called p ⟨e, r.context⟩ result) := by
    rintro _ _ _ ⟨⟩
    exact hr
  rw [call_run]
  split
  all_goals
    next hrun =>
    rw [hrun] at hchanged
    exact ⟨hP _ _ hr hchanged, [_], rfl, List.forall_mem_singleton.mpr (hcall _)⟩

/-- What the changes of processors keep of a context lasts while an element is settled. -/
theorem runsIn_settle (hpending : ∀ p ∈ pending, p.processor.Writes written) (children : Bool)
    (e : Element) {r : Run} (hr : P r.context) :
    RunsIn P r (settle ev pending children e r) := by
  induction pending, children, e using settle.induct generalizing r with
  | case1 pending children e hnext =>
    rw [settle_of_next?_eq_none hnext]
    exact runsIn_pure hr
  | case2 pending children e p others hnext ihproceed ihskip =>
    obtain ⟨hmem, hsub⟩ := Entry.mem_of_next? hnext
    have hothers := fun q hq => hpending q (hsub hq)
    rw [settle_of_next? hnext]
    refine (Entry.runsIn_call hP (hpending p hmem) e hr).bind fun answer s _ hs => ?_
    obtain ⟨directive, e'⟩ := answer
    cases directive with
    | proceed => exact ihproceed e' hothers hs
    | skipChildren => exact ihskip e' hothers hs
    | _ => exact runsIn_pure hs

/-- The calls of a visit are made in contexts of the kind that it begins with. -/
theorem Visiting.Calls.isIn {v : Visiting} {calls : List Deed} (hcalls : v.Calls ev calls)
    (hpending : ∀ p ∈ v.pending, p.processor.Writes written) (hstart : P v.start.context.push) :
    P (finalState (v.settled ev)).context ∧ ∀ d ∈ calls, d.IsIn P := by
  obtain ⟨hleft, new, hnew, hin⟩ : RunsIn P _ (v.settled ev) :=
    runsIn_settle hP hpending true v.element hstart
  obtain rfl : calls.reverse = new := List.append_cancel_right (hcalls.deeds.symm.trans hnew)
  exact ⟨hleft, fun d hd => hin d (List.mem_reverse.mpr hd)⟩

end

/-- The first call for an element is that of the next processor, and if there are more, settling the
element goes on with the others. -/
theorem exists_of_deeds_settle {children : Bool} {e : Element} {r : Run} {d : Deed}
    {rest : List Deed}
    (h : (finalState (settle ev pending children e r)).deeds = (d :: rest).reverse ++ r.deeds) :
    ∃ q others, Entry.next? e pending = some (q, others) ∧
      (∃ result, d = .called q ⟨e, r.context⟩ result) ∧
      (rest ≠ [] → ∃ children' e' s, s.deeds = d :: r.deeds ∧
        settle ev pending children e r = settle ev others children' e' s) := by
  rw [List.reverse_cons, List.append_assoc, List.singleton_append] at h
  have hfirst {new : Deed} {all : List Deed} (hall : all = rest.reverse ++ d :: r.deeds)
      (hnew : new :: r.deeds <:+ all) : d = new ∧ (new :: r.deeds = all → rest = []) := by
    obtain ⟨front, rfl⟩ := hnew
    obtain ⟨rfl, hd⟩ := List.append_inj' hall rfl
    refine ⟨(List.cons.inj hd).1.symm, fun hend => ?_⟩
    simpa using hend
  cases hnext : Entry.next? e pending with
  | none =>
    rw [settle_of_next?_eq_none hnext] at h
    have hlength := congrArg List.length (show r.deeds = _ from h)
    simp only [List.length_append, List.length_reverse, List.length_cons] at hlength
    omega
  | some found =>
    obtain ⟨q, others⟩ := found
    refine ⟨q, others, rfl, ?_⟩
    have hcall := @Entry.call_run ev q e r
    rw [settle_of_next? hnext] at h ⊢
    cases hrun : q.processor.run (q.calledWith ev e) (q.workspace e r.context) with
    | error cause w =>
      rw [hrun] at hcall
      rw [bind_of_eq_error hcall] at h
      obtain ⟨rfl, hrest⟩ := hfirst h List.suffix_rfl
      exact ⟨⟨_, rfl⟩, fun hne => absurd (hrest rfl) hne⟩
    | ok directive w =>
      rw [hrun] at hcall
      rw [bind_of_eq_ok hcall] at h ⊢
      have hsuffix : _ :: r.deeds <:+ _ :=
        @suffix_answered ev others children e.location (directive, w.element)
          ⟨w.context, .called q ⟨e, r.context⟩ (.ok directive) :: r.deeds⟩
      obtain ⟨rfl, hrest⟩ := hfirst h hsuffix
      refine ⟨⟨_, rfl⟩, fun hne => ?_⟩
      cases directive with
      | proceed => exact ⟨children, w.element, _, rfl, rfl⟩
      | skipChildren => exact ⟨false, w.element, _, rfl, rfl⟩
      | _ => exact absurd (hrest rfl) hne

/-- Where a call is made for an element, its processor is the next one of those that are pending
then, and what is made of the element is what comes of that call and of those after it. -/
theorem exists_settle_at_call {children : Bool} {e : Element} {r : Run} {p : Entry}
    {before : Workspace} {result : Except EngineError Directive} {earlier later : List Deed}
    (h : (finalState (settle ev pending children e r)).deeds =
      (earlier ++ .called p before result :: later).reverse ++ r.deeds) :
    ∃ pending' others children' s, pending' ⊆ pending ∧
      Entry.next? before.element pending' = some (p, others) ∧ s.context = before.context ∧
      s.deeds = earlier.reverse ++ r.deeds ∧
      settle ev pending children e r = settle ev pending' children' before.element s := by
  induction earlier generalizing pending children e r with
  | nil =>
    obtain ⟨q, others, hnext, ⟨_, ⟨⟩⟩, -⟩ := exists_of_deeds_settle h
    exact ⟨pending, others, children, r, List.Subset.refl _, hnext, rfl, rfl, rfl⟩
  | cons d earlier ih =>
    obtain ⟨q, others, hnext, -, hmore⟩ := exists_of_deeds_settle h
    obtain ⟨children', e', s, hs, hsettle⟩ := hmore (by simp)
    rw [List.cons_append, List.reverse_cons, List.append_assoc, List.singleton_append, ← hs,
      hsettle] at h
    obtain ⟨pending', others', children'', t, hsub, hnext', hcontext, hdeeds, hsettle'⟩ := ih h
    refine ⟨pending', others', children'', t,
      List.Subset.trans hsub (Entry.mem_of_next? hnext).2, hnext', hcontext, ?_,
      hsettle.trans hsettle'⟩
    rw [hdeeds, hs, List.reverse_cons, List.append_assoc, List.singleton_append]

/-! ## The nodes inside an element -/

namespace Visiting

/-- A context in which a visit goes on, where some calls for its element are still to be made: that
of one of these calls, or the one that a node inside the element is processed in, or in its place,
or one in which a visit goes on that is made then, for a clone of the element or an element inside
it. -/
inductive GoesOnIn (ev : Evaluator) (entries : List Entry) :
    Visiting → List Deed → Context → Prop where
  | call {v : Visiting} {calls : List Deed} {p : Entry} {before : Workspace}
    {result : Except EngineError Directive} (hcall : .called p before result ∈ calls) :
    GoesOnIn ev entries v calls before.context
  | node {v : Visiting} {calls : List Deed} {fuel : ℕ} {outcome : Outcome} {s t : Run} {n : Node}
    {first before after : List Node} (hfuel : v.fuel = fuel + 1)
    (hsettled : v.settled ev = .ok outcome s) (hnodes : outcome.inside = before ++ n :: after)
    (hbefore : emitAll ev (visit ev entries fuel entries) before s = .ok ⟨first, none⟩ t) :
    GoesOnIn ev entries v calls t.context
  | visit {v w : Visiting} {calls own : List Deed} {d : Context}
    (hmade : Clones ev entries v w ∨ Inside ev entries v w) (hown : w.Calls ev own)
    (h : GoesOnIn ev entries w own d) : GoesOnIn ev entries v calls d

variable {v w : Visiting} {calls : List Deed} {d : Context}

/-- What nodes leave that are processed within the scopes of a context. -/
theorem isWithin_emitAll (hentries : ∀ p ∈ entries, p.processor.Writes written) {fuel : ℕ}
    {nodes : List Node} {emitted : Emitted} {s t : Run} (hs : c.IsWithin written s.context)
    (h : emitAll ev (visit ev entries fuel entries) nodes s = .ok emitted t) :
    c.IsWithin written t.context := by
  have hkeeps : Keeps Run.context (Context.Frame written)
      (emitAll ev (visit ev entries fuel entries) nodes) :=
    keeps_emitAll (fun e => keeps_visit hentries fuel hentries e) nodes
  have hframe := hkeeps s
  rw [h] at hframe
  exact hs.frame hframe

/-- A visit that is made for a clone of an element, or for an element inside it, begins within the
scopes that the visit of the element is in. -/
theorem isWithin_start (hentries : ∀ p ∈ entries, p.processor.Writes written)
    (hpending : ∀ p ∈ v.pending, p.processor.Writes written)
    (hleft : c.IsWithin written (finalState (v.settled ev)).context)
    (h : Clones ev entries v w ∨ Inside ev entries v w) :
    c.IsWithin written w.start.context ∧ ∀ p ∈ w.pending, p.processor.Writes written := by
  obtain h | h := h
  · obtain @⟨s, t, first, done, rest, item, binding, status, hfuel, hsettled, hdone, hstart⟩ := h
    rw [hsettled] at hleft
    have hothers : ∀ p ∈ w.pending, p.processor.Writes written := fun p hp =>
      hpending p (pending_of_settle hsettled hp)
    have hbody : Keeps Run.context (Context.Frame written)
        (visit ev entries w.fuel w.pending w.element) :=
      keeps_visit hentries w.fuel hothers w.element
    have hitems := keeps_emitItems hbody binding status (done ++ item :: rest).length 0 done s
    rw [hdone] at hitems
    rw [hstart]
    exact ⟨((hleft.frame hitems).push.bindInnermost _ _).bindInnermost _ _, hothers⟩
  · obtain @⟨outcome, s, first, before, after, hfuel, hsame, hsettled, hnodes, hbefore⟩ := h
    rw [hsettled] at hleft
    exact ⟨isWithin_emitAll hentries hleft hbefore, hsame ▸ hentries⟩

/-- A visit that has come within the scopes of a context goes on there. -/
theorem GoesOnIn.isWithin (h : GoesOnIn ev entries v calls d)
    (hentries : ∀ p ∈ entries, p.processor.Writes written)
    (hpending : ∀ p ∈ v.pending, p.processor.Writes written)
    (hcalls : ∀ d ∈ calls, d.IsIn (c.IsWithin written))
    (hleft : c.IsWithin written (finalState (v.settled ev)).context) : c.IsWithin written d := by
  induction h with
  | call hcall => exact hcalls _ hcall _ _ _ rfl
  | node hfuel hsettled hnodes hbefore =>
    rw [hsettled] at hleft
    exact isWithin_emitAll hentries hleft hbefore
  | @visit v w calls own d hmade hown _ ih =>
    obtain ⟨hstart, hothers⟩ := isWithin_start hentries hpending hleft hmade
    obtain ⟨hleft', hcalls'⟩ := hown.isIn (fun _ _ => .changed) hothers hstart.push
    exact ih hothers hcalls' hleft'

/-! ## After a call -/

section
variable {p : Entry} {before left : Workspace} {result : Except EngineError Directive}
  {earlier later : List Deed}

/-- Every call of a visit is made in the scope of the visit. -/
theorem Calls.outerFrame (hcalls : v.Calls ev calls)
    (hpending : ∀ p ∈ v.pending, p.processor.Writes written)
    (hmem : .called p before result ∈ calls) :
    0 < before.context.depth ∧ v.start.context.Frame written before.context.pop := by
  have hkept (d e : Context) (h : v.start.context.push.OuterFrame written d)
      (hchanged : d.Changed written e) : v.start.context.push.OuterFrame written e :=
    h.trans hchanged.outerFrame
  obtain ⟨-, hin⟩ := hcalls.isIn hkept hpending (Context.Frame.refl _).outer
  exact hin _ hmem _ _ _ rfl (Nat.succ_pos _)

/-- After a call that lets the element go on, all that follows is done within the scopes that the
call leaves. -/
theorem Calls.proceeds (hcalls : v.Calls ev (earlier ++ .called p before result :: later))
    (hentries : ∀ p ∈ entries, p.processor.Writes written)
    (hpending : ∀ p ∈ v.pending, p.processor.Writes written)
    (hrun : p.processor.run (p.calledWith ev before.element)
      (p.workspace before.element before.context) = .ok .proceed left) :
    result = .ok .proceed ∧
      ∀ d, GoesOnIn ev entries v later d → left.context.IsWithin written d := by
  obtain ⟨hdepth, -⟩ :=
    hcalls.outerFrame hpending (List.mem_append_right _ List.mem_cons_self)
  obtain ⟨pending', others, children, s, hsub, hnext, hcontext, hdeeds, hsettle⟩ :=
    exists_settle_at_call hcalls.deeds
  obtain ⟨hmem, hothers⟩ := Entry.mem_of_next? hnext
  have hself : left.context.IsWithin written left.context := by
    have hbefore : before.context.IsWithin written before.context :=
      ⟨_, Context.within_self hdepth⟩
    have hchanged := hpending p (hsub hmem) (p.calledWith ev before.element)
      (p.workspace before.element before.context)
    rw [hrun] at hchanged
    exact ⟨_, Context.within_self (hbefore.changed hchanged).depth_pos⟩
  have hcall := @Entry.call_run ev p before.element s
  rw [hcontext, hrun] at hcall
  rw [settle_of_next? hnext, bind_of_eq_ok hcall] at hsettle
  have hrest : RunsIn (left.context.IsWithin written)
      ⟨left.context, .called p before (.ok .proceed) :: s.deeds⟩ (v.settled ev) := by
    rw [settled, hsettle]
    exact runsIn_settle (fun _ _ => .changed) (fun q hq => hpending q (hsub (hothers hq))) children
      left.element hself
  obtain ⟨hleft, new, hnew, hin⟩ := hrest
  have hall := hcalls.deeds.symm.trans hnew
  rw [List.reverse_append, List.reverse_cons, List.append_assoc, List.append_assoc, hdeeds] at hall
  obtain ⟨rfl, hhere⟩ := List.append_inj' hall rfl
  cases (List.cons.inj hhere).1
  refine ⟨rfl, fun d hd => hd.isWithin hentries hpending (fun d hd => ?_) hleft⟩
  exact hin d (List.mem_reverse.mpr hd)

/-- A call that fails is the last one of its visit, which fails with the same error. -/
theorem Calls.fails (hcalls : v.Calls ev (earlier ++ .called p before result :: later))
    {cause : EngineError}
    (hrun : p.processor.run (p.calledWith ev before.element)
      (p.workspace before.element before.context) = .error cause left) :
    let blamed := cause.attributed p.id before.element.location
    result = .error blamed ∧ later = [] ∧ ∃ s, v.emitted ev entries = .error (.error blamed) s ∧
      s.context = left.context.pop := by
  obtain ⟨pending', others, children, s, hsub, hnext, hcontext, hdeeds, hsettle⟩ :=
    exists_settle_at_call hcalls.deeds
  have hcall := @Entry.call_run ev p before.element s
  rw [hcontext, hrun] at hcall
  rw [settle_of_next? hnext, bind_of_eq_error hcall] at hsettle
  have hall := hcalls.deeds.symm.trans (congrArg (fun r => (finalState r).deeds) hsettle)
  rw [List.reverse_append, List.reverse_cons, List.append_assoc, List.append_assoc, ← hdeeds]
    at hall
  obtain ⟨hlater, hhere⟩ := List.append_inj' (hall.trans (List.nil_append _).symm) rfl
  cases (List.cons.inj hhere).1
  obtain ⟨fuel, hfuel⟩ := Nat.exists_eq_add_one_of_ne_zero hcalls.fuel
  have hemitted := congrFun (@visit_succ ev entries fuel v.pending v.element) v.start
  rw [Running.inScope_run, bind_of_eq_error hsettle, ← hfuel] at hemitted
  exact ⟨rfl, List.reverse_eq_nil_iff.mp hlater, _, hemitted, rfl⟩

end

end Visiting
end NaturalTemplate
