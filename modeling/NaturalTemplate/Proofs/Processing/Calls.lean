import Mathlib.Order.Bounds.Defs
import Mathlib.Data.List.Perm.Subperm
import NaturalTemplate.Proofs.Processing.Made

/-!
# The calls of a visit

In a visit the processors of an element are called in turn: always the first one that matches the
element as it stands and was not called before. Where an element is repeated, the visit goes on for
each of the items with the processors that were not called yet. So no processor is called twice,
and where a visit ends by itself, none is left that matches.
-/
namespace NaturalTemplate
open Markup

variable {ev : Evaluator} {entries : List Entry}

/-! ## Processors by their places -/

/-- Whether the processor at a place matches an element as it stands, and was not called before. -/
structure Entry.Waits (entries : List Entry) (executed : List ℕ) (e : Element) (i : ℕ) : Prop where
  unexecuted : i ∉ executed
  matched : ∃ p ∈ entries[i]?, p.target.matches? e = true

/-- Whether processors are called for an element after this answer, if only for the items of a
repetition. -/
def Directive.goesOn : Directive → Bool
  | proceed | skipChildren | iterate .. => true
  | _ => false

/-- What a processor answers, as it is recorded. -/
def Entry.answer (ev : Evaluator) (p : Entry) (e : Element) (c : Context) :
    Except EngineError Directive :=
  match p.processor.run (p.calledWith ev e) (p.workspace e c) with
  | .ok directive _ => .ok directive
  | .error cause _ => .error (cause.attributed p.id e.location)

/-- Calls for an element, the oldest first, after the processors at some places were called: each of
the first processor that waits, for the element as the one before it left it. Behind the calls stand
the places of all processors that were called, and the element, if more calls may follow. -/
inductive InTurn (ev : Evaluator) (entries : List Entry) :
    List ℕ → Element → List Deed → List ℕ → Option Element → Prop where
  | rest {executed : List ℕ} {e : Element} : InTurn ev entries executed e [] executed (some e)
  | goesOn {executed executed' : List ℕ} {e : Element} {left : Option Element} {i : ℕ} {p : Entry}
    {c : Context} {directive : Directive} {w : Workspace} {calls : List Deed}
    (hleast : IsLeast {i | Entry.Waits entries executed e i} i) (hp : entries[i]? = some p)
    (hrun : p.processor.run (p.calledWith ev e) (p.workspace e c) = .ok directive w)
    (hgoes : directive.goesOn = true)
    (h : InTurn ev entries (executed ++ [i]) w.element calls executed' left) :
    InTurn ev entries executed e (.called p ⟨e, c⟩ (.ok directive) :: calls) executed' left
  | stops {executed : List ℕ} {e : Element} {i : ℕ} {p : Entry} {c : Context}
    (hleast : IsLeast {i | Entry.Waits entries executed e i} i) (hp : entries[i]? = some p)
    (hstops : ∀ directive, p.answer ev e c = .ok directive → directive.goesOn = false) :
    InTurn ev entries executed e [.called p ⟨e, c⟩ (p.answer ev e c)] (executed ++ [i]) none

namespace InTurn

variable {executed executed' executed'' : List ℕ} {e e' : Element} {left : Option Element}
  {calls later : List Deed}

theorem append (h : InTurn ev entries executed e calls executed' (some e'))
    (hlater : InTurn ev entries executed' e' later executed'' left) :
    InTurn ev entries executed e (calls ++ later) executed'' left := by
  generalize hleft : some e' = left' at h
  induction h with
  | rest =>
    cases hleft
    exact hlater
  | goesOn hleast hp hrun hgoes _ ih => exact .goesOn hleast hp hrun hgoes (ih hlater hleft)
  | stops => cases hleft

/-- Every call takes a place that was not taken before. -/
theorem exists_places (h : InTurn ev entries executed e calls executed' left) :
    ∃ new, executed' = executed ++ new ∧ new.length = calls.length ∧ new.Nodup ∧
      ∀ i ∈ new, i ∉ executed ∧ i < entries.length := by
  induction h with
  | rest => exact ⟨[], by simp⟩
  | @goesOn _ _ _ _ i _ _ _ _ _ hleast hp _ _ _ ih =>
    obtain ⟨new, rfl, hlength, hnodup, hnew⟩ := ih
    have hi := (List.getElem?_eq_some_iff.mp hp).1
    refine ⟨i :: new, by simp, by simp [hlength], ?_, ?_⟩
    · refine List.nodup_cons.mpr ⟨fun hmem => (hnew i hmem).1 ?_, hnodup⟩
      exact List.mem_append_right _ List.mem_cons_self
    · refine List.forall_mem_cons.mpr ⟨⟨hleast.1.unexecuted, hi⟩, fun j hj => ?_⟩
      exact ⟨fun hmem => (hnew j hj).1 (List.mem_append_left _ hmem), (hnew j hj).2⟩
  | @stops _ _ i _ _ hleast hp =>
    have hi := (List.getElem?_eq_some_iff.mp hp).1
    exact ⟨[i], rfl, rfl, by simp, by simpa using ⟨hleast.1.unexecuted, hi⟩⟩

/-- No more calls are made than there are processors. -/
theorem length_le (h : InTurn ev entries [] e calls executed' left) :
    executed'.Nodup ∧ calls.length = executed'.length ∧ calls.length ≤ entries.length := by
  obtain ⟨new, hnew, hlength, hnodup, hplaces⟩ := h.exists_places
  obtain rfl : executed' = new := hnew
  have hsub : executed' ⊆ List.range entries.length := fun i hi =>
    List.mem_range.mpr (hplaces i hi).2
  have hle := (hnodup.subperm hsub).length_le
  rw [List.length_range] at hle
  exact ⟨hnodup, hlength.symm, hlength ▸ hle⟩

end InTurn

/-! ## Processors that are pending -/

/-- The processors whose places are not among those of the executed ones. -/
def Entry.except (entries : List Entry) (executed : List ℕ) : List Entry :=
  (entries.zipIdx.filter fun x => x.2 ∉ executed).map Prod.fst

@[simp] theorem Entry.except_nil (entries : List Entry) : Entry.except entries [] = entries := by
  simp [Entry.except]

theorem Entry.pairwise_zipIdx (entries : List Entry) :
    entries.zipIdx.Pairwise fun x y => x.2 < y.2 := by
  have hrange : (entries.zipIdx.map Prod.snd).Pairwise (· < ·) := by
    rw [List.zipIdx_map_snd]
    exact List.pairwise_lt_range'
  exact List.pairwise_map.mp hrange

/-- Taking out one of the processors that are pending is taking out its place. -/
theorem Entry.except_eq {executed : List ℕ} {front back : List Entry} {p : Entry}
    (h : Entry.except entries executed = front ++ p :: back) :
    ∃ i, entries[i]? = some p ∧ i ∉ executed ∧
      (∀ j ∉ executed, ∀ q, entries[j]? = some q → j < i → q ∈ front) ∧
      front ++ back = Entry.except entries (executed ++ [i]) := by
  obtain ⟨front', back', hsplit, rfl, hback⟩ := List.map_eq_append_iff.mp h
  obtain ⟨⟨p, i⟩, back', rfl, rfl, rfl⟩ := List.map_eq_cons_iff.mp hback
  have hpairwise := (Entry.pairwise_zipIdx entries).filter fun x => x.2 ∉ executed
  have hmem : ∀ q j, (q, j) ∈ front' ++ (p, i) :: back' ↔ entries[j]? = some q ∧ j ∉ executed := by
    intro q j
    rw [← hsplit, List.mem_filter, List.mk_mem_zipIdx_iff_getElem?, decide_eq_true_iff]
  rw [hsplit, List.pairwise_append, List.pairwise_cons] at hpairwise
  obtain ⟨-, ⟨hlater, -⟩, hearlier⟩ := hpairwise
  obtain ⟨hp, hi⟩ := (hmem p i).mp (List.mem_append_right _ List.mem_cons_self)
  refine ⟨i, hp, hi, fun j hj q hq hlt => ?_, ?_⟩
  · obtain hfront | hrest := List.mem_append.mp ((hmem q j).mpr ⟨hq, hj⟩)
    · exact List.mem_map_of_mem hfront
    · obtain heq | hback := List.mem_cons.mp hrest
      · cases heq
        exact absurd hlt (lt_irrefl i)
      · exact absurd hlt (hlater _ hback).asymm
  · have hfront : (front'.filter fun x => x.2 ≠ i) = front' :=
      List.filter_eq_self.mpr fun x hx => by simpa using (hearlier x hx _ List.mem_cons_self).ne
    have hback : (back'.filter fun x => x.2 ≠ i) = back' :=
      List.filter_eq_self.mpr fun x hx => by simpa using (hlater x hx).ne'
    have hrest : (entries.zipIdx.filter fun x => x.2 ∉ executed ++ [i]) = front' ++ back' := by
      have hsplit' := congrArg (List.filter fun x => x.2 ≠ i) hsplit
      rw [List.filter_filter, List.filter_append, List.filter_cons_of_neg (by simp), hfront,
        hback] at hsplit'
      rw [← hsplit']
      exact List.filter_congr fun x _ => by simp [and_comm]
    rw [Entry.except, hrest, List.map_append]

/-- The processor that is found among those that are pending is the first one that waits. -/
theorem Entry.isLeast_of_next? {executed : List ℕ} {e : Element} {p : Entry} {others : List Entry}
    (h : Entry.next? e (Entry.except entries executed) = some (p, others)) :
    ∃ i, IsLeast {i | Entry.Waits entries executed e i} i ∧ entries[i]? = some p ∧
      others = Entry.except entries (executed ++ [i]) := by
  obtain ⟨front, back, hpending, rfl, hfront⟩ := Entry.exists_of_next? h
  obtain ⟨i, hp, hi, hearlier, hothers⟩ := Entry.except_eq hpending
  refine ⟨i, ⟨⟨hi, p, hp, Entry.matches?_of_next? h⟩, ?_⟩, hp, hothers⟩
  rintro j ⟨hj, q, hq, hmatch⟩
  by_contra hlt
  have hnot := hfront q (hearlier j hj q hq (not_le.mp hlt))
  simp [hmatch] at hnot

theorem Entry.not_waits_of_next?_eq_none {executed : List ℕ} {e : Element}
    (h : Entry.next? e (Entry.except entries executed) = none) (i : ℕ) :
    ¬ Entry.Waits entries executed e i := by
  rintro ⟨hi, p, hp, hmatch⟩
  have hmem : p ∈ Entry.except entries executed := by
    refine List.mem_map.mpr ⟨(p, i), List.mem_filter.mpr ⟨?_, by simpa using hi⟩, rfl⟩
    exact List.mk_mem_zipIdx_iff_getElem?.mpr hp
  have hnot := matches?_of_next?_eq_none h p hmem
  simp [hmatch] at hnot

/-! ## Settling an element -/

/-- What became of an element: whether it stays although no processor asked for its body to be
removed. Then it is the one that is left, and no processor waits. -/
structure Settles (ev : Evaluator) (entries : List Entry) (executed : List ℕ) (e : Element)
    (result : EStateM.Result Failure Run Outcome) (calls : List Deed) (executed' : List ℕ)
    (left : Option Element) : Prop where
  inTurn : InTurn ev entries executed e calls executed' left
  keep : ∀ e' children s, result = .ok (.keep e' children) s →
    (∀ p before, .called p before (.ok .removeBody) ∉ calls) →
    left = some e' ∧ ∀ i, ¬ Entry.Waits entries executed' e' i
  iterate : ∀ e' pending items binding status s,
    result = .ok (.iterate e' pending items binding status) s →
    left = some e' ∧ pending = Entry.except entries executed'

theorem exists_settles (ev : Evaluator) (entries : List Entry) (executed : List ℕ)
    (children : Bool) (e : Element) (r : Run) :
    ∃ calls executed' left,
      (finalState (settle ev (Entry.except entries executed) children e r)).deeds =
        calls.reverse ++ r.deeds ∧
      Settles ev entries executed e (settle ev (Entry.except entries executed) children e r) calls
        executed' left := by
  generalize hpending : Entry.except entries executed = pending
  induction pending, children, e using settle.induct generalizing executed r with
  | case1 pending children e hnext =>
    subst hpending
    rw [settle_of_next?_eq_none hnext]
    refine ⟨[], executed, some e, rfl, .rest, ?_, ?_⟩
    · intro e' children' s h _
      cases h
      exact ⟨rfl, Entry.not_waits_of_next?_eq_none hnext⟩
    · intro e' pending items binding status s h
      cases h
  | case2 pending children e p others hnext ihproceed ihskip =>
    subst hpending
    obtain ⟨i, hleast, hp, hothers⟩ := Entry.isLeast_of_next? hnext
    rw [settle_of_next? hnext]
    show ∃ calls executed' left, (finalState (EStateM.bind (p.call ev e) _ r)).deeds = _ ∧
      Settles ev entries executed e (EStateM.bind (p.call ev e) _ r) calls executed' left
    unfold EStateM.bind
    rw [Entry.call_run]
    have hstops (h : ∀ directive, p.answer ev e r.context = .ok directive →
        directive.goesOn = false) := InTurn.stops hleast hp h
    unfold Entry.answer at hstops
    cases hrun : p.processor.run (p.calledWith ev e) (p.workspace e r.context) with
    | error cause w =>
      rw [hrun] at hstops
      refine ⟨_, _, _, rfl, hstops ?_, ?_, ?_⟩
      · intro directive h
        cases h
      · intro e' children' s h
        cases h
      · intro e' pending items binding status s h
        cases h
    | ok directive w =>
      rw [hrun] at hstops
      -- The calls that follow an answer after which more can follow.
      have hgoes {again : Bool} (hdirective : directive.goesOn = true) {s : Run}
          (hdeeds : s.deeds = .called p ⟨e, r.context⟩ (.ok directive) :: r.deeds)
          (ih : ∃ calls executed' left,
            (finalState (settle ev others again w.element s)).deeds = calls.reverse ++ s.deeds ∧
            Settles ev entries (executed ++ [i]) w.element (settle ev others again w.element s)
              calls executed' left) :
          ∃ calls executed' left,
            (finalState (settle ev others again w.element s)).deeds = calls.reverse ++ r.deeds ∧
            Settles ev entries executed e (settle ev others again w.element s) calls executed'
              left := by
        obtain ⟨calls, executed', left, hcalls, hturn, hkeep, hiterate⟩ := ih
        refine ⟨_ :: calls, executed', left, ?_, .goesOn hleast hp hrun hdirective hturn, ?_,
          hiterate⟩
        · rw [hcalls, hdeeds, List.reverse_cons, List.append_assoc]
          rfl
        · exact fun e' children' s h hbody => hkeep e' children' s h fun q before hmem =>
            hbody q before (List.mem_cons_of_mem _ hmem)
      cases directive with
      | proceed => exact hgoes rfl rfl (ihproceed w.element _ _ hothers.symm)
      | skipChildren => exact hgoes rfl rfl (ihskip w.element _ _ hothers.symm)
      | iterate items binding status =>
        refine ⟨_, _, _, rfl, .goesOn hleast hp hrun rfl .rest, ?_, ?_⟩
        · intro e' children' s h
          cases h
        · intro e' pending items' binding' status' s h
          cases h
          exact ⟨rfl, hothers⟩
      | removeBody =>
        refine ⟨_, _, _, rfl, hstops ?_, ?_, ?_⟩
        · rintro _ ⟨⟩
          rfl
        · exact fun e' children' s h hbody => absurd List.mem_cons_self (hbody p _)
        · intro e' pending items binding status s h
          cases h
      | removeNode | replace | halt =>
        refine ⟨_, _, _, rfl, hstops ?_, ?_, ?_⟩
        · rintro _ ⟨⟩
          rfl
        · intro e' children' s h
          cases h
        · intro e' pending items binding status s h
          cases h

/-! ## Visits of one element -/

namespace Visiting

/-- The calls for an element, the oldest first, from a visit on to one that is made for it or for a
clone of it: a clone goes on with the visit that it was cloned in. -/
inductive Line (ev : Evaluator) (entries : List Entry) :
    Visiting → List Deed → Visiting → Prop where
  | last {v : Visiting} {calls : List Deed} (h : v.Calls ev calls) : Line ev entries v calls v
  | clone {v w u : Visiting} {calls later : List Deed} (h : v.Calls ev calls)
    (hclone : Clones ev entries v w) (hline : Line ev entries w later u) :
    Line ev entries v (calls ++ later) u

theorem Calls.unique {v : Visiting} {calls calls' : List Deed} (h : v.Calls ev calls)
    (h' : v.Calls ev calls') : calls = calls' :=
  List.reverse_injective (List.append_cancel_right (h.deeds.symm.trans h'.deeds))

theorem Line.clone_last {v w u : Visiting} {calls later : List Deed}
    (h : Line ev entries v calls w) (hclone : Clones ev entries w u) (hlater : u.Calls ev later) :
    Line ev entries v (calls ++ later) u := by
  induction h with
  | last hcalls => exact .clone hcalls hclone (.last hlater)
  | clone hcalls hfirst _ ih =>
    rw [List.append_assoc]
    exact .clone hcalls hfirst (ih hclone)

/-- Every visit goes on with one that all processors are called in. -/
theorem exists_line {v u : Visiting} (hpending : v.pending = entries)
    (h : Makes ev entries v u) {calls : List Deed} (hcalls : u.Calls ev calls) :
    ∃ w earlier, Makes ev entries v w ∧ w.pending = entries ∧
      Line ev entries w (earlier ++ calls) u := by
  induction h generalizing calls with
  | refl => exact ⟨v, [], .refl, hpending, .last hcalls⟩
  | @tail w u hmakes hstep ih =>
    have hmade := hmakes.tail hstep
    obtain hclone | hinside := hstep
    · have hfuel : w.fuel ≠ 0 := by
        obtain ⟨hfuel, -, -, -⟩ := hclone
        omega
      obtain ⟨own, hown⟩ := exists_calls ev hfuel
      obtain ⟨x, earlier, hx, hfresh, hline⟩ := ih hown
      exact ⟨x, earlier ++ own, hx, hfresh, hline.clone_last hclone hcalls⟩
    · obtain ⟨-, hfresh, -, -, -⟩ := hinside
      exact ⟨u, [], hmade, hfresh, .last hcalls⟩

/-- The calls of a visit are made in turn, and none is left to make if the element stays. -/
theorem Line.inTurn {v u : Visiting} {calls : List Deed} (h : Line ev entries v calls u)
    {executed : List ℕ} (hpending : v.pending = Entry.except entries executed) :
    ∃ executed' left, InTurn ev entries executed v.element calls executed' left ∧
      ∀ e' children s, u.settled ev = .ok (.keep e' children) s →
        (∀ p before, .called p before (.ok .removeBody) ∉ calls) →
        ∀ i, ¬ Entry.Waits entries executed' e' i := by
  have hsettles {v : Visiting} {executed : List ℕ} {calls : List Deed} (h : v.Calls ev calls)
      (hpending : v.pending = Entry.except entries executed) :
      ∃ executed' left,
        Settles ev entries executed v.element (v.settled ev) calls executed' left := by
    obtain ⟨calls', executed', left, hdeeds, hsettles⟩ := exists_settles ev entries executed true
      v.element { v.start with context := v.start.context.push }
    rw [← hpending] at hdeeds hsettles
    obtain rfl := h.unique ⟨h.fuel, hdeeds⟩
    exact ⟨executed', left, hsettles⟩
  induction h generalizing executed with
  | last h =>
    obtain ⟨executed', left, hturn, hkeep, -⟩ := hsettles h hpending
    exact ⟨executed', left, hturn, fun e' children s hsettled hbody =>
      (hkeep e' children s hsettled hbody).2⟩
  | clone h hclone _ ih =>
    obtain ⟨executed', left, hturn, -, hiterate⟩ := hsettles h hpending
    obtain ⟨-, hsettled, -, -⟩ := hclone
    obtain ⟨rfl, hrest⟩ := hiterate _ _ _ _ _ _ hsettled
    obtain ⟨executed'', left', hlater, hkeep⟩ := ih hrest
    refine ⟨executed'', left', hturn.append hlater, fun e' children s hsettled hbody => ?_⟩
    exact hkeep e' children s hsettled fun p before hmem =>
      hbody p before (List.mem_append_right _ hmem)

end Visiting

/-! ## The record -/

namespace Running

theorem suffix_bind {α β : Type} {x : Running α} {f : α → Running β} {r : Run}
    (hf : ∀ a s, x r = .ok a s → s.deeds <:+ (finalState (f a s)).deeds) :
    (finalState (x r)).deeds <:+ (finalState ((x >>= f) r)).deeds := by
  show _ <:+ (finalState (EStateM.bind x f r)).deeds
  unfold EStateM.bind
  cases hx : x r with
  | error failure s => exact List.suffix_rfl
  | ok a s => exact hf a s hx

theorem suffix_andThen {x y : Running Emitted} {r : Run}
    (hy : ∀ s, s.deeds <:+ (finalState (y s)).deeds) :
    (finalState (x r)).deeds <:+ (finalState (andThen x y r)).deeds := by
  refine suffix_bind fun first s _ => ?_
  split
  · exact List.suffix_rfl
  · exact (hy s).trans (suffix_bind fun _ _ _ => List.suffix_rfl)

theorem deeds_of_andThen {x y : Running Emitted} {first : List Node} {r s : Run}
    (h : x r = .ok ⟨first, none⟩ s) :
    (finalState (andThen x y r)).deeds = (finalState (y s)).deeds := by
  rw [andThen_of_eq_ok h]
  cases y s <;> rfl

theorem deeds_inScope {α : Type} (x : Running α) (r : Run) :
    (finalState (inScope x r)).deeds =
      (finalState (x { r with context := r.context.push })).deeds := by
  rw [inScope_run]
  cases x { r with context := r.context.push } <;> rfl

theorem deeds_around (e : Element) (x : Running Emitted) (r : Run) :
    (finalState (around e x r)).deeds = (finalState (x r)).deeds := by
  rw [around_run]
  cases x r <;> rfl

end Running

section
variable {body : Running Emitted} {binding status : String} {size index : ℕ}

theorem suffix_of_emitItems (hbody : ∀ r, r.deeds <:+ (finalState (body r)).deeds)
    (items : List Value) (r : Run) :
    r.deeds <:+ (finalState (emitItems body binding status size index items r)).deeds :=
  (adds_emitItems fun _ _ _ _ _ _ _ => .of_suffix (hbody _)).suffix

/-- What is recorded for one item of a repetition stays recorded. -/
theorem suffix_of_item (hbody : ∀ r, r.deeds <:+ (finalState (body r)).deeds)
    {done : List Value} (item : Value) (rest : List Value) {first : List Node} {r s : Run}
    (hdone : emitItems body binding status size index done r = .ok ⟨first, none⟩ s) :
    let t : Run := { s with
      context := s.context.push.bindItem binding status ⟨index + done.length, size, item⟩ }
    (finalState (body t)).deeds <:+
      (finalState (emitItems body binding status size index (done ++ item :: rest) r)).deeds := by
  induction done generalizing index r first with
  | nil =>
    cases hdone
    rw [List.nil_append, emitItems]
    refine List.IsSuffix.trans ?_ (Running.suffix_andThen (suffix_of_emitItems hbody rest))
    rw [Running.deeds_inScope]
    exact List.suffix_rfl
  | cons value done ih =>
    obtain ⟨hhalt, -⟩ | ⟨front, t, ⟨back, halt⟩, hfront, hback, hfirst⟩ :=
      Running.eq_ok_of_andThen hdone
    · cases hhalt
    · cases hfirst
      rw [List.cons_append, emitItems, Running.deeds_of_andThen hfront, List.length_cons,
        Nat.add_comm done.length 1, ← Nat.add_assoc]
      exact ih hback

end

/-- What is recorded for one of several nodes stays recorded. -/
theorem suffix_of_node {visit : Element → Running Emitted}
    (hvisit : ∀ e r, r.deeds <:+ (finalState (visit e r)).deeds) {before : List Node} (e : Element)
    (after : List Node) {first : List Node} {r s : Run}
    (hbefore : emitAll ev visit before r = .ok ⟨first, none⟩ s) :
    (finalState (visit e s)).deeds <:+
      (finalState (emitAll ev visit (before ++ e.toNode :: after) r)).deeds := by
  have hafter (t : Run) : Adds (fun _ => True) t (emitAll ev visit after t) :=
    adds_emitAll (fun _ => trivial) fun _ e _ _ s _ _ => .of_suffix (hvisit e s)
  rw [emitAll_append, Running.deeds_of_andThen hbefore, emitAll_cons]
  exact Running.suffix_andThen fun t => (hafter t).suffix

namespace Visiting

variable {v w u : Visiting} {calls : List Deed}

theorem suffix_settled (ev : Evaluator) (entries : List Entry) (hfuel : v.fuel ≠ 0) :
    (finalState (v.settled ev)).deeds <:+ (finalState (v.emitted ev entries)).deeds := by
  obtain ⟨fuel, pending, e, start⟩ := v
  obtain ⟨fuel, rfl⟩ := Nat.exists_eq_succ_of_ne_zero hfuel
  show _ <:+ (finalState (visit ev entries (fuel + 1) pending e start)).deeds
  rw [visit_succ, Running.deeds_inScope]
  refine Running.suffix_bind fun outcome s _ => ?_
  have hinner (others : List Entry) (x : Element) (t : Run) :
      Adds (fun _ => True) t (visit ev entries fuel others x t) :=
    (adds_explained ⟨fuel, others, x, t⟩).mono fun _ _ => trivial
  exact (adds_follow (fun _ => trivial) (fun _ _ _ _ _ _ _ => hinner ..)
    fun _ _ _ _ _ _ _ _ _ _ _ => hinner ..).suffix

theorem suffix_emitted (ev : Evaluator) (entries : List Entry) (v : Visiting) :
    v.start.deeds <:+ (finalState (v.emitted ev entries)).deeds :=
  (adds_explained v).suffix

theorem deeds_emitted (hfuel : v.fuel ≠ 0) :
    (finalState (v.emitted ev entries)).deeds =
      (finalState ((settle ev v.pending true v.element >>=
        Outcome.follow ev entries (visit ev entries (v.fuel - 1)))
          { v.start with context := v.start.context.push })).deeds := by
  obtain ⟨fuel, hfuel⟩ := Nat.exists_eq_succ_of_ne_zero hfuel
  rw [emitted, hfuel, visit_succ, Running.deeds_inScope, Nat.succ_sub_one]

/-- A visit records what follows for its element after the processors were called. -/
theorem deeds_of_settled {fuel : ℕ} (hfuel : v.fuel = fuel + 1) {outcome : Outcome} {s : Run}
    (h : v.settled ev = .ok outcome s) :
    (finalState (v.emitted ev entries)).deeds =
      (finalState (outcome.follow ev entries (visit ev entries fuel) s)).deeds := by
  rw [deeds_emitted (by omega), bind_of_eq_ok h, hfuel, Nat.add_sub_cancel]

/-- What the visit of a clone records is recorded behind the calls of the visit that makes it. -/
theorem Clones.recorded (h : Clones ev entries v w) (hcalls : v.Calls ev calls) :
    (calls.reverse ++ v.start.deeds) <:+ w.start.deeds ∧
      (finalState (w.emitted ev entries)).deeds <:+ (finalState (v.emitted ev entries)).deeds := by
  obtain ⟨fuel, pending, e, start⟩ := v
  obtain ⟨fuel', others, e', start'⟩ := w
  obtain @⟨s, t, first, done, rest, item, binding, status, rfl, hsettled, hdone, rfl⟩ := h
  have hinner (r : Run) : r.deeds <:+ (finalState (visit ev entries fuel' others e' r)).deeds :=
    suffix_emitted ev entries ⟨fuel', others, e', r⟩
  constructor
  · have hitems : s.deeds <:+ (finalState (emitItems (visit ev entries fuel' others e') binding
        status (done ++ item :: rest).length 0 done s)).deeds := suffix_of_emitItems hinner done s
    rw [hdone] at hitems
    rw [← hcalls.deeds, hsettled]
    exact hitems
  · have hitem := suffix_of_item hinner item rest hdone
    rw [Nat.zero_add] at hitem
    rw [deeds_of_settled rfl hsettled]
    exact hitem

/-- What the visit of an element inside another one records stays recorded. -/
theorem Inside.recorded (h : Inside ev entries v w) :
    (finalState (w.emitted ev entries)).deeds <:+ (finalState (v.emitted ev entries)).deeds := by
  obtain @⟨outcome, s, first, before, after, hfuel, hpending, hsettled, hnodes, hbefore⟩ := h
  have hnode := suffix_of_node (fun e r => suffix_emitted ev entries ⟨w.fuel, entries, e, r⟩)
    w.element after hbefore
  rw [← hnodes] at hnode
  rw [deeds_of_settled hfuel hsettled, emitted, hpending]
  cases outcome with
  | keep e children =>
    cases children with
    | false => exact absurd hnodes (by simp [Outcome.inside])
    | true =>
      rw [Outcome.follow, Running.deeds_around]
      exact hnode
  | splice nodes => exact hnode
  | _ => exact absurd hnodes (by simp [Outcome.inside])

theorem Makes.recorded (h : Makes ev entries v w) :
    (finalState (w.emitted ev entries)).deeds <:+ (finalState (v.emitted ev entries)).deeds := by
  induction h with
  | refl => exact List.suffix_rfl
  | @tail w u _ hstep ih =>
    refine List.IsSuffix.trans ?_ ih
    obtain hclone | hinside := hstep
    · have hfuel : w.fuel ≠ 0 := by
        obtain ⟨hfuel, -, -, -⟩ := hclone
        omega
      obtain ⟨calls, hcalls⟩ := exists_calls ev hfuel
      exact (hclone.recorded hcalls).2
    · exact hinside.recorded

/-- The calls of a line are recorded in their order by the visit that it begins with. -/
theorem Line.recorded (h : Line ev entries v calls u) :
    ∃ new, (finalState (v.emitted ev entries)).deeds = new ++ v.start.deeds ∧
      calls.reverse.Sublist new := by
  induction h with
  | @last v calls hcalls =>
    obtain ⟨later, hlater⟩ := suffix_settled ev entries hcalls.fuel
    rw [hcalls.deeds, ← List.append_assoc] at hlater
    exact ⟨later ++ calls.reverse, hlater.symm, List.sublist_append_right _ _⟩
  | @clone v w u calls later hcalls hclone _ ih =>
    obtain ⟨new, hnew, hsub⟩ := ih
    obtain ⟨⟨between, hbetween⟩, rest, hrest⟩ := hclone.recorded hcalls
    refine ⟨rest ++ new ++ between ++ calls.reverse, ?_, ?_⟩
    · rw [← hrest, hnew, ← hbetween]
      simp only [List.append_assoc]
    · rw [List.reverse_append, List.append_assoc, List.append_assoc]
      refine .trans (.append hsub ?_) (List.sublist_append_right rest _)
      exact List.sublist_append_right between _

/-- A visit of an element that stays puts it out, around what became of its children. -/
theorem exists_of_keep {e : Element} {children : Bool} {s t : Run} {emitted : Emitted}
    (hcalls : v.Calls ev calls) (hsettled : v.settled ev = .ok (.keep e children) s)
    (h : v.emitted ev entries = .ok emitted t) :
    ∃ body, emitted.nodes = [Element.toNode { e with children := body }] := by
  obtain ⟨fuel, pending, x, start⟩ := v
  obtain ⟨fuel, rfl⟩ := Nat.exists_eq_succ_of_ne_zero hcalls.fuel
  obtain ⟨outcome, u, w, hsettle, hfollow, rfl⟩ := eq_ok_of_visit h
  cases hsettle.symm.trans hsettled
  cases children with
  | false =>
    cases hfollow
    exact ⟨e.children, rfl⟩
  | true =>
    obtain ⟨body, -, rfl⟩ := Running.eq_ok_of_around hfollow
    exact ⟨body.nodes, rfl⟩

theorem Line.calls_last (h : Line ev entries v calls u) : ∃ own, u.Calls ev own := by
  induction h with
  | last h => exact ⟨_, h⟩
  | clone _ _ _ ih => exact ih

end Visiting

/-- What a visit records that processing nodes makes stays recorded. -/
theorem Registry.Makes.recorded {r : Registry} {nodes : List Node} {start : Run} {v : Visiting}
    (h : r.Makes ev nodes start v) :
    (finalState (v.emitted ev r.entries)).deeds <:+ (finalState (r.emit ev nodes start)).deeds := by
  obtain ⟨rfl, hbefore, hmakes⟩ := h
  exact hmakes.recorded.trans <| suffix_of_node
    (fun e s => Visiting.suffix_emitted ev r.entries ⟨r.fuel e, r.entries, e, s⟩) _ _ hbefore

/-- Every call is made in a visit of an element, and the calls of a visit, which goes on in the
clones of the element, are made in turn: each is of the first processor that matches the element as
it stands and was not called in the visit, and no processor is called twice. Where the element is
put out as no processor is left, all those that match it were called. -/
theorem Registry.calls_in_turn (r : Registry) (ev : Evaluator) (nodes : List Node) (c : Context) :
    (∀ p before result,
      .called p before result ∈ (finalState (r.emit ev nodes { context := c })).deeds →
        ∃ v calls u, r.Makes ev nodes { context := c } v ∧ v.pending = r.entries ∧
          Visiting.Line ev r.entries v calls u ∧ .called p before result ∈ calls) ∧
      ∀ v calls u, v.pending = r.entries → Visiting.Line ev r.entries v calls u →
        (∃ new, (finalState (v.emitted ev r.entries)).deeds = new ++ v.start.deeds ∧
          calls.reverse.Sublist new) ∧
        ∃ executed left, InTurn ev r.entries [] v.element calls executed left ∧ executed.Nodup ∧
          calls.length = executed.length ∧ calls.length ≤ r.size ∧
          ∀ e children s, u.settled ev = .ok (.keep e children) s →
            (∀ p before, .called p before (.ok .removeBody) ∉ calls) →
            ∀ emitted t, u.emitted ev r.entries = .ok emitted t →
              ∃ x : Element, emitted.nodes = [x.toNode] ∧
                ∀ i p, r.entries[i]? = some p → p.target.matches? x = true → i ∈ executed := by
  refine ⟨fun p before result h => ?_, fun v calls u hpending hline => ⟨hline.recorded, ?_⟩⟩
  · obtain ⟨u, own, @⟨e, s, _, _, _, hnodes, hbefore, hmakes⟩, hown, hmem⟩ := exists_makes h
    let first : Visiting := ⟨r.fuel e, r.entries, e, s⟩
    obtain ⟨v, earlier, hv, hfresh, hline⟩ := first.exists_line rfl hmakes hown
    exact ⟨v, _, u, .intro hnodes hbefore hv, hfresh, hline, List.mem_append_right _ hmem⟩
  · have hall : v.pending = Entry.except r.entries [] := by simpa using hpending
    obtain ⟨executed, left, hturn, hkeep⟩ := hline.inTurn hall
    obtain ⟨hnodup, hlength, hle⟩ := hturn.length_le
    refine ⟨executed, left, hturn, hnodup, hlength, hle, ?_⟩
    intro e children s hsettled hbody emitted t hemitted
    obtain ⟨own, hown⟩ := hline.calls_last
    obtain ⟨body, hnodes⟩ := Visiting.exists_of_keep hown hsettled hemitted
    refine ⟨{ e with children := body }, hnodes, fun i p hp hmatch => ?_⟩
    by_contra hi
    refine hkeep e children s hsettled hbody i ⟨hi, p, hp, ?_⟩
    cases htarget : p.target <;> rw [htarget] at hmatch <;> exact hmatch

/-- A processor that is called first adds the attribute that one before it in order waits for. -/
theorem Registry.calls_in_turn_back :
    let early : Entry :=
      ⟨"early", 1, .ofRule "t" (.attribute "a"), .forAttribute "a" 1 fun _ => pure .proceed⟩
    let late : Entry :=
      ⟨"late", 1, .ofRule "t" (.attribute "b"), .forAttribute "b" 2 fun _ => do
        Work.changeElement fun e => e.setAttribute "t:a" ""
        return .proceed⟩
    let r : Registry := ⟨[early, late], []⟩
    let nodes : List Node :=
      [.element { name := "p", attributes := [.make "t:b" ""] } [] (.explicit "</p>")]
    ∃ p before result v calls u executed left, p.id = "early" ∧
      .called p before result ∈ (finalState (r.emit .standard nodes { context := {} })).deeds ∧
      Visiting.Line .standard r.entries v calls u ∧ .called p before result ∈ calls ∧
      InTurn .standard r.entries [] v.element calls executed left ∧ executed.Nodup := by
  intro early late r nodes
  let isEarly : Deed → Bool
    | .called p _ _ => p.id == "early"
    | .expanded _ => false
  have hany : (finalState (r.emit .standard nodes { context := {} })).deeds.any isEarly = true := by
    decide +kernel
  obtain ⟨d, hmem, hd⟩ := List.any_eq_true.mp hany
  cases d with
  | expanded text => cases hd
  | called p before result =>
    obtain ⟨hlines, hturns⟩ := r.calls_in_turn .standard nodes {}
    obtain ⟨v, calls, u, -, hpending, hline, hcall⟩ := hlines p before result hmem
    obtain ⟨-, executed, left, hturn, hnodup, -⟩ := hturns v calls u hpending hline
    exact ⟨p, before, result, v, calls, u, executed, left, eq_of_beq hd, hmem, hline, hcall, hturn,
      hnodup⟩

end NaturalTemplate
