import NaturalTemplate.Proofs.Processing.Places
import NaturalTemplate.Proofs.Standard.Repetition
import NaturalTemplate.Proofs.Standard.Wrappers

/-!
# Wrappers can be left out

Wrappers can be replaced by their children before a template is processed. The scope of a wrapper
binds nothing, so its children cannot tell that it was around them. Only where all but the first of
the elements in an element are removed it makes a difference how many there are.
-/
namespace NaturalTemplate.Standard
open Markup

variable {ev : Evaluator} {e f : Element} {cut : List ℕ → Prop} {place : List ℕ}
  {here children : Bool}

/-! ## Calls -/

/-- Whether a deed is a call that removes all but the first of the elements in an element. -/
def KeepsFirst (ev : Evaluator) : Deed → Prop
  | .called p before _ => p.processor.name = "remove" ∧
    removeMode? ev (p.calledWith ev before.element).value before.context = some "all-but-first"
  | .expanded _ => False

instance (ev : Evaluator) : DecidablePred (KeepsFirst ev)
  | .called .. => inferInstanceAs (Decidable (_ ∧ _))
  | .expanded _ => inferInstanceAs (Decidable False)

variable {p : Entry} {pending others : List Entry} {r s : Run}

/-- A processor answers alike for an element and for the same one without some of the wrappers in
it. -/
theorem UnwrappedIn.sameOutcome_call (h : UnwrappedIn cut place here children e f)
    (hp : p ∈ registry.entries) (hrs : Run.Alike Eq r s)
    (hcalls : here = true → Adds (¬ KeepsFirst ev ·) r (p.call ev e r)) :
    SameOutcome (fun a b t u =>
        Answers (Unwrapped cut place 0 here) p.processor.name a.2 b.2 a.1 b.1 ∧
          UnwrappedIn cut place here children a.2 b.2 ∧ Run.Alike Eq t u)
      (p.call ev e r) (p.call ev f s) := by
  have hcall : AlikeCalls ev (p.calledWith ev e) (p.calledWith ev f) := by
    refine ⟨rfl, rfl, ?_⟩
    rw [Entry.calledWith, Entry.calledWith, takeAttributes_claimed, takeAttributes_claimed,
      h.attributes_eq]
  have hrest : UnwrappedIn cut place here children (takeAttributes e (p.target.claimed e)).2
      (takeAttributes f (p.target.claimed f)).2 := by
    rw [takeAttributes_claimed, takeAttributes_claimed, h.attributes_eq]
    exact h.withAttributes _
  have hkeep : p.processor.name = "remove" →
      removeMode? ev (p.calledWith ev e).value r.context = some "all-but-first" →
        AlikeFirsts (UnwrappedIn cut place here children) := by
    intro hname hmode e' f' h'
    cases here with
    | false => exact h'.keepFirstElement
    | true =>
      obtain ⟨result, hnot⟩ := exists_of_adds_call (hcalls rfl)
      exact absurd ⟨hname, hmode⟩ hnot
  have hrun := sameOutcome_run (alikeContexts_eq ev).toAlikeBindings alikeWrites_unwrappedIn hcall
    (mem_processors_of_mem_registry hp) (fun _ _ => trivial) (fun _ _ _ _ _ _ _ => trivial)
    (w := p.workspace e r.context) (v := p.workspace f s.context) ⟨hrest, hrs⟩ hkeep
  exact (Entry.sameOutcome_call (congrArg Tag.location h.tag) hrun).mono fun _ _ _ _ h =>
    ⟨h.1, h.2.element, h.2.context⟩

/-- What the processors made of an element, and of the same one without some of the wrappers in
it. -/
inductive UnwrappedOutcome (cut : List ℕ → Prop) (place : List ℕ) (here : Bool) :
    Outcome → Outcome → Prop where
  | keep {children : Bool} {e f : Element} (h : UnwrappedIn cut place here children e f) :
    UnwrappedOutcome cut place here (.keep e children) (.keep f children)
  | drop : UnwrappedOutcome cut place here .drop .drop
  | splice {nodes nodes' : List Node} (h : Unwrapped cut place 0 here nodes nodes') :
    UnwrappedOutcome cut place here (.splice nodes) (.splice nodes')
  | iterate {e f : Element} (h : UnwrappedIn cut place here true e f) (pending : List Entry)
    (items : List Value) (binding status : String) :
    UnwrappedOutcome cut place here (.iterate e pending items binding status)
      (.iterate f pending items binding status)

theorem UnwrappedIn.next?_eq (h : UnwrappedIn cut place here children e f) (pending : List Entry) :
    Entry.next? f pending = Entry.next? e pending := by
  refine Entry.next?_congr fun p _ => ?_
  cases htarget : p.target with
  | «attribute» qualified data => exact congrArg (List.any · _) h.attributes_eq
  | element name => exact congrArg (fun tag : Tag => Text.fold tag.name.toList == name) h.tag

/-- Unless all but the first of the elements in an element are removed, its processors make the same
of it without some of the wrappers among its children. -/
theorem UnwrappedIn.sameOutcome_settle (hpending : pending.Sublist registry.entries)
    (h : UnwrappedIn cut place here children e f) (hrs : Run.Alike Eq r s)
    (hcalls : here = true → Adds (¬ KeepsFirst ev ·) r (settle ev pending children e r)) :
    SameOutcome (fun o o' t u => UnwrappedOutcome cut place here o o' ∧ Run.Alike Eq t u)
      (settle ev pending children e r) (settle ev pending children f s) := by
  induction pending, children, e using settle.induct generalizing f r s with
  | case1 pending children e hnext =>
    have hnext' := (h.next?_eq pending).trans hnext
    rw [settle_of_next?_eq_none hnext, settle_of_next?_eq_none hnext']
    exact .ok ⟨.keep h, hrs⟩
  | case2 pending children e p others hnext ihproceed ihskip =>
    have hnext' := (h.next?_eq pending).trans hnext
    have hothers : others.Sublist registry.entries := (Entry.sublist_of_next? hnext).trans hpending
    have hlocation : f.location = e.location := congrArg Tag.location h.tag
    rw [settle_of_next? hnext] at hcalls
    rw [settle_of_next? hnext, settle_of_next? hnext', hlocation]
    have hsteps (hhere : here = true) := (hcalls hhere).of_bind ((traced_call p e).suffix r)
      fun _ _ _ => suffix_answered _ _ _ _ _
    refine (h.sameOutcome_call (hpending.subset (Entry.mem_of_next? hnext).1) hrs
      fun hhere => (hsteps hhere).1).bind ?_
    rintro ⟨directive, e'⟩ ⟨directive', f'⟩ t u hcall - ⟨hanswer, h', htu⟩
    have hrest (hhere : here = true) := (hsteps hhere).2 _ _ hcall
    cases hanswer with
    | proceed => exact ihproceed e' hothers h' htu hrest
    | removeNode => exact .ok ⟨.drop, htu⟩
    | removeBody hname =>
      have hempty := h'.setBody ""
      exact .ok ⟨.keep ⟨hempty.tag, hempty.endTag, hempty.nodes, fun _ => rfl⟩, htu⟩
    | replace hnodes => exact .ok ⟨.splice hnodes, htu⟩
    | iterate items binding status =>
      exact .ok ⟨.iterate h'.processed _ _ _ _, htu⟩
    | skipChildren he hf =>
      refine ihskip e' hothers ⟨h'.tag, h'.endTag, h'.nodes, fun _ => ?_⟩ htu hrest
      exact hf.trans he.symm

/-! ## Visits -/

/-- Whether all but the first of the elements in an element are removed in a visit of it. -/
def Cuts (ev : Evaluator) (v : Visiting) : Prop :=
  ∃ calls d, v.Calls ev calls ∧ d ∈ calls ∧ KeepsFirst ev d

/-- Whether this is done with the element at a place while some nodes are processed. -/
def CutAt (r : Registry) (ev : Evaluator) (nodes : List Node) (start : Run) (place : List ℕ) :
    Prop :=
  ∃ v, r.MakesAt ev nodes start place v ∧ Cuts ev v

/-- An element is cut by a call that is recorded. -/
theorem not_cutAt {r : Registry} {nodes : List Node} {start : Run}
    (h : ∀ d ∈ (finalState (r.emit ev nodes start)).deeds, ¬ KeepsFirst ev d) (place : List ℕ) :
    ¬ CutAt r ev nodes start place := by
  rintro ⟨v, hmakes, calls, d, hcalls, hd, hfirst⟩
  have hline : Visiting.Line ev r.entries v calls v := .last hcalls
  obtain ⟨new, hnew, hsub⟩ := hline.recorded
  have hmem : d ∈ (finalState (v.emitted ev r.entries)).deeds := by
    rw [hnew]
    exact List.mem_append_left _ (hsub.subset (List.mem_reverse.mpr hd))
  exact h d (hmakes.makes.recorded.subset hmem) hfirst

/-- Whether no element is cut in a visit of the one at a place, or in a visit that it makes, but at
the places said to be. -/
def Heeds (ev : Evaluator) (cut : List ℕ → Prop) (place : List ℕ) (v : Visiting) : Prop :=
  ∀ place' w, Visiting.MakesAt ev registry.entries (place, v) (place', w) → Cuts ev w → cut place'

theorem adds_of_not_cuts {v : Visiting} (h : ¬ Cuts ev v) (hfuel : v.fuel ≠ 0) :
    Adds (¬ KeepsFirst ev ·) { v.start with context := v.start.context.push } (v.settled ev) := by
  obtain ⟨calls, hcalls⟩ := Visiting.exists_calls ev hfuel
  refine ⟨calls.reverse, hcalls.deeds, fun d hd hfirst => h ?_⟩
  exact ⟨calls, d, hcalls, List.mem_reverse.mp hd, hfirst⟩

/-- Whether a visit of an element comes to the same as one of the same element without some of the
wrappers in it, wherever the element stands. -/
def Agrees (cut : List ℕ → Prop) (v : Visiting) : Prop :=
  ∀ place here f s, need registry.entries v.pending v.element < v.fuel →
    v.pending.Sublist registry.entries → UnwrappedIn cut place here true v.element f →
    (here = true → ¬ cut place) → Heeds .standard cut place v → Run.Alike Eq v.start s →
    SameEmission Eq Eq (v.emitted .standard registry.entries)
      (visitFully .standard v.pending f s)

theorem emitAll_padded (nodes : List Node) :
    EmitInStep (Context.Padded 0) Eq
      (emitAll .standard (visitFully .standard registry.entries) nodes)
      (emitAll .standard (visitFully .standard registry.entries) nodes) := by
  refine .emitAll (N := Eq) (Context.alikeReads_padded 0) (fun _ _ => rfl) (fun n m h => ?_)
    (forall₂_eq_iff.mpr rfl)
  subst h
  cases hn : n.element? with
  | none => exact .inl ⟨rfl, rfl⟩
  | some e =>
    have he := Node.eq_toNode_of_element? hn
    exact .inr ⟨e, e, he, he, emit_visitFully (.refl _) e⟩

/-- Nodes are processed in a scope that binds nothing as they are without it. -/
theorem sameEmission_unscoped {x : Running Emitted} {nodes : List Node}
    (h : SameEmission Eq Eq (x { r with context := r.context.push })
      (emitAll .standard (visitFully .standard registry.entries) nodes
        { s with context := s.context.push })) :
    SameEmission Eq Eq (Running.inScope x r)
      (emitAll .standard (visitFully .standard registry.entries) nodes s) := by
  have hpadded := emitAll_padded nodes s { s with context := s.context.push }
    (Context.padded_push _)
  rw [Running.inScope_run]
  generalize x { r with context := r.context.push } = result at h
  generalize emitAll .standard _ nodes { s with context := s.context.push } = result' at h hpadded
  generalize emitAll .standard _ nodes s = unscoped at hpadded
  cases h with
  | ok h =>
    cases hpadded with
    | ok h' =>
      obtain rfl := h.1.eq
      obtain rfl := h'.1.eq
      refine .ok ⟨h'.1, ?_⟩
      exact (congrArg Context.pop h.2).trans (Context.Padded.pop_eq h'.2)
  | error failure =>
    cases hpadded
    exact .error _ _ _

/-- Visits elements with all processors, and with this much fuel. -/
def visitWith (ev : Evaluator) (fuel : Element → ℕ) (e : Element) : Running Emitted :=
  visit ev registry.entries (fuel e) registry.entries e

/-- Whether the visits of the elements among some nodes heed which places are cut. The nodes stand
in the element at a place, from a number on. -/
def AllHeed (ev : Evaluator) (cut : List ℕ → Prop) (place : List ℕ) (number : ℕ)
    (fuel : Element → ℕ) (nodes : List Node) (r : Run) : Prop :=
  ∀ before x after first t, nodes = before ++ Element.toNode x :: after →
    emitAll ev (visitWith ev fuel) before r = .ok ⟨first, none⟩ t →
    Heeds ev cut ((number + before.length) :: place) ⟨fuel x, registry.entries, x, t⟩

section
variable {fuel : Element → ℕ} {number : ℕ} {ns ms : List Node}

theorem AllHeed.head (h : AllHeed ev cut place number fuel (e.toNode :: ns) r) :
    Heeds ev cut (number :: place) ⟨fuel e, registry.entries, e, r⟩ :=
  h [] e ns [] r rfl rfl

theorem AllHeed.tail {n : Node} (h : AllHeed ev cut place number fuel (n :: ns) r)
    {first : List Node} {t : Run}
    (hfirst : emitNode ev (visitWith ev fuel) n r = .ok ⟨first, none⟩ t) :
    AllHeed ev cut place (number + 1) fuel ns t := by
  intro before x after second u hnodes hbefore
  rw [Nat.add_right_comm]
  refine h (n :: before) x after (first ++ second) u (by rw [hnodes]; rfl) ?_
  rw [emitAll_cons, Running.andThen_of_eq_ok hfirst, hbefore]

theorem Heeds.inside {v : Visiting} (h : Heeds ev cut place v) {m : ℕ} (hfuel : v.fuel = m + 1)
    {outcome : Outcome} {t : Run} (hsettled : v.settled ev = .ok outcome t) :
    AllHeed ev cut place 0 (fun _ => m) outcome.inside t := by
  intro before x after first u hnodes hbefore place' w hw
  rw [Nat.zero_add] at hw
  have hstep : Visiting.StepAt ev registry.entries (place, v)
      (before.length :: place, ⟨m, registry.entries, x, u⟩) :=
    .inside hfuel rfl hsettled hnodes hbefore
  exact h place' w (.head hstep hw)

/-- Enough fuel for a visit is enough for the visits inside, with one unit less. -/
theorem need_inside {v : Visiting} (hpending : v.pending.Sublist registry.entries) {m : ℕ}
    (hfuel : v.fuel = m + 1) (hneed : need registry.entries v.pending v.element < v.fuel)
    {outcome : Outcome} {t : Run} (hsettled : v.settled ev = .ok outcome t)
    {y : List Entry × Element} (hy : y ∈ outcome.visits registry.entries) :
    need registry.entries y.1 y.2 < m ∧ y.1.Sublist registry.entries := by
  have hdescends := (shrinks_of_settle hpending hsettled).descends hy
  have hless := hdescends.need_lt
  exact ⟨by simp only at hless; omega, hdescends.sublist hpending⟩

/-- Nodes come to the same as those without some wrappers if visits do that are made with no more
fuel. -/
theorem Unwrapped.sameEmission (h : Unwrapped cut place number here ns ms)
    (hfuel : ∀ x ∈ ns.filterMap Node.element?,
      need registry.entries registry.entries x < fuel x ∧
        ∀ v : Visiting, v.fuel ≤ fuel x → Agrees cut v)
    (hheed : AllHeed .standard cut place number fuel ns r) (hrs : Run.Alike Eq r s) :
    SameEmission Eq Eq (emitAll .standard (visitWith .standard fuel) ns r)
      (emitAll .standard (visitFully .standard registry.entries) ms s) := by
  induction h generalizing fuel r s with
  | nil => exact .ok ⟨⟨.nil, rfl⟩, hrs⟩
  | @leaf place number here n ns ms hleaf _ ih =>
    rw [emitAll_cons, emitAll_cons]
    have hnode : EmitInStep Eq Eq (emitNode .standard (visitWith .standard fuel) n)
        (emitNode .standard (visitFully .standard registry.entries) n) :=
      .leaf (alikeContexts_eq .standard).toAlikeReads (fun _ _ => rfl) hleaf
    refine .andThen (hnode r s hrs) fun first t u hfirst htu => ?_
    refine ih (fun x hx => hfuel x ?_) (hheed.tail hfirst) htu
    rwa [List.filterMap_cons_none hleaf]
  | @element place number here inside e children ns ms hchildren hcut _ _ ihrest =>
    obtain ⟨⟨hneed, hagrees⟩, hrest⟩ := List.forall_mem_cons.mp hfuel
    rw [emitAll_cons, emitAll_cons]
    refine .andThen ?_ fun first t u hfirst htu => ihrest hrest (hheed.tail hfirst) htu
    exact hagrees ⟨fuel e, registry.entries, e, r⟩ le_rfl (number :: place) inside
      { e with children } s hneed (.refl _) (.of_children hchildren) hcut hheed.head hrs
  | @wrapper place number inside e children ns ms he _ _ ihchildren ihrest =>
    obtain ⟨⟨hneed, hagrees⟩, hrest⟩ := List.forall_mem_cons.mp hfuel
    obtain ⟨m, hm⟩ := Nat.exists_eq_succ_of_ne_zero (Nat.ne_zero_of_lt hneed)
    rw [emitAll_cons, emitAll_append]
    refine .andThen ?_ fun first t u hfirst htu => ihrest hrest (hheed.tail hfirst) htu
    obtain ⟨deeds, hsettled⟩ := he.settle_eq .standard { r with context := r.context.push }
    show SameEmission Eq Eq (visit .standard registry.entries (fuel e) registry.entries e r) _
    rw [hm, visit_succ]
    refine sameEmission_unscoped ?_
    rw [bind_of_eq_ok hsettled]
    let v : Visiting := ⟨fuel e, registry.entries, e, r⟩
    refine ihchildren (fun x hx => ?_) (hheed.head.inside (v := v) hm hsettled)
      (congrArg Context.push hrs)
    have hy : (registry.entries, x) ∈ (Outcome.splice e.children).visits registry.entries :=
      List.mem_map_of_mem hx
    have hless := need_inside (v := v) (.refl _) hm hneed hsettled hy
    exact ⟨hless.1, fun w hw => hagrees w (by omega)⟩

end

section
variable {v : Visiting} {m : ℕ} {outcome : Outcome} {t u : Run}

/-- What is processed inside a visit comes to the same if the visits do that are made with less
fuel. -/
theorem sameEmission_inside (hagrees : ∀ w : Visiting, w.fuel < v.fuel → Agrees cut w)
    (hpending : v.pending.Sublist registry.entries) (hfuel : v.fuel = m + 1)
    (hneed : need registry.entries v.pending v.element < v.fuel) 
    (hheeds : Heeds .standard cut place v) (hsettled : v.settled .standard = .ok outcome t)
    (hvisits : outcome.visits registry.entries =
      (outcome.inside.filterMap Node.element?).map fun e => (registry.entries, e))
    {nodes : List Node} (hnodes : Unwrapped cut place 0 here outcome.inside nodes)
    (htu : Run.Alike Eq t u) :
    SameEmission Eq Eq
      (emitAll .standard (visit .standard registry.entries m registry.entries) outcome.inside t)
      (emitAll .standard (visitFully .standard registry.entries) nodes u) := by
  refine hnodes.sameEmission (fun x hx => ?_) (hheeds.inside hfuel hsettled) htu
  have hy : (registry.entries, x) ∈ outcome.visits registry.entries :=
    hvisits ▸ List.mem_map_of_mem hx
  exact ⟨(need_inside hpending hfuel hneed hsettled hy).1, fun w hw => hagrees w (by omega)⟩

end

/-- Every visit of an element comes to the same as one without some of the wrappers in it. The fuel
of the first one bounds the induction; the visits of the wrappers are what takes more of it. -/
theorem agrees (cut : List ℕ → Prop) (v : Visiting) : Agrees cut v := by
  obtain ⟨fuel, pending, e, start⟩ := v
  induction fuel using Nat.strong_induction_on generalizing pending e start with
  | _ fuel ih =>
    intro place here f s hneed hpending h hcut hheeds hstart
    obtain ⟨m, rfl⟩ := Nat.exists_eq_succ_of_ne_zero (Nat.ne_zero_of_lt hneed)
    let v : Visiting := ⟨m + 1, pending, e, start⟩
    have hagrees : ∀ w : Visiting, w.fuel < v.fuel → Agrees cut w := fun w hw =>
      ih w.fuel hw w.pending w.element w.start
    show SameEmission Eq Eq (visit .standard registry.entries (m + 1) pending e start)
      (visitFully .standard pending f s)
    rw [visit_succ, visitFully_eq hpending]
    refine .inScope (alikeContexts_eq .standard).toAlikeScopes ?_
    have hpushed : Run.Alike Eq { start with context := start.context.push }
        { s with context := s.context.push } := congrArg Context.push hstart
    have hcuts (hhere : here = true) : ¬ Cuts .standard v := fun hcuts =>
      hcut hhere (hheeds place v .refl hcuts)
    refine (h.sameOutcome_settle hpending hpushed fun hhere =>
      adds_of_not_cuts (hcuts hhere) (Nat.succ_ne_zero m)).bind ?_
    rintro outcome outcome' t u hsettled - ⟨houtcome, htu⟩
    cases houtcome with
    | @keep children e' f' h' =>
      cases children with
      | false =>
        obtain rfl := h'.eq
        exact .ok ⟨⟨.cons rfl .nil, rfl⟩, htu⟩
      | true =>
        have hall := sameEmission_inside (v := v) hagrees hpending rfl hneed hheeds hsettled rfl
          h'.nodes htu
        refine SameOutcome.bind hall ?_
        rintro body body' t' u' - - ⟨hbody, htu'⟩
        obtain rfl := hbody.eq
        refine .ok ⟨⟨.cons ?_ .nil, rfl⟩, htu'⟩
        rw [h'.eq_with]
    | drop => exact .ok ⟨⟨.nil, rfl⟩, htu⟩
    | splice hnodes =>
      exact sameEmission_inside (v := v) hagrees hpending rfl hneed hheeds hsettled rfl hnodes htu
    | @iterate e' f' h' others items binding status =>
      have hC := alikeContexts_eq .standard
      refine SameEmission.emitItems hC.toAlikeScopes hC.toAlikeBindings htu ?_
      intro done item rest first t' u' hitems hdone c hc
      subst hitems
      let w : Visiting := ⟨m, others, e', { t' with context := c }⟩
      have hclone : Visiting.Clones .standard registry.entries v w :=
        .intro rfl hsettled hdone (by simp only [w, c, Nat.zero_add])
      obtain ⟨hless, hothers⟩ := need_inside (v := v) hpending rfl hneed hsettled
        (List.mem_map_of_mem (f := fun _ => (others, e')) (List.mem_append_right done
          List.mem_cons_self))
      exact hagrees w (Nat.lt_succ_self m) place here f' u' hless hothers h' hcut
        (fun place' x hx => hheeds place' x (.head (.clone hclone) hx)) hc

/-- Wrappers, at any depth and inside each other, can be replaced by their children: what comes of
the nodes is the same, or the error is, and the context is left the same. Only an element that is
cut to the first of its elements in this run has to keep the wrappers among its children. -/
theorem emit_unwrapped {r : Registry} (hr : Registry.ofDialects [dialect] = .ok r) {run : Run}
    {nodes nodes' : List Node}
    (h : Unwrapped (CutAt r .standard nodes run) [] 0 here nodes nodes') :
    SameOutcome (fun emitted emitted' s t => emitted' = emitted ∧ t.context = s.context)
      (r.emit .standard nodes run) (r.emit .standard nodes' run) := by
  obtain rfl : registry = r := Except.ok.inj (ofDialects_dialect.symm.trans hr)
  have hfully : registry.emit .standard nodes' =
      emitAll .standard (visitFully .standard registry.entries) nodes' :=
    emitAll_congr fun e _ => visit_eq (.refl _) (need_lt_fuel e) (Nat.lt_succ_self _)
  have hheed : AllHeed .standard (CutAt registry .standard nodes run) [] 0 registry.fuel nodes
      run := by
    intro before x after first t hnodes hbefore place w hw hcuts
    rw [Nat.zero_add] at hw
    exact ⟨w, .intro hnodes hbefore hw, hcuts⟩
  have hsame := h.sameEmission (fun x _ => ⟨need_lt_fuel x, fun v _ => agrees _ v⟩) hheed
    (rfl : Run.Alike Eq run run)
  rw [hfully]
  exact hsame.mono fun _ _ _ _ h => ⟨h.1.eq, h.2.symm⟩

/-- Wrappers inside each other, in a switch whose mode of removal is the value of a variable. -/
theorem emit_unwrapped_switch :
    let written (name value : String) : Attribute := ⟨" ", name, "=", some value, .double, {}⟩
    let option (value : String) : Node :=
      .element { name := "li", attributes := [written "th:case" value] } [] .implicit
    let bare : Element :=
      ⟨{ name := "p", attributes := [written "th:remove" "tag"] }, [option "'1'", option "*"],
        .explicit "</p>"⟩
    let block : Element :=
      ⟨{ name := "th:block" }, [bare.toNode, option "*"], .explicit "</th:block>"⟩
    let list : Element :=
      ⟨{ name := "ul", attributes :=
        [written "th:switch" "${x}", written "th:remove" "${m}"] }, [block.toNode],
        .explicit "</ul>"⟩
    let unwrapped : Element := { list with children := [option "'1'", option "*", option "*"] }
    let run : Run :=
      { context := { root := [("x", .value (.string "2")), ("m", .value (.string "none"))] } }
    Registry.ofDialects [dialect] = .ok registry ∧
      Unwrapped (CutAt registry .standard [list.toNode] run) [] 0 false [list.toNode]
        [unwrapped.toNode] ∧
      ∃ emitted s, registry.emit .standard [list.toNode] run = .ok emitted s ∧
        (Document.mk emitted.nodes).render = "<ul><li></ul>" ∧
        ∃ t, registry.emit .standard [unwrapped.toNode] run = .ok emitted t := by
  intro written option bare block list unwrapped run
  have hcheck : passes (fun emitted s =>
      (Document.mk emitted.nodes).render == "<ul><li></ul>" &&
        s.deeds.all fun d => !decide (KeepsFirst .standard d))
      (registry.emit .standard [list.toNode] run) = true := by
    decide +kernel
  obtain ⟨emitted, s, hrun, hchecked⟩ := exists_of_passes hcheck
  obtain ⟨hrender, hdeeds⟩ := Bool.and_eq_true_iff.mp hchecked
  have hcut (place : List ℕ) : ¬ CutAt registry .standard [list.toNode] run place := by
    refine not_cutAt (fun d hd => ?_) place
    rw [hrun] at hd
    simpa using List.all_eq_true.mp hdeeds d hd
  have hoption (value : String) {cut : List ℕ → Prop} {place : List ℕ} {number : ℕ}
      {ns ms : List Node} (h : Unwrapped cut place (number + 1) true ns ms) :
      Unwrapped cut place number true (option value :: ns) (option value :: ms) :=
    .element (e := ⟨_, [], _⟩) (.nil : Unwrapped cut _ 0 false [] []) nofun h
  have hbare : IsWrapper bare := .inr ⟨written "th:remove" "tag", rfl, by decide +kernel, by decide⟩
  have hblock : IsWrapper block := .inl ⟨rfl, by decide +kernel⟩
  have hchildren : Unwrapped (CutAt registry .standard [list.toNode] run) [0] 0 true list.children
      unwrapped.children :=
    .wrapper hblock (.wrapper hbare (hoption _ (hoption _ .nil)) (hoption _ .nil)) .nil
  have hunwrapped : Unwrapped (CutAt registry .standard [list.toNode] run) [] 0 false
      [list.toNode] [unwrapped.toNode] := .element (e := list) hchildren (fun _ => hcut [0]) .nil
  have hsame := emit_unwrapped ofDialects_dialect hunwrapped
  rw [hrun] at hsame
  refine ⟨ofDialects_dialect, hunwrapped, emitted, s, hrun, eq_of_beq hrender, ?_⟩
  generalize hresult : registry.emit .standard [unwrapped.toNode] run = result at hsame
  cases hsame with
  | @ok _ emitted' _ t h =>
    obtain rfl := h.1
    exact ⟨t, rfl⟩

end NaturalTemplate.Standard
