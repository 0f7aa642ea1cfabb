import NaturalTemplate.Proofs.Processing.Halting
import NaturalTemplate.Proofs.Standard.Stable

/-!
# No directive is left

Whichever way an element leaves a run, each attribute that calls for a standard processor was taken
off it before: the processors that are pending are all that its attributes call for, and an element
is put out when none is left that matches, or without its body and then with no attribute that calls
for one. Only an assignment to a directive could change this.
-/
namespace NaturalTemplate.Standard
open Markup

variable {ev : Evaluator} {pending others : List Entry} {children : Bool} {e e' : Element}
  {p : Entry} {directive : Directive} {r s : Run}

/-- Whether a call, if it was the call of a processor that assigns to attributes, did not assign to
a directive. -/
def AssignsPlainly (ev : Evaluator) : Deed → Prop
  | .called p before _ => ∀ a ∈ (p.calledWith ev before.element).trigger, AssignsPlain a
  | .expanded _ => True

theorem isDirective_assigned (hp : p ∈ registry.entries) (hmatch : p.target.matches? e = true)
    (hplain : ∀ a ∈ (p.calledWith ev e).trigger, AssignsPlain a) :
    ∀ directive ∈ assigners, p.processor.rule = .attribute directive →
      ∀ assigned, assignments (p.calledWith ev e).value = .ok assigned →
        ∀ x ∈ assigned, isDirective x.1 = false := by
  intro directive hdirective hrule assigned hassigned x hx
  obtain ⟨a, -, htrigger, hcalls⟩ := @exists_trigger ev p directive e (target_eq hp hrule) hmatch
  rw [Call.value, htrigger] at hassigned
  refine hplain a htrigger directive hdirective hcalls x.1 ?_
  rw [assignedNames, hassigned]
  exact List.mem_map_of_mem hx

/-- A property that goes for all attributes that are no directives lasts while a processor is called
that does not assign to directives. -/
theorem Stable.of_next? {P : Element → Prop} (hP : Stable { name | isDirective name = false } P)
    (hpending : pending.Sublist registry.entries)
    (hnext : Entry.next? e pending = some (p, others))
    (hplain : ∀ a ∈ (p.calledWith ev e).trigger, AssignsPlain a)
    (h : p.call ev e r = .ok (directive, e') s)
    (he : P (takeAttributes e (p.target.claimed e)).2) :
    P e' ∧ Answers Eq p.processor.name e' e' directive directive := by
  have hp := hpending.subset (Entry.mem_of_next? hnext).1
  exact hP.of_call hp (fun _ => isDirective_of_mem)
    (isDirective_assigned hp (Entry.matches?_of_next? hnext) hplain) h he

/-! ## What is left of an element -/

/-- An element whose directives all call for processors that are pending, and which has no element
in it if its children are to be left as they are. -/
def Awaits (pending : List Entry) (children : Bool) (e : Element) : Prop :=
  (∀ a ∈ e.attributes, ∀ q ∈ registry.entries, q.target.claims a = true → q ∈ pending) ∧
    (children = false → Node.elements e.children = [])

theorem stable_awaits (pending : List Entry) (children : Bool) :
    Stable { name | isDirective name = false } (Awaits pending children) := by
  refine .and (.forall_attributes fun a ha q hq hclaims => ?_)
    (.children (p := fun ns => children = false → Node.elements ns = [])
      (fun body _ => elements_bodyNodes body) fun ns hns hchildren => ?_)
  · exact absurd (ha.symm.trans (isDirective_iff.mpr ⟨q, hq, hclaims⟩)) Bool.false_ne_true
  · have hsub := Node.elements_sublist (keepFirstElement_sublist ns)
    rw [hns hchildren] at hsub
    exact List.sublist_nil.mp hsub

theorem awaits_entries (e : Element) : Awaits registry.entries true e :=
  ⟨fun _ _ _ hq _ => hq, fun h => Bool.noConfusion h⟩

/-- Once the attributes that called for a processor are taken off, no attribute calls for it. -/
theorem Awaits.takeAttributes (h : Awaits pending children e)
    (hnext : Entry.next? e pending = some (p, others)) :
    Awaits others children (takeAttributes e (p.target.claimed e)).2 := by
  rw [takeAttributes_claimed]
  refine ⟨fun a ha q hq hclaims => ?_, h.2⟩
  obtain ⟨ha, hnot⟩ := List.mem_filter.mp ha
  obtain ⟨front, back, rfl, rfl, -⟩ := Entry.exists_of_next? hnext
  have hmem := h.1 a ha q hq hclaims
  rw [List.mem_append, List.mem_cons] at hmem
  rw [List.mem_append]
  obtain hmem | rfl | hmem := hmem
  · exact .inl hmem
  · rw [hclaims] at hnot
    contradiction
  · exact .inr hmem

/-- No attribute of an element calls for a standard processor. -/
def IsConsumed (e : Element) : Prop := ∀ q ∈ registry.entries, q.target.claimed e = []

theorem Awaits.isConsumed (h : Awaits pending children e)
    (hdone : ∀ q ∈ pending, q.target.claimed e = []) : IsConsumed e := by
  refine fun q hq => claimed_eq_nil_iff.mpr fun a ha => Bool.eq_false_iff.mpr fun hclaims => ?_
  have hnone := claimed_eq_nil_iff.mp (hdone q (h.1 a ha q hq hclaims)) a ha
  exact absurd (hnone.symm.trans hclaims) Bool.false_ne_true

/-- What the processors make of an element whose directives call for processors that are pending. -/
def Consumes : Outcome → Prop
  | .keep e children => IsConsumed e ∧ (children = false → Node.elements e.children = [])
  | .iterate e pending _ _ _ => Awaits pending true e ∧ pending.Sublist registry.entries
  | .drop | .splice _ | .halt _ => True

/-- The deeds of a part of a run are kept. -/
theorem mem_deeds_of_traced {α : Type} {f : α → Option Halt} {x : Running α} (hx : Traced f x)
    {a : α} (h : x r = .ok a s) {d : Deed} (hd : d ∈ r.deeds) : d ∈ s.deeds := by
  obtain ⟨new, hnew, -⟩ := hx r
  rw [h] at hnew
  have hdeeds : s.deeds = new ++ r.deeds := hnew
  rw [hdeeds]
  exact List.mem_append_right _ hd

/-- An element stays only when none of its attributes calls for a processor. -/
theorem consumes_of_settle (hpending : pending.Sublist registry.entries)
    (he : Awaits pending children e) {outcome : Outcome}
    (h : settle ev pending children e r = .ok outcome s)
    (hplain : ∀ d ∈ s.deeds, AssignsPlainly ev d) : Consumes outcome := by
  induction pending, children, e using settle.induct generalizing r with
  | case1 pending children e hnext =>
    rw [settle_of_next?_eq_none hnext] at h
    cases h
    have hdone : ∀ q ∈ pending, q.target.claimed e = [] := fun q hq =>
      claimed_of_matches?_eq_false (matches?_of_next?_eq_none hnext q hq)
    exact ⟨he.isConsumed hdone, he.2⟩
  | case2 pending children e p others hnext ihproceed ihskip =>
    have hothers : others.Sublist registry.entries := (Entry.sublist_of_next? hnext).trans hpending
    rw [settle_of_next? hnext] at h
    obtain ⟨⟨directive, e'⟩, t, hcall, h⟩ := eq_ok_of_bind h
    -- What is known is known of the deeds in the end. This call is still among them.
    have hkept : ∀ d ∈ t.deeds, d ∈ s.deeds := by
      cases directive with
      | proceed => exact fun d => mem_deeds_of_traced (traced_settle others children e') h
      | skipChildren => exact fun d => mem_deeds_of_traced (traced_settle others false e') h
      | _ =>
        cases h
        exact fun d hd => hd
    have hdeed : Deed.called p ⟨e, r.context⟩ (.ok directive) ∈ t.deeds := by
      rw [(call_eq_ok hcall).2]
      exact List.mem_cons_self
    obtain ⟨he', hanswer⟩ := (stable_awaits others children).of_next? hpending hnext
      (hplain _ (hkept _ hdeed)) hcall (he.takeAttributes hnext)
    cases hanswer with
    | proceed => exact ihproceed e' hothers he' h
    | removeNode =>
      cases h
      trivial
    | removeBody hname =>
      -- Nothing is called after this one, but all that attributes call for came before it.
      cases h
      have hdone := claimed_of_remove hpending hnext hname hcall
      refine ⟨fun q hq => ?_, fun _ => ?_⟩
      · rw [claimed_eq_nil_iff, attributes_setChildren, ← claimed_eq_nil_iff]
        exact he'.isConsumed hdone q hq
      · rw [children_setChildren, Node.elements_nil]
    | replace =>
      cases h
      trivial
    | iterate =>
      cases h
      exact ⟨⟨he'.1, fun h => Bool.noConfusion h⟩, hothers⟩
    | skipChildren hbody =>
      refine ihskip e' hothers ⟨he'.1, fun _ => ?_⟩ h
      rw [hbody, elements_bodyNodes]

/-! ## What is left of nodes -/

/-- A part of a run that puts out no directive, if no directive is assigned to in it. -/
structure PutsOutConsumed (ev : Evaluator) (x : Running Emitted) : Prop where
  traced : Traced Emitted.halt x
  consumed {r s : Run} {emitted : Emitted} (h : x r = .ok emitted s)
    (hplain : ∀ d ∈ s.deeds, AssignsPlainly ev d) :
    ∀ e ∈ Node.elements emitted.nodes, IsConsumed e

theorem PutsOutConsumed.ofNodes {nodes : List Node} (h : Node.elements nodes = []) :
    PutsOutConsumed ev (pure ⟨nodes, none⟩) where
  traced := .pure rfl
  consumed hrun _ := by
    cases hrun
    rw [h]
    exact List.forall_mem_nil _

theorem closed_putsOutConsumed (ev : Evaluator) : Running.Closed ev (PutsOutConsumed ev) where
  nothing := .ofNodes Node.elements_nil
  leaf h := .ofNodes (Node.elements_leaf h)
  text content l :=
    { traced := traced_emitText content l
      consumed := fun h _ => by
        obtain ⟨written, rfl⟩ := eq_ok_of_emitText h
        rw [Node.elements_leaf rfl]
        exact List.forall_mem_nil _ }
  andThen {x y} hx hy :=
    { traced := hx.traced.andThen hy.traced
      consumed := fun h hplain => by
        obtain ⟨-, hrun⟩ | ⟨first, t, second, hfirst, hsecond, rfl⟩ := Running.eq_ok_of_andThen h
        · exact hx.consumed hrun hplain
        · rw [Node.elements_append, List.forall_mem_append]
          refine ⟨hx.consumed hfirst fun d hd => ?_, hy.consumed hsecond hplain⟩
          exact hplain d (mem_deeds_of_traced hy.traced hsecond hd) }
  item {x} hx f :=
    { traced := (closed_traced ev).item hx.traced f
      consumed := fun h hplain => by
        obtain ⟨t, hrun, rfl⟩ := Running.eq_ok_of_inScope h
        exact hx.consumed hrun hplain }

theorem putsOutConsumed_visit (fuel : Nat) (hpending : pending.Sublist registry.entries)
    (he : Awaits pending true e) :
    PutsOutConsumed ev (visit ev registry.entries fuel pending e) := by
  refine ⟨traced_visit fuel pending e, fun {r s emitted} h hplain => ?_⟩
  induction fuel generalizing pending e r s emitted with
  | zero => cases h
  | succ fuel ih =>
    have hall (nodes : List Node) : PutsOutConsumed ev
        (emitAll ev (visit ev registry.entries fuel registry.entries) nodes) :=
      (closed_putsOutConsumed ev).emitAll fun e _ =>
        ⟨traced_visit fuel _ e, ih (.refl _) (awaits_entries e)⟩
    obtain ⟨outcome, u, t, hsettle, hfollow, rfl⟩ := eq_ok_of_visit h
    have hconsumes (hkept : ∀ d ∈ u.deeds, d ∈ t.deeds) : Consumes outcome :=
      consumes_of_settle hpending he hsettle fun d hd => hplain d (hkept d hd)
    cases outcome with
    | keep e' children =>
      cases children with
      | false =>
        cases hfollow
        obtain ⟨hhere, hchildren⟩ := hconsumes fun d hd => hd
        rw [Node.elements_toNode, hchildren rfl]
        exact List.forall_mem_singleton.mpr hhere
      | true =>
        obtain ⟨body, hbody, rfl⟩ := Running.eq_ok_of_around hfollow
        obtain ⟨hhere, -⟩ := hconsumes fun d => mem_deeds_of_traced (hall _).traced hbody
        rw [Node.elements_toNode]
        exact List.forall_mem_cons.mpr ⟨hhere, (hall _).consumed hbody hplain⟩
    | drop =>
      cases hfollow
      rw [Node.elements_nil]
      exact List.forall_mem_nil _
    | splice nodes => exact (hall nodes).consumed hfollow hplain
    | iterate e' others items binding status =>
      have hbody : Traced Emitted.halt (visit ev registry.entries fuel others e') :=
        traced_visit fuel others e'
      have hitems := (closed_traced ev).emitItems hbody binding status items.length 0 items
      obtain ⟨he', hothers⟩ := hconsumes fun d => mem_deeds_of_traced hitems hfollow
      have hputs := (closed_putsOutConsumed ev).emitItems ⟨hbody, ih hothers he'⟩ binding status
        items.length 0 items
      exact hputs.consumed hfollow hplain
    | halt h =>
      cases hfollow
      rw [Node.elements_nil]
      exact List.forall_mem_nil _

/-! ## Templates that do not assign to directives -/

/-- Whether no attribute in an element assigns to directives. -/
def AssignsPlainIn (e : Element) : Prop :=
  (∀ a ∈ e.attributes, AssignsPlain a) ∧ Node.EverywhereIn AssignsPlainNode e.children

theorem stable_assignsPlainIn : Stable { name | isDirective name = false } AssignsPlainIn := by
  refine .and (.forall_attributes fun a ha => .of_name ha)
    (.children (fun body n hn => ?_) fun ns hns n hn => hns n (keepFirstElement_subset ns hn))
  unfold bodyNodes at hn
  split at hn
  · cases hn
  · obtain rfl := List.mem_singleton.mp hn
    exact .of_leaf rfl trivial

theorem AssignsPlainIn.of_mem {nodes : List Node} (h : Node.EverywhereIn AssignsPlainNode nodes)
    {e : Element} (he : e ∈ nodes.filterMap Node.element?) : AssignsPlainIn e := by
  obtain ⟨n, hn, he⟩ := List.mem_filterMap.mp he
  obtain rfl := Node.eq_toNode_of_element? he
  exact ⟨(h _ hn).here, (h _ hn).inside⟩

/-- What the processors leave of an element in which nothing assigns to directives. -/
def LeavesPlain : Outcome → Prop
  | .keep e _ => AssignsPlainIn e
  | .splice nodes => Node.EverywhereIn AssignsPlainNode nodes
  | .iterate e pending _ _ _ => AssignsPlainIn e ∧ pending.Sublist registry.entries
  | .drop | .halt _ => True

theorem LeavesPlain.visits {outcome : Outcome} (h : LeavesPlain outcome)
    {y : List Entry × Element} (hy : y ∈ outcome.visits registry.entries) :
    AssignsPlainIn y.2 ∧ y.1.Sublist registry.entries := by
  have hall {nodes : List Node} (h : Node.EverywhereIn AssignsPlainNode nodes)
      (hy : y ∈ (nodes.filterMap Node.element?).map fun e => (registry.entries, e)) :
      AssignsPlainIn y.2 ∧ y.1.Sublist registry.entries := by
    obtain ⟨e, he, rfl⟩ := List.mem_map.mp hy
    exact ⟨.of_mem h he, .refl _⟩
  cases outcome with
  | keep e children =>
    cases children with
    | false => cases hy
    | true => exact hall h.2 hy
  | splice nodes => exact hall h hy
  | iterate e pending items binding status =>
    obtain ⟨item, -, rfl⟩ := List.mem_map.mp hy
    exact h
  | _ => cases hy

theorem leavesPlain_of_settle (hpending : pending.Sublist registry.entries) (he : AssignsPlainIn e)
    {outcome : Outcome} (h : settle ev pending children e r = .ok outcome s)
    (hr : ∀ d ∈ r.deeds, AssignsPlainly ev d) :
    LeavesPlain outcome ∧ ∀ d ∈ s.deeds, AssignsPlainly ev d := by
  induction pending, children, e using settle.induct generalizing r with
  | case1 pending children e hnext =>
    rw [settle_of_next?_eq_none hnext] at h
    cases h
    exact ⟨he, hr⟩
  | case2 pending children e p others hnext ihproceed ihskip =>
    have hothers : others.Sublist registry.entries := (Entry.sublist_of_next? hnext).trans hpending
    have hp := hpending.subset (Entry.mem_of_next? hnext).1
    have hplain : ∀ a ∈ (p.calledWith ev e).trigger, AssignsPlain a := by
      intro a ha
      rw [Entry.calledWith, takeAttributes_claimed] at ha
      exact he.1 a (List.mem_filter.mp (List.mem_of_head? ha)).1
    have hrest : AssignsPlainIn (takeAttributes e (p.target.claimed e)).2 := by
      rw [takeAttributes_claimed]
      exact ⟨fun a ha => he.1 a (List.mem_filter.mp ha).1, he.2⟩
    rw [settle_of_next? hnext] at h
    obtain ⟨⟨directive, e'⟩, t, hcall, h⟩ := eq_ok_of_bind h
    obtain ⟨he', -⟩ := stable_assignsPlainIn.of_next? hpending hnext hplain hcall hrest
    have ht : ∀ d ∈ t.deeds, AssignsPlainly ev d := by
      rw [(call_eq_ok hcall).2]
      exact List.forall_mem_cons.mpr ⟨hplain, hr⟩
    cases directive with
    | proceed => exact ihproceed e' hothers he' h ht
    | skipChildren => exact ihskip e' hothers he' h ht
    | removeBody =>
      cases h
      exact ⟨stable_assignsPlainIn.setBody he' "", ht⟩
    | replace nodes =>
      cases h
      rw [unwraps_of_call hp hcall]
      exact ⟨he'.2, ht⟩
    | iterate items binding status =>
      cases h
      exact ⟨⟨he', hothers⟩, ht⟩
    | _ =>
      cases h
      exact ⟨trivial, ht⟩

/-- A part of a run that does not assign to directives. -/
def RunsPlainly (ev : Evaluator) (x : Running Emitted) : Prop :=
  ∀ r emitted s, x r = .ok emitted s → (∀ d ∈ r.deeds, AssignsPlainly ev d) →
    ∀ d ∈ s.deeds, AssignsPlainly ev d

theorem runsPlainly_pure (emitted : Emitted) : RunsPlainly ev (pure emitted) := by
  intro r _ s h hr
  cases h
  exact hr

theorem closed_runsPlainly (ev : Evaluator) : Running.Closed ev (RunsPlainly ev) where
  nothing := runsPlainly_pure _
  leaf _ := runsPlainly_pure _
  text content l r emitted s h hr := by
    rw [emitText_run] at h
    dsimp only at h
    split at h
    · split at h <;> cases h
      exact List.forall_mem_cons.mpr ⟨trivial, hr⟩
    · cases h
      exact hr
  andThen {x y} hx hy r emitted s h hr := by
    obtain ⟨-, hrun⟩ | ⟨first, t, second, hfirst, hsecond, rfl⟩ := Running.eq_ok_of_andThen h
    · exact hx r _ s hrun hr
    · exact hy t _ s hsecond (hx r _ t hfirst hr)
  item {x} hx f r emitted s h hr := by
    obtain ⟨t, hrun, rfl⟩ := Running.eq_ok_of_inScope h
    exact hx { r with context := f r.context.push } emitted t hrun hr

theorem RunsPlainly.around {x : Running Emitted} (hx : RunsPlainly ev x) (e : Element) :
    RunsPlainly ev (Running.around e x) := by
  intro r emitted s h hr
  obtain ⟨body, hbody, rfl⟩ := Running.eq_ok_of_around h
  exact hx r body s hbody hr

theorem runsPlainly_visit (fuel : Nat) (hpending : pending.Sublist registry.entries)
    (he : AssignsPlainIn e) : RunsPlainly ev (visit ev registry.entries fuel pending e) := by
  induction fuel generalizing pending e with
  | zero => exact fun _ _ _ h => by cases h
  | succ fuel ih =>
    intro r emitted s h hr
    obtain ⟨outcome, u, t, hsettle, hfollow, rfl⟩ := eq_ok_of_visit h
    obtain ⟨houtcome, hu⟩ := leavesPlain_of_settle hpending he hsettle hr
    have hfollows : RunsPlainly ev
        (outcome.follow ev registry.entries (visit ev registry.entries fuel)) :=
      (closed_runsPlainly ev).follow (fun _ _ => runsPlainly_pure _)
        (fun e _ hx => hx.around e) fun y hy =>
          ih (houtcome.visits hy).2 (houtcome.visits hy).1
    exact hfollows u emitted t hfollow hu

/-- Whatever the standard processors put out has no directive left in it, if no directive was
assigned to. None is assigned to in a template in which no attribute says so. -/
theorem emit_consumes {r : Registry} (hr : Registry.ofDialects [dialect] = .ok r) (ev : Evaluator)
    (nodes : List Node) (c : Context) {emitted : Emitted} {s : Run}
    (h : r.emit ev nodes { context := c } = .ok emitted s) :
    (Node.EverywhereIn AssignsPlainNode nodes → ∀ d ∈ s.deeds, AssignsPlainly ev d) ∧
      ((∀ d ∈ s.deeds, AssignsPlainly ev d) →
        ∀ e ∈ Node.elements emitted.nodes, ∀ a ∈ e.attributes,
          isDirective a.name = false ∧ ∀ p ∈ r.entries, p.target.claims a = false) := by
  obtain rfl : registry = r := Except.ok.inj (ofDialects_dialect.symm.trans hr)
  refine ⟨fun hnodes => ?_, fun hplain e he a ha => ?_⟩
  · have hruns : RunsPlainly ev (registry.emit ev nodes) :=
      (closed_runsPlainly ev).emitAll fun e he => runsPlainly_visit _ (.refl _) (.of_mem hnodes he)
    exact hruns _ emitted s h (List.forall_mem_nil _)
  · have hputs : PutsOutConsumed ev (registry.emit ev nodes) :=
      (closed_putsOutConsumed ev).emitAll fun e _ =>
        putsOutConsumed_visit _ (.refl _) (awaits_entries e)
    have hclaims (p : Entry) (hp : p ∈ registry.entries) : p.target.claims a = false :=
      claimed_eq_nil_iff.mp (hputs.consumed h hplain e he p hp) a ha
    refine ⟨Bool.eq_false_iff.mpr fun hdirective => ?_, hclaims⟩
    obtain ⟨p, hp, hclaim⟩ := isDirective_iff.mp hdirective
    exact absurd ((hclaims p hp).symm.trans hclaim) Bool.false_ne_true

/-- A repetition inside of an element that gives way to its children, with one directive in two
spellings and with assignments. -/
theorem emit_consumes_repeated :
    let directive (name value : String) : Attribute := ⟨" ", name, "=", some value, .double, {}⟩
    let element (name : String) (attributes : List Attribute) (children : List Node) : Node :=
      .element { name, attributes } children (.explicit ("</" ++ name ++ ">"))
    let nodes : List Node := [element "ul" [directive "th:remove" "tag"]
      [element "li" [directive "th:each" "x : ${xs}", directive "th:TEXT" "${x}",
        directive "DATA-th-text" "${x}", directive "th:attr" "title=${x}"] [.text "a" {}]]]
    let c : Context := { root := [("xs", .value (.array [.string "1", .string "2"]))] }
    ∃ emitted s, registry.emit .standard nodes { context := c } = .ok emitted s ∧
      (Document.mk emitted.nodes).render = "<li title=\"1\">1</li><li title=\"2\">2</li>" ∧
      Node.EverywhereIn AssignsPlainNode nodes ∧
      (∀ d ∈ s.deeds, AssignsPlainly .standard d) ∧
      ∀ e ∈ Node.elements emitted.nodes, ∀ a ∈ e.attributes, isDirective a.name = false := by
  intro directive element nodes c
  have hassigns : Node.EverywhereIn AssignsPlainNode nodes := by
    decide +kernel
  have hcheck : passes (fun emitted _ => (Document.mk emitted.nodes).render ==
      "<li title=\"1\">1</li><li title=\"2\">2</li>")
      (registry.emit .standard nodes { context := c }) = true := by
    decide +kernel
  obtain ⟨emitted, s, hrun, hrender⟩ := exists_of_passes hcheck
  obtain ⟨hplain, hconsumed⟩ := emit_consumes ofDialects_dialect .standard nodes c hrun
  exact ⟨emitted, s, hrun, eq_of_beq hrender, hassigns, hplain hassigns,
    fun e he a ha => (hconsumed (hplain hassigns) e he a ha).1⟩

end NaturalTemplate.Standard
