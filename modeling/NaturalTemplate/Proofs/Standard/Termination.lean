import NaturalTemplate.Proofs.Processing.Visits
import NaturalTemplate.Proofs.Standard.Stable

/-!
# The standard processors come to an end

A standard processor never adds an element to those that it is called for: it leaves the children,
takes some of them away, sets a text in their place, or puts them in the place of the element. So a
visit leads to visits of fewer elements, and to visits of the same element for the items of a
repetition, where a processor less is pending. No visit leads to others forever, and the fuel of a
run is never used up.
-/
namespace NaturalTemplate
open Markup

/-- The number of elements in an element, with itself. -/
def Markup.Element.count (e : Element) : Nat := (Node.elements [e.toNode]).length

theorem Markup.Element.count_eq (e : Element) :
    e.count = (Node.elements e.children).length + 1 := by
  rw [count, Node.elements_toNode, List.length_cons]

theorem Markup.Element.count_le_of_mem {e : Element} {nodes : List Node}
    (h : e ∈ nodes.filterMap Node.element?) : e.count ≤ (Node.elements nodes).length := by
  obtain ⟨n, hn, he⟩ := List.mem_filterMap.mp h
  obtain rfl := Node.eq_toNode_of_element? he
  exact (Node.elements_sublist_of_mem hn).length_le

namespace Standard

variable {ev : Evaluator}

/-! ## Calls -/

/-- The same element with no other elements in it than before. -/
structure Shrunk (e e' : Element) : Prop where
  name : e'.name = e.name
  location : e'.location = e.location
  elements : (Node.elements e'.children).Sublist (Node.elements e.children)

theorem Shrunk.trans {e e' e'' : Element} (h : Shrunk e e') (h' : Shrunk e' e'') : Shrunk e e'' :=
  ⟨h'.name.trans h.name, h'.location.trans h.location, h'.elements.trans h.elements⟩

theorem location_setChildren (e : Element) (children : List Node) :
    (e.setChildren children).location = e.location := by
  unfold Element.setChildren Element.openBody
  split
  · rfl
  · split <;> rfl

theorem stable_shrunk (e : Element) : Stable Set.univ (Shrunk e) where
  setAttribute h _ _ _ := ⟨h.name, h.location, h.elements⟩
  removeAttribute h _ _ := ⟨h.name, h.location, h.elements⟩
  setBody {e'} h body := by
    refine ⟨(name_setChildren _ _).trans h.name, (location_setChildren _ _).trans h.location, ?_⟩
    rw [children_setChildren, elements_bodyNodes]
    exact List.nil_sublist _
  keepFirstElement {e'} h := by
    refine ⟨h.name, h.location, List.Sublist.trans ?_ h.elements⟩
    exact Node.elements_sublist (keepFirstElement_sublist e'.children)

/-- A standard processor that is called for an element leaves the same element with no other
elements in it. -/
theorem shrunk_of_call {p : Entry} (hp : p ∈ registry.entries) {e e' : Element} {r s : Run}
    {directive : Directive} (h : p.call ev e r = .ok (directive, e') s) :
    Shrunk e e' := by
  have hrest : Shrunk e (takeAttributes e (p.target.claimed e)).2 := by
    rw [takeAttributes_claimed]
    exact ⟨rfl, rfl, .refl _⟩
  exact ((stable_shrunk e).of_call hp (fun _ _ => trivial) (fun _ _ _ _ _ _ _ => trivial) h
    hrest).1

/-! ## Visits -/

/-- What the processors of an element leave to be visited inside: fewer elements, or the same one
again with fewer processors. -/
def Shrinks (pending : List Entry) (e : Element) : Outcome → Prop
  | .keep e' _ => Shrunk e e'
  | .splice nodes => (Node.elements nodes).Sublist (Node.elements e.children)
  | .iterate e' others _ _ _ =>
    Shrunk e e' ∧ others.Sublist pending ∧ others.length < pending.length
  | .drop | .halt _ => True

theorem Shrinks.trans {pending others : List Entry} {e e' : Element} {outcome : Outcome}
    (h : Shrinks others e' outcome) (he : Shrunk e e') (hothers : others.Sublist pending) :
    Shrinks pending e outcome := by
  cases outcome with
  | keep => exact he.trans h
  | splice => exact List.Sublist.trans h he.elements
  | iterate =>
    exact ⟨he.trans h.1, h.2.1.trans hothers, Nat.lt_of_lt_of_le h.2.2 hothers.length_le⟩
  | _ => trivial

theorem shrinks_of_settle {pending : List Entry} (hpending : pending.Sublist registry.entries)
    {children : Bool} {e : Element} {r s : Run} {outcome : Outcome}
    (h : settle ev pending children e r = .ok outcome s) : Shrinks pending e outcome := by
  induction pending, children, e using settle.induct generalizing r with
  | case1 pending children e hnext =>
    rw [settle_of_next?_eq_none hnext] at h
    cases h
    exact ⟨rfl, rfl, .refl _⟩
  | case2 pending children e p others hnext ihproceed ihskip =>
    have hsub := Entry.sublist_of_next? hnext
    rw [settle_of_next? hnext] at h
    obtain ⟨⟨directive, e'⟩, t, hcall, h⟩ := eq_ok_of_bind h
    have hp := hpending.subset (Entry.mem_of_next? hnext).1
    have hshrunk := shrunk_of_call hp hcall
    cases directive with
    | proceed => exact (ihproceed e' (hsub.trans hpending) h).trans hshrunk hsub
    | skipChildren => exact (ihskip e' (hsub.trans hpending) h).trans hshrunk hsub
    | removeBody =>
      cases h
      exact hshrunk.trans ((stable_shrunk e').setBody ⟨rfl, rfl, .refl _⟩ "")
    | replace nodes =>
      cases h
      rw [Shrinks, unwraps_of_call hp hcall]
      exact hshrunk.elements
    | iterate items binding status =>
      cases h
      exact ⟨hshrunk, hsub, Entry.length_of_next? hnext⟩
    | _ =>
      cases h
      trivial

theorem Shrunk.count_le {e e' : Element} (h : Shrunk e e') : e'.count ≤ e.count := by
  rw [e'.count_eq, e.count_eq]
  exact Nat.succ_le_succ h.elements.length_le

/-- The nodes that are processed inside a visit have fewer elements than the one that is visited. -/
theorem Shrinks.inside {pending : List Entry} {e : Element} {outcome : Outcome}
    (h : Shrinks pending e outcome) : (Node.elements outcome.inside).length < e.count := by
  rw [e.count_eq, Nat.lt_succ_iff]
  cases outcome with
  | keep e' children =>
    cases children with
    | false => simp [Outcome.inside]
    | true => exact h.elements.length_le
  | splice nodes => exact List.Sublist.length_le h
  | _ => simp [Outcome.inside]

/-- A visit inside another one is about fewer elements, or about the same one again, with fewer
processors that are pending. -/
def Descends (entries : List Entry) (y x : List Entry × Element) : Prop :=
  y.1 = entries ∧ y.2.count < x.2.count ∨
    y.2.name = x.2.name ∧ y.2.location = x.2.location ∧ y.2.count ≤ x.2.count ∧
      y.1.Sublist x.1 ∧ y.1.length < x.1.length

theorem Shrinks.descends {pending entries : List Entry} {e : Element} {outcome : Outcome}
    (h : Shrinks pending e outcome) {y : List Entry × Element}
    (hy : y ∈ outcome.visits entries) : Descends entries y (pending, e) := by
  have hinside (hy : y ∈ (outcome.inside.filterMap Node.element?).map fun e => (entries, e)) :
      Descends entries y (pending, e) := by
    obtain ⟨f, hf, rfl⟩ := List.mem_map.mp hy
    exact .inl ⟨rfl, Nat.lt_of_le_of_lt (Element.count_le_of_mem hf) h.inside⟩
  cases outcome with
  | iterate e' others items binding status =>
    obtain ⟨item, -, rfl⟩ := List.mem_map.mp hy
    obtain ⟨hshrunk, hsub, hlength⟩ := h
    exact .inr ⟨hshrunk.name, hshrunk.location, hshrunk.count_le, hsub, hlength⟩
  | _ => exact hinside hy

theorem Descends.sublist {entries : List Entry} {y x : List Entry × Element}
    (h : Descends entries y x) (hx : x.1.Sublist entries) : y.1.Sublist entries := by
  obtain ⟨hy, -⟩ | ⟨-, -, -, hsub, -⟩ := h
  · rw [hy]
  · exact hsub.trans hx

/-- What a visit takes: as many steps for each element as there are processors, and one more for
each that is pending. -/
def need (entries pending : List Entry) (e : Element) : Nat :=
  e.count * (entries.length + 1) + pending.length

theorem Descends.need_lt {entries : List Entry} {y x : List Entry × Element}
    (h : Descends entries y x) : need entries y.1 y.2 < need entries x.1 x.2 := by
  unfold need
  obtain ⟨hy, hcount⟩ | ⟨-, -, hcount, -, hlength⟩ := h
  · have hfewer := Nat.mul_le_mul_right (entries.length + 1) (Nat.succ_le_of_lt hcount)
    rw [Nat.succ_mul] at hfewer
    rw [hy]
    omega
  · have hsame := Nat.mul_le_mul_right (entries.length + 1) hcount
    omega

/-- Whether a visit makes another one inside. -/
def Leads (ev : Evaluator) (entries : List Entry) (y x : List Entry × Element) : Prop :=
  ∃ r outcome s, settle ev x.1 true x.2 r = .ok outcome s ∧ y ∈ outcome.visits entries

theorem Leads.descends {y x : List Entry × Element} (h : Leads ev registry.entries y x)
    (hx : x.1.Sublist registry.entries) : Descends registry.entries y x := by
  obtain ⟨r, outcome, s, hsettle, hy⟩ := h
  exact (shrinks_of_settle hx hsettle).descends hy

theorem wellFounded_leads (ev : Evaluator) :
    WellFounded fun y x : List Entry × Element =>
      x.1.Sublist registry.entries ∧ Leads ev registry.entries y x := by
  refine Subrelation.wf ?_ (measure fun x => need registry.entries x.1 x.2).wf
  rintro y x ⟨hx, hleads⟩
  exact (hleads.descends hx).need_lt

/-- More fuel than a visit takes makes no difference. -/
theorem visit_eq {fuel fuel' : Nat} {pending : List Entry} {e : Element}
    (hpending : pending.Sublist registry.entries)
    (hfuel : need registry.entries pending e < fuel)
    (hfuel' : need registry.entries pending e < fuel') :
    visit ev registry.entries fuel pending e = visit ev registry.entries fuel' pending e := by
  induction fuel generalizing fuel' pending e with
  | zero => exact absurd hfuel (Nat.not_lt_zero _)
  | succ fuel ih =>
    -- Both amounts suffice for the visits inside, as each of these takes less.
    obtain ⟨fuel', rfl⟩ := Nat.exists_eq_succ_of_ne_zero (Nat.ne_zero_of_lt hfuel')
    rw [visit_succ, visit_succ]
    refine congrArg Running.inScope (bind_congr_of_ok fun r outcome s hsettle => ?_)
    rw [Outcome.follow_congr fun y hy => ?_]
    have hdescends := (shrinks_of_settle hpending hsettle).descends hy
    have hneed := hdescends.need_lt
    refine ih (hdescends.sublist hpending) ?_ ?_ <;> simp only at hneed <;> omega

/-- Visits an element with the fuel that it takes. -/
def visitFully (ev : Evaluator) (pending : List Entry) (e : Element) : Running Emitted :=
  visit ev registry.entries (need registry.entries pending e + 1) pending e

theorem visitFully_eq {pending : List Entry} (hpending : pending.Sublist registry.entries)
    (e : Element) :
    visitFully ev pending e =
      Running.inScope
        (settle ev pending true e >>= Outcome.follow ev registry.entries (visitFully ev)) := by
  rw [visitFully, visit_succ]
  refine congrArg Running.inScope (bind_congr_of_ok fun r outcome s hsettle => ?_)
  rw [Outcome.follow_congr fun y hy => ?_]
  have hdescends := (shrinks_of_settle hpending hsettle).descends hy
  exact visit_eq (hdescends.sublist hpending) hdescends.need_lt (Nat.lt_succ_self _)

/-! ## The fuel suffices -/

/-- A part of a run that does not fail for want of fuel. -/
def Completes {α : Type} (x : Running α) : Prop := ∀ r s, x r ≠ .error .tooDeep s

theorem Completes.bind_of {α β : Type} {x : Running α} {f : α → Running β} (hx : Completes x)
    (hf : ∀ r a s, x r = .ok a s → ∀ t, f a s ≠ .error .tooDeep t) : Completes (x >>= f) := by
  intro r t
  show EStateM.bind x f r ≠ _
  unfold EStateM.bind
  cases h : x r with
  | ok a s => exact hf r a s h t
  | error failure s =>
    intro hfailure
    cases hfailure
    exact hx r _ h

theorem Completes.inScope {α : Type} {x : Running α} (hx : Completes x) :
    Completes (Running.inScope x) := by
  intro r s h
  rw [Running.inScope_run] at h
  split at h
  · cases h
  · next failure t hrun =>
    cases h
    exact hx _ _ hrun

theorem completes_pure {α : Type} (a : α) : Completes (pure a) := fun _ _ => nofun

theorem completes_settle (pending : List Entry) (children : Bool) (e : Element) :
    Completes (settle ev pending children e) := by
  induction pending, children, e using settle.induct with
  | case1 pending children e hnext =>
    rw [settle_of_next?_eq_none hnext]
    exact completes_pure _
  | case2 pending children e p others hnext ihproceed ihskip =>
    have hcall : Completes (p.call ev e) := by
      intro r s h
      rw [Entry.call_run] at h
      split at h <;> cases h
    rw [settle_of_next? hnext]
    refine hcall.bind_of fun r a s _ => ?_
    obtain ⟨directive, e'⟩ := a
    cases directive with
    | proceed => exact ihproceed e' s
    | skipChildren => exact ihskip e' s
    | _ => exact completes_pure _ s

theorem closed_completes (ev : Evaluator) : Running.Closed ev Completes where
  nothing := completes_pure _
  leaf _ := completes_pure _
  text content l := by
    intro r s
    rw [emitText_run]
    dsimp only
    split
    · split <;> exact nofun
    · exact nofun
  andThen {x y} hx hy := by
    refine hx.bind_of fun r first s _ => ?_
    split
    · exact completes_pure first s
    · exact (hy.bind_of fun _ _ _ _ => completes_pure _ _) s
  item {x} hx f := Completes.inScope fun r s => hx { r with context := f r.context } s

theorem completes_visit {fuel : Nat} {pending : List Entry} {e : Element}
    (hpending : pending.Sublist registry.entries)
    (hfuel : need registry.entries pending e < fuel) :
    Completes (visit ev registry.entries fuel pending e) := by
  induction fuel generalizing pending e with
  | zero => exact absurd hfuel (Nat.not_lt_zero _)
  | succ fuel ih =>
    rw [visit_succ]
    refine Completes.inScope ((completes_settle pending true e).bind_of ?_)
    intro r outcome s hsettle
    refine (closed_completes ev).follow (fun _ _ => completes_pure _) (fun e x hx => ?_)
      (fun y hy => ?_) s
    · exact hx.bind_of fun _ _ _ _ => completes_pure _ _
    · have hdescends := (shrinks_of_settle hpending hsettle).descends hy
      have hneed := hdescends.need_lt
      exact ih (hdescends.sublist hpending) (by simp only at hneed; omega)

theorem need_lt_fuel (e : Element) :
    need registry.entries registry.entries e < registry.fuel e := by
  have hcount : e.count ≤ e.toNode.size := Node.length_elements_le [e.toNode]
  have hfactor := Nat.mul_le_mul_right (registry.entries.length + 1) hcount
  simp only [need, Registry.fuel, Registry.size, Nat.succ_mul, Registry.insertionDepth]
  omega

/-- Processing with the standard processors comes to an end. The nodes inside a visit have fewer
elements, and a visit inside it is about fewer elements, or about the same one with fewer processors
that are pending, so no visit leads to others forever. Visits therefore make sense without fuel, and
the fuel of a run is enough for them. -/
theorem emit_terminates {r : Registry} (hr : Registry.ofDialects [dialect] = .ok r)
    (ev : Evaluator) :
    (∀ pending e run outcome s, pending.Sublist r.entries →
      settle ev pending true e run = .ok outcome s →
        (Node.elements outcome.inside).length < e.count ∧
          ∀ y ∈ outcome.visits r.entries, Descends r.entries y (pending, e)) ∧
      (WellFounded fun y x : List Entry × Element =>
        x.1.Sublist r.entries ∧ Leads ev r.entries y x) ∧
      ∃ process : List Entry → Element → Running Emitted,
        (∀ pending e, pending.Sublist r.entries → process pending e =
          Running.inScope (settle ev pending true e >>= Outcome.follow ev r.entries process)) ∧
          (∀ nodes, r.emit ev nodes = emitAll ev (process r.entries) nodes) ∧
            ∀ nodes run s, r.emit ev nodes run ≠ .error .tooDeep s := by
  obtain rfl : registry = r := Except.ok.inj (ofDialects_dialect.symm.trans hr)
  refine ⟨fun pending e run outcome s hpending hsettle => ?_, wellFounded_leads ev, visitFully ev,
    fun pending e hpending => visitFully_eq hpending e, fun nodes => ?_, fun nodes => ?_⟩
  · have hshrinks := shrinks_of_settle hpending hsettle
    exact ⟨hshrinks.inside, fun y hy => hshrinks.descends hy⟩
  · exact emitAll_congr fun e _ => visit_eq (.refl _) (need_lt_fuel e) (Nat.lt_succ_self _)
  · exact (closed_completes ev).emitAll fun e _ => completes_visit (.refl _) (need_lt_fuel e)

/-- A repetition of an element that leaves its children to the place where it stands. -/
theorem emit_terminates_block :
    let attributes : List Attribute := [⟨" ", "th:each", "=", some "x : ${xs}", .double, {}⟩]
    let e : Element := ⟨{ name := "th:block", attributes }, [.text "a" {}], .explicit "</th:block>"⟩
    Registry.ofDialects [dialect] = .ok registry ∧
      (∀ y, Leads .standard registry.entries y (registry.entries, e) →
        Descends registry.entries y (registry.entries, e)) ∧
      (∀ run s, registry.emit .standard [e.toNode] run ≠ .error .tooDeep s) := by
  intro attributes e
  obtain ⟨hvisits, -, process, -, -, hfuel⟩ := emit_terminates ofDialects_dialect .standard
  refine ⟨ofDialects_dialect, ?_, hfuel [e.toNode]⟩
  rintro y ⟨run, outcome, s, hsettle, hy⟩
  exact (hvisits _ e run outcome s (.refl _) hsettle).2 y hy

end Standard
end NaturalTemplate
