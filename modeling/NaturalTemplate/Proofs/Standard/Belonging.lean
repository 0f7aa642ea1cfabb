import NaturalTemplate.Proofs.Processing.Calls
import NaturalTemplate.Proofs.Standard.Switches

/-!
# Which cases belong to a switch

A case belongs to the switch that was called before it for its element, or else to the one that was
called for the nearest element around it. So every case of a run belongs to a switch, if it does not
stand outside of all.
-/
namespace NaturalTemplate
open Markup

variable {ev : Evaluator} {entries : List Entry}

namespace Standard

/-! ## Calls for one element -/

theorem calls_switch_of_case {d : Deed} (h : d.calls "case" = true) : d.calls "switch" = false := by
  cases d with
  | expanded => rfl
  | called p before result =>
    have hname : p.processor.name = "case" := beq_iff_eq.mp h
    simp [Deed.calls, hname]

/-- Of the calls for an element, and of cases inside it, the cases that belong to no switch of the
element. -/
def unswitched (inside : List Deed) : List Deed → List Deed
  | [] => inside
  | d :: calls =>
    if d.calls "switch" then []
    else if d.calls "case" then d :: unswitched inside calls
    else unswitched inside calls

theorem unswitched_sublist (inside calls : List Deed) :
    (unswitched inside calls).Sublist (calls ++ inside) := by
  induction calls with
  | nil => exact .refl _
  | cons d calls ih =>
    rw [unswitched]
    split
    · exact List.nil_sublist _
    · split
      · exact ih.cons_cons d
      · exact ih.cons d

theorem calls_of_mem_unswitched {inside : List Deed}
    (hinside : ∀ d ∈ inside, d.calls "case" = true) (calls : List Deed) :
    ∀ d ∈ unswitched inside calls, d.calls "case" = true := by
  induction calls with
  | nil => exact hinside
  | cons d calls ih =>
    rw [unswitched]
    split
    · exact List.forall_mem_nil _
    · split
      · next hcase => exact List.forall_mem_cons.mpr ⟨hcase, ih⟩
      · exact ih

/-- A case belongs to the last switch that was called before it, if there is one. -/
theorem mem_unswitched {inside calls : List Deed} {d : Deed} (hcase : d.calls "case" = true)
    (hd : d ∈ calls ++ inside) :
    d ∈ unswitched inside calls ∨
      ∃ front opening later, calls = front ++ opening :: later ∧ opening.calls "switch" = true ∧
        d ∈ unswitched inside later := by
  induction calls with
  | nil => exact .inl hd
  | cons x calls ih =>
    obtain rfl | hrest := List.mem_cons.mp hd
    · rw [unswitched, if_neg (by simp [calls_switch_of_case hcase]), if_pos hcase]
      exact .inl List.mem_cons_self
    obtain hmem | ⟨front, opening, later, rfl, hopening, hmem⟩ := ih hrest
    · by_cases hswitch : x.calls "switch" = true
      · exact .inr ⟨[], x, calls, rfl, hswitch, hmem⟩
      · rw [unswitched, if_neg hswitch]
        split
        · exact .inl (List.mem_cons_of_mem x hmem)
        · exact .inl hmem
    · exact .inr ⟨x :: front, opening, later, rfl, hopening, hmem⟩

/-! ## Calls inside each other -/

/-- Calls in two parts of a run, of which the second goes on where the first ends. -/
def thenCalls (x : Running Emitted) (first second : Run → List Deed) (r : Run) : List Deed :=
  first r ++
    match x r with
    | .ok ⟨_, none⟩ s => second s
    | _ => []

/-- The cases among nodes that belong to a switch around them, given those for an element. -/
def nodesCases (ev : Evaluator) (visit : Element → Running Emitted)
    (cases : Element → Run → List Deed) : List Node → Run → List Deed
  | [] => fun _ => []
  | n :: ns =>
    thenCalls (emitNode ev visit n)
      (match n.element? with
        | some e => cases e
        | none => fun _ => [])
      (nodesCases ev visit cases ns)

/-- The cases in a repetition that belong to a switch around it, given those for one item. -/
def itemsCases (body : Running Emitted) (cases : Run → List Deed) (binding status : String)
    (size : ℕ) : ℕ → List Value → Run → List Deed
  | _, [] => fun _ => []
  | index, item :: items =>
    let bind := Context.bindItem binding status ⟨index, size, item⟩
    thenCalls
      (Running.inScope do
        Running.changeContext bind
        body)
      (fun r => cases { r with context := bind r.context.push })
      (itemsCases body cases binding status size (index + 1) items)

section
variable {x : Running Emitted} {first second : Run → List Deed} {r s : Run} {out : List Node}
  {d : Deed}

theorem mem_thenCalls_of_first (h : d ∈ first r) : d ∈ thenCalls x first second r :=
  List.mem_append_left _ h

theorem mem_thenCalls_of_second (hx : x r = .ok ⟨out, none⟩ s) (h : d ∈ second s) :
    d ∈ thenCalls x first second r := by
  unfold thenCalls
  rw [hx]
  exact List.mem_append_right _ h

theorem mem_nodesCases {visit : Element → Running Emitted} {cases : Element → Run → List Deed}
    {before : List Node} {e : Element} (after : List Node)
    (hbefore : emitAll ev visit before r = .ok ⟨out, none⟩ s) (h : d ∈ cases e s) :
    d ∈ nodesCases ev visit cases (before ++ e.toNode :: after) r := by
  induction before generalizing r out with
  | nil =>
    cases hbefore
    exact mem_thenCalls_of_first h
  | cons n before ih =>
    rw [emitAll_cons] at hbefore
    obtain ⟨hhalt, -⟩ | ⟨front, t, ⟨back, halt⟩, hfront, hback, hout⟩ :=
      Running.eq_ok_of_andThen hbefore
    · cases hhalt
    · cases hout
      exact mem_thenCalls_of_second hfront (ih hback)

theorem mem_itemsCases {body : Running Emitted} {cases : Run → List Deed}
    {binding status : String} {size index : ℕ} {done : List Value} {item : Value}
    (rest : List Value)
    (hdone : emitItems body binding status size index done r = .ok ⟨out, none⟩ s)
    (h : d ∈ cases { s with
      context := s.context.push.bindItem binding status ⟨index + done.length, size, item⟩ }) :
    d ∈ itemsCases body cases binding status size index (done ++ item :: rest) r := by
  induction done generalizing index r out with
  | nil =>
    cases hdone
    rw [List.nil_append, itemsCases]
    exact mem_thenCalls_of_first h
  | cons value done ih =>
    obtain ⟨hhalt, -⟩ | ⟨front, t, ⟨back, halt⟩, hfront, hback, hout⟩ :=
      Running.eq_ok_of_andThen hdone
    · cases hhalt
    · cases hout
      rw [List.length_cons, Nat.add_comm done.length 1, ← Nat.add_assoc] at h
      rw [List.cons_append, itemsCases]
      exact mem_thenCalls_of_second hfront (ih hback h)

end

/-- The cases inside an element, after its processors were called, that belong to a switch of the
element or around it. -/
def insideCases (ev : Evaluator) (entries : List Entry)
    (again : List Entry → Element → Running Emitted)
    (cases : List Entry → Element → Run → List Deed) :
    EStateM.Result Failure Run Outcome → List Deed
  | .ok (.iterate e pending items binding status) s =>
    itemsCases (again pending e) (cases pending e) binding status items.length 0 items s
  | .ok outcome s => nodesCases ev (again entries) (cases entries) outcome.inside s
  | .error _ _ => []

/-- The calls for an element in its visit, the oldest first. -/
def made (ev : Evaluator) (v : Visiting) : List Deed :=
  let deeds := (finalState (v.settled ev)).deeds
  (deeds.take (deeds.length - v.start.deeds.length)).reverse

/-- The cases in the visit of an element that belong to a switch around it. -/
def visitCases (ev : Evaluator) (entries : List Entry) :
    ℕ → List Entry → Element → Run → List Deed
  | 0, _, _, _ => []
  | fuel + 1, pending, e, r =>
    let v : Visiting := ⟨fuel + 1, pending, e, r⟩
    unswitched
      (insideCases ev entries (visit ev entries fuel) (visitCases ev entries fuel) (v.settled ev))
      (made ev v)

/-- The cases that belong to a switch, given the calls for its element that come after it. -/
def casesOf (ev : Evaluator) (entries : List Entry) (v : Visiting) (later : List Deed) :
    List Deed :=
  unswitched
    (insideCases ev entries (visit ev entries (v.fuel - 1)) (visitCases ev entries (v.fuel - 1))
      (v.settled ev))
    later

theorem made_eq {v : Visiting} {calls : List Deed} (h : v.Calls ev calls) : made ev v = calls := by
  unfold made
  rw [h.deeds]
  simp

/-! ## Every case belongs to a switch -/

/-- Whether a case belongs to a switch that was called in one of some visits. -/
inductive Belongs (ev : Evaluator) (entries : List Entry) (visits : Visiting → Prop) (d : Deed) :
    Prop where
  | intro {v : Visiting} {front later : List Deed} {opening : Deed} (hvisit : visits v)
    (hcalls : v.Calls ev (front ++ opening :: later)) (hopening : opening.calls "switch" = true)
    (hd : d ∈ casesOf ev entries v later)

theorem Belongs.mono {visits visits' : Visiting → Prop} {d : Deed}
    (h : Belongs ev entries visits d) (hvisits : ∀ v, visits v → visits' v) :
    Belongs ev entries visits' d := by
  obtain ⟨hvisit, hcalls, hopening, hd⟩ := h
  exact .intro (hvisits _ hvisit) hcalls hopening hd

/-- Every case that is recorded in a visit belongs to a switch around the element, or to one that
was called in the visit. -/
theorem adds_belonging (v : Visiting) :
    Adds
      (fun d => d.calls "case" = true →
        d ∈ visitCases ev entries v.fuel v.pending v.element v.start ∨
          Belongs ev entries (Visiting.Makes ev entries v) d)
      v.start (v.emitted ev entries) := by
  obtain ⟨fuel, pending, e, start⟩ := v
  induction fuel generalizing pending e start with
  | zero => exact .of_eq rfl
  | succ fuel ih =>
    let v : Visiting := ⟨fuel + 1, pending, e, start⟩
    obtain ⟨calls, hcalls⟩ := Visiting.exists_calls ev (v := v) (Nat.succ_ne_zero fuel)
    let inside := insideCases ev entries (visit ev entries fuel) (visitCases ev entries fuel)
      (v.settled ev)
    let Found (d : Deed) : Prop := d.calls "case" = true →
      d ∈ calls ++ inside ∨ Belongs ev entries (Visiting.Makes ev entries v) d
    have hall : Adds Found start (visit ev entries (fuel + 1) pending e start) := by
      have hinner {others : List Entry} {x : Element} {t : Run}
          (h : Visiting.Clones ev entries v ⟨fuel, others, x, t⟩ ∨
            Visiting.Inside ev entries v ⟨fuel, others, x, t⟩)
          (hmem : ∀ d ∈ visitCases ev entries fuel others x t, d ∈ inside) :
          Adds Found t (visit ev entries fuel others x t) := by
        refine (ih others x t).mono fun d hd hcase => ?_
        obtain hd | hd := hd hcase
        · exact .inl (List.mem_append_right _ (hmem d hd))
        · exact .inr (hd.mono fun w hw => .trans (.single h) hw)
      rw [visit_succ]
      refine .inScope (.bind ?_ fun outcome s hsettled => ?_)
      · refine ⟨calls.reverse, hcalls.deeds, fun d hd _ => .inl ?_⟩
        exact List.mem_append_left _ (List.mem_reverse.mp hd)
      · have hsettled' : v.settled ev = .ok outcome s := hsettled
        refine adds_follow (fun _ h => by cases h) (fun before x after first t hnodes hbefore => ?_)
          ?_
        · refine hinner (.inr (.intro rfl rfl hsettled hnodes hbefore)) fun d hd => ?_
          have hmem : d ∈ nodesCases ev _ (visitCases ev entries fuel entries) _ _ :=
            mem_nodesCases after hbefore hd
          rw [← hnodes] at hmem
          simp only [inside, hsettled']
          cases outcome with
          | iterate => cases before <;> cases hnodes
          | _ => exact hmem
        · rintro e' others done item rest binding status first t rfl hdone
          refine hinner (.inl (.intro rfl hsettled hdone rfl)) fun d hd => ?_
          simp only [inside, hsettled']
          exact mem_itemsCases rest hdone (by rw [Nat.zero_add]; exact hd)
    refine hall.mono fun d hd hcase => ?_
    obtain hd | hd := hd hcase
    · obtain hd | ⟨front, opening, later, rfl, hopening, hd⟩ := mem_unswitched hcase hd
      · left
        rw [visitCases, made_eq hcalls]
        exact hd
      · exact .inr (.intro .refl hcalls hopening hd)
    · exact .inr hd

/-- Every case of a run belongs to a switch that is called in it, or stands outside of all. -/
theorem belongs_of_mem_deeds {r : Registry} {nodes : List Node} {c : Context} {d : Deed}
    (hd : d ∈ (finalState (r.emit ev nodes { context := c })).deeds)
    (hcase : d.calls "case" = true) :
    d ∈ nodesCases ev (fun e => visit ev r.entries (r.fuel e) r.entries e)
        (fun e => visitCases ev r.entries (r.fuel e) r.entries e) nodes { context := c } ∨
      Belongs ev r.entries (r.Makes ev nodes { context := c }) d := by
  let outside := nodesCases ev (fun e => visit ev r.entries (r.fuel e) r.entries e)
    (fun e => visitCases ev r.entries (r.fuel e) r.entries e) nodes { context := c }
  have hadds : Adds (fun d => d.calls "case" = true →
      d ∈ outside ∨ Belongs ev r.entries (r.Makes ev nodes { context := c }) d)
      { context := c } (r.emit ev nodes { context := c }) := by
    refine adds_emitAll (fun _ h => by cases h) fun before e after first s hnodes hbefore => ?_
    refine (adds_belonging ⟨r.fuel e, r.entries, e, s⟩).mono fun d hd hcase => ?_
    obtain hd | hd := hd hcase
    · left
      simp only [outside, hnodes]
      exact mem_nodesCases after hbefore hd
    · exact .inr (hd.mono fun v hv => .intro hnodes hbefore hv)
  obtain ⟨new, hnew, hall⟩ := hadds
  rw [hnew, List.append_nil] at hd
  exact hall d hd hcase

end Standard
end NaturalTemplate
