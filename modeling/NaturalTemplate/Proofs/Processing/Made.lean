import Mathlib.Logic.Relation
import NaturalTemplate.Proofs.Processing.Halting

/-!
# The visits of a run

A run makes visits of elements inside each other: of the children of an element, of the nodes that
take its place, and of its clones when it is repeated. Each visit calls the processors of its
element before all else, and every call that a run records was made in one of its visits.
-/
namespace NaturalTemplate
open Markup

variable {ev : Evaluator} {entries : List Entry}

/-- A visit of an element: what it is made with, and the run as it begins. -/
structure Visiting where
  fuel : ℕ
  pending : List Entry
  element : Element
  start : Run

namespace Visiting

/-- What the processors make of the element, in a scope of its own. -/
def settled (ev : Evaluator) (v : Visiting) : EStateM.Result Failure Run Outcome :=
  settle ev v.pending true v.element { v.start with context := v.start.context.push }

def emitted (ev : Evaluator) (entries : List Entry) (v : Visiting) :
    EStateM.Result Failure Run Emitted :=
  visit ev entries v.fuel v.pending v.element v.start

/-- Whether these calls are made for the element, the oldest first. -/
structure Calls (ev : Evaluator) (v : Visiting) (calls : List Deed) : Prop where
  fuel : v.fuel ≠ 0
  deeds : (finalState (v.settled ev)).deeds = calls.reverse ++ v.start.deeds

/-- Whether a visit makes another one for a clone of its element, after those for the items before
it. The clone is left to the processors that were not called yet. -/
inductive Clones (ev : Evaluator) (entries : List Entry) (v w : Visiting) : Prop where
  | intro {s t : Run} {first : List Node} {done rest : List Value} {item : Value}
    {binding status : String} (hfuel : v.fuel = w.fuel + 1)
    (hsettled : v.settled ev =
      .ok (.iterate w.element w.pending (done ++ item :: rest) binding status) s)
    (hdone : emitItems (visit ev entries w.fuel w.pending w.element) binding status
      (done ++ item :: rest).length 0 done s = .ok ⟨first, none⟩ t)
    (hstart : w.start = { t with
      context := t.context.push.bindItem binding status
        ⟨done.length, (done ++ item :: rest).length, item⟩ })

/-- Whether a visit makes another one, after those of the nodes before it, for an element inside its
own or among the nodes that take its place. All processors are called for such an element. -/
inductive Inside (ev : Evaluator) (entries : List Entry) (v w : Visiting) : Prop where
  | intro {outcome : Outcome} {s : Run} {first before after : List Node}
    (hfuel : v.fuel = w.fuel + 1) (hpending : w.pending = entries)
    (hsettled : v.settled ev = .ok outcome s)
    (hnodes : outcome.inside = before ++ w.element.toNode :: after)
    (hbefore : emitAll ev (visit ev entries w.fuel entries) before s =
      .ok ⟨first, none⟩ w.start)

/-- Whether a visit makes another one, at any depth. -/
def Makes (ev : Evaluator) (entries : List Entry) : Visiting → Visiting → Prop :=
  Relation.ReflTransGen fun v w => Clones ev entries v w ∨ Inside ev entries v w

end Visiting

/-- Whether processing nodes makes a visit, at any depth. -/
inductive Registry.Makes (r : Registry) (ev : Evaluator) (nodes : List Node) (start : Run)
    (v : Visiting) : Prop where
  | intro {e : Element} {s : Run} {first before after : List Node}
    (hnodes : nodes = before ++ e.toNode :: after)
    (hbefore : r.emit ev before start = .ok ⟨first, none⟩ s)
    (hmakes : Visiting.Makes ev r.entries ⟨r.fuel e, r.entries, e, s⟩ v)

/-! ## What is added to the record -/

/-- Whether all that a part of a run adds to the record is of some kind. -/
def Adds {α : Type} (Q : Deed → Prop) (r : Run) (result : EStateM.Result Failure Run α) : Prop :=
  ∃ new, (finalState result).deeds = new ++ r.deeds ∧ ∀ d ∈ new, Q d

namespace Adds

variable {α β : Type} {Q R : Deed → Prop} {r : Run}

theorem mono {result : EStateM.Result Failure Run α} (h : Adds Q r result)
    (hQR : ∀ d, Q d → R d) : Adds R r result := by
  obtain ⟨new, hnew, hQ⟩ := h
  exact ⟨new, hnew, fun d hd => hQR d (hQ d hd)⟩

theorem suffix {result : EStateM.Result Failure Run α} (h : Adds Q r result) :
    r.deeds <:+ (finalState result).deeds := by
  obtain ⟨new, hnew, -⟩ := h
  exact ⟨new, hnew.symm⟩

theorem of_suffix {result : EStateM.Result Failure Run α}
    (h : r.deeds <:+ (finalState result).deeds) : Adds (fun _ => True) r result := by
  obtain ⟨new, hnew⟩ := h
  exact ⟨new, hnew.symm, fun _ _ => trivial⟩

theorem of_eq {result : EStateM.Result Failure Run α} (h : (finalState result).deeds = r.deeds) :
    Adds Q r result :=
  ⟨[], h, List.forall_mem_nil _⟩

/-- What is added first, and then what is added after it. -/
theorem trans {x : EStateM.Result Failure Run α} {y : EStateM.Result Failure Run β}
    (hx : Adds Q r x) (hy : Adds Q (finalState x) y) : Adds Q r y := by
  obtain ⟨old, hold, hQold⟩ := hx
  obtain ⟨new, hnew, hQnew⟩ := hy
  refine ⟨new ++ old, ?_, List.forall_mem_append.mpr ⟨hQnew, hQold⟩⟩
  rw [hnew, hold, List.append_assoc]

theorem bind {x : Running α} {f : α → Running β} (hx : Adds Q r (x r))
    (hf : ∀ a s, x r = .ok a s → Adds Q s (f a s)) : Adds Q r ((x >>= f) r) := by
  show Adds Q r (EStateM.bind x f r)
  unfold EStateM.bind
  cases hrun : x r with
  | error failure s =>
    rw [hrun] at hx
    exact hx
  | ok a s =>
    rw [hrun] at hx
    exact hx.trans (hf a s hrun)

/-- What is added by two steps is added by the first, or by the second after it. -/
theorem of_bind {x : Running α} {f : α → Running β} (h : Adds Q r ((x >>= f) r))
    (hx : r.deeds <:+ (finalState (x r)).deeds)
    (hf : ∀ a s, x r = .ok a s → s.deeds <:+ (finalState (f a s)).deeds) :
    Adds Q r (x r) ∧ ∀ a s, x r = .ok a s → Adds Q s (f a s) := by
  cases hrun : x r with
  | error failure s =>
    rw [bind_of_eq_error hrun] at h
    exact ⟨h, fun _ _ h => by cases h⟩
  | ok a s =>
    rw [hrun] at hx
    obtain ⟨old, hold⟩ := hx
    obtain ⟨later, hlater⟩ := hf a s hrun
    obtain ⟨new, hnew, hQ⟩ := h
    have hall : new ++ r.deeds = (later ++ old) ++ r.deeds := by
      rw [bind_of_eq_ok hrun] at hnew
      rw [← hnew, ← hlater, List.append_assoc]
      exact congrArg _ hold.symm
    obtain rfl := List.append_cancel_right hall
    obtain ⟨hQlater, hQold⟩ := List.forall_mem_append.mp hQ
    refine ⟨⟨old, hold.symm, hQold⟩, fun _ _ h => ?_⟩
    cases h
    exact ⟨later, hlater.symm, hQlater⟩

theorem andThen {x y : Running Emitted} (hx : Adds Q r (x r))
    (hy : ∀ first s, x r = .ok ⟨first, none⟩ s → Adds Q s (y s)) :
    Adds Q r (Running.andThen x y r) := by
  refine hx.bind fun first s hrun => ?_
  obtain ⟨nodes, halt⟩ := first
  cases halt with
  | none => exact (hy nodes s hrun).bind fun _ _ _ => .of_eq rfl
  | some halt => exact .of_eq rfl

theorem inScope {x : Running α} (hx : Adds Q r (x { r with context := r.context.push })) :
    Adds Q r (Running.inScope x r) := by
  rw [Running.inScope_run]
  cases hrun : x { r with context := r.context.push } <;> rw [hrun] at hx <;> exact hx

end Adds

section
variable {Q : Deed → Prop}

theorem adds_emitText (hQ : ∀ text, Q (.expanded text)) (content : String) (l : Location)
    (r : Run) : Adds Q r (emitText ev content l r) := by
  rw [emitText_run]
  dsimp only
  split
  · cases Inline.expand? ev content (r.context.touch Context.inliningName) with
    | mk result c =>
      cases result <;> exact ⟨[.expanded content], rfl, List.forall_mem_singleton.mpr (hQ _)⟩
  · exact .of_eq rfl

/-- A call adds itself to the record. -/
theorem exists_of_adds_call {p : Entry} {e : Element} {r : Run}
    (h : Adds Q r (p.call ev e r)) : ∃ result, Q (.called p ⟨e, r.context⟩ result) := by
  obtain ⟨result, hdeeds⟩ : ∃ result, (finalState (p.call ev e r)).deeds =
      [.called p ⟨e, r.context⟩ result] ++ r.deeds := by
    rw [Entry.call_run]
    split
    · exact ⟨_, rfl⟩
    · exact ⟨_, rfl⟩
  obtain ⟨new, hnew, hQ⟩ := h
  have hsingle := List.append_cancel_right (hnew.symm.trans hdeeds)
  exact ⟨result, hQ _ (hsingle ▸ List.mem_singleton.mpr rfl)⟩

theorem suffix_answered (others : List Entry) (children : Bool) (l : Location)
    (answer : Directive × Element) (r : Run) :
    r.deeds <:+ (finalState (answered ev others children l answer r)).deeds := by
  obtain ⟨directive, e⟩ := answer
  cases directive with
  | proceed => exact (traced_settle others children e).suffix r
  | skipChildren => exact (traced_settle others false e).suffix r
  | _ => exact List.suffix_rfl

/-- Nodes add what the visits of the elements among them add, each of these made after the nodes
before it. -/
theorem adds_emitAll (hQ : ∀ text, Q (.expanded text)) {visit : Element → Running Emitted}
    {nodes : List Node} {r : Run}
    (hvisit : ∀ before e after first s, nodes = before ++ Element.toNode e :: after →
      emitAll ev visit before r = .ok ⟨first, none⟩ s → Adds Q s (visit e s)) :
    Adds Q r (emitAll ev visit nodes r) := by
  induction nodes generalizing r with
  | nil => exact .of_eq rfl
  | cons n nodes ih =>
    rw [emitAll_cons]
    refine .andThen ?_ fun first s hfirst => ih fun before e after first' t hnodes hbefore => ?_
    · cases n with
      | element tag children endTag => exact hvisit [] ⟨tag, children, endTag⟩ nodes [] r rfl rfl
      | text content l => exact adds_emitText hQ content l r
      | _ => exact .of_eq rfl
    · refine hvisit (n :: before) e after (first ++ first') t (by rw [hnodes]; rfl) ?_
      rw [emitAll_cons, Running.andThen_of_eq_ok hfirst, hbefore]

/-- A repetition adds what is added for its items, for each of these after those before it. -/
theorem adds_emitItems {body : Running Emitted} {binding status : String} {size index : ℕ}
    {items : List Value} {r : Run}
    (hbody : ∀ done item rest first s, items = done ++ item :: rest →
      emitItems body binding status size index done r = .ok ⟨first, none⟩ s →
      let t : Run := { s with
        context := s.context.push.bindItem binding status ⟨index + done.length, size, item⟩ }
      Adds Q t (body t)) :
    Adds Q r (emitItems body binding status size index items r) := by
  induction items generalizing index r with
  | nil => exact .of_eq rfl
  | cons item items ih =>
    refine .andThen (.inScope (hbody [] item items [] r rfl rfl)) fun first s hfirst => ih ?_
    intro done item' rest first' t hitems hdone
    have hcons := hbody (item :: done) item' rest (first ++ first') t (by rw [hitems]; rfl) (by
      rw [emitItems, Running.andThen_of_eq_ok hfirst, hdone])
    rw [List.length_cons, Nat.add_comm done.length 1, ← Nat.add_assoc] at hcons
    exact hcons

/-- What follows for an element adds what is added by the visits that are made then. -/
theorem adds_follow (hQ : ∀ text, Q (.expanded text)) {outcome : Outcome}
    {again : List Entry → Element → Running Emitted} {r : Run}
    (hinside : ∀ before e after first s, outcome.inside = before ++ Element.toNode e :: after →
      emitAll ev (again entries) before r = .ok ⟨first, none⟩ s → Adds Q s (again entries e s))
    (hclones : ∀ e others done item rest binding status first s,
      outcome = .iterate e others (done ++ item :: rest) binding status →
      emitItems (again others e) binding status (done ++ item :: rest).length 0 done r =
        .ok ⟨first, none⟩ s →
      let t : Run := { s with
        context := s.context.push.bindItem binding status
          ⟨done.length, (done ++ item :: rest).length, item⟩ }
      Adds Q t (again others e t)) :
    Adds Q r (outcome.follow ev entries again r) := by
  cases outcome with
  | keep e children =>
    cases children with
    | false => exact .of_eq rfl
    | true => exact (adds_emitAll hQ hinside).bind fun _ _ _ => .of_eq rfl
  | splice nodes => exact adds_emitAll hQ hinside
  | iterate e others items binding status =>
    refine adds_emitItems fun done item rest first s hitems hdone => ?_
    subst hitems
    rw [Nat.zero_add]
    exact hclones e others done item rest binding status first s rfl hdone
  | drop | halt => exact .of_eq rfl

end

/-! ## Every call is made in a visit -/

/-- Whether a call was made in a visit that a visit makes. -/
def Visiting.Explains (ev : Evaluator) (entries : List Entry) (v : Visiting) (d : Deed) : Prop :=
  ∀ p before result, d = .called p before result →
    ∃ w calls, Visiting.Makes ev entries v w ∧ w.Calls ev calls ∧ d ∈ calls

theorem Visiting.exists_calls (ev : Evaluator) {v : Visiting} (hfuel : v.fuel ≠ 0) :
    ∃ calls, v.Calls ev calls := by
  have htraced : Traced Outcome.halt? (settle ev v.pending true v.element) := traced_settle _ _ _
  obtain ⟨new, hnew, -⟩ := htraced { v.start with context := v.start.context.push }
  exact ⟨new.reverse, hfuel, by rw [List.reverse_reverse]; exact hnew⟩

theorem Visiting.Explains.of_makes {v w : Visiting} {d : Deed} (h : w.Explains ev entries d)
    (hmakes : Visiting.Makes ev entries v w) : v.Explains ev entries d := by
  intro p before result hd
  obtain ⟨u, calls, hu, hcalls, hmem⟩ := h p before result hd
  exact ⟨u, calls, hmakes.trans hu, hcalls, hmem⟩

theorem Visiting.adds_explained (v : Visiting) :
    Adds (v.Explains ev entries) v.start (v.emitted ev entries) := by
  obtain ⟨fuel, pending, e, start⟩ := v
  induction fuel generalizing pending e start with
  | zero => exact .of_eq rfl
  | succ fuel ih =>
    let v : Visiting := ⟨fuel + 1, pending, e, start⟩
    have htext (text : String) : v.Explains ev entries (.expanded text) := fun _ _ _ h => by cases h
    have hinner {others : List Entry} {x : Element} {t : Run}
        (h : Visiting.Clones ev entries v ⟨fuel, others, x, t⟩ ∨
          Visiting.Inside ev entries v ⟨fuel, others, x, t⟩) :
        Adds (v.Explains ev entries) t (visit ev entries fuel others x t) :=
      (ih others x t).mono fun d hd => hd.of_makes (.single h)
    show Adds (v.Explains ev entries) start (visit ev entries (fuel + 1) pending e start)
    rw [visit_succ]
    refine .inScope (.bind ?_ fun outcome s hsettled => ?_)
    · obtain ⟨calls, hcalls⟩ := Visiting.exists_calls ev (v := v) (Nat.succ_ne_zero fuel)
      refine ⟨calls.reverse, hcalls.deeds, fun d hd p before result hcall => ?_⟩
      exact ⟨v, calls, .refl, hcalls, List.mem_reverse.mp hd⟩
    · refine adds_follow htext (fun before x after first t hnodes hbefore => ?_) ?_
      · exact hinner (.inr (.intro rfl rfl hsettled hnodes hbefore))
      · rintro e' others done item rest binding status first t rfl hdone
        exact hinner (.inl (.intro rfl hsettled hdone rfl))

/-- Every call that processing nodes records was made in one of its visits. -/
theorem Registry.exists_makes {r : Registry} {nodes : List Node} {c : Context} {p : Entry}
    {before : Workspace} {result : Except EngineError Directive}
    (h : .called p before result ∈ (finalState (r.emit ev nodes { context := c })).deeds) :
    ∃ v calls, r.Makes ev nodes { context := c } v ∧ v.Calls ev calls ∧
      .called p before result ∈ calls := by
  let Q (d : Deed) : Prop := ∀ p before result, d = .called p before result →
    ∃ v calls, r.Makes ev nodes { context := c } v ∧ v.Calls ev calls ∧ d ∈ calls
  have hadds : Adds Q { context := c } (r.emit ev nodes { context := c }) := by
    refine adds_emitAll (fun _ _ _ _ h => by cases h) fun front e after first s hnodes hfront => ?_
    refine (Visiting.adds_explained ⟨r.fuel e, r.entries, e, s⟩).mono ?_
    intro d hd p before result hcall
    obtain ⟨v, calls, hmakes, hcalls, hmem⟩ := hd p before result hcall
    exact ⟨v, calls, .intro hnodes hfront hmakes, hcalls, hmem⟩
  obtain ⟨new, hnew, hQ⟩ := hadds
  rw [hnew, List.append_nil] at h
  exact hQ _ h p before result rfl

end NaturalTemplate
