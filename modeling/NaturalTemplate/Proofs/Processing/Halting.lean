import NaturalTemplate.Engine
import NaturalTemplate.Proofs.Processing.Visits

/-!
# Halting

A processor that halts the template is the last thing that a run does. The element that it was
called for is not put out, and no node is looked at after it; the elements around it are put out
with what their children came to so far.
-/
namespace NaturalTemplate
open Markup

variable {ev : Evaluator} {entries : List Entry}

/-! ## The last deed -/

/-- The halt that a processor asks for with a directive. -/
def Directive.halt? (location : Location) : Directive → Option Halt
  | halt earlyExit => some ⟨location, earlyExit⟩
  | _ => none

def Deed.halt? : Deed → Option Halt
  | called _ before (.ok directive) => directive.halt? before.element.location
  | _ => none

theorem Deed.eq_called {d : Deed} {halt : Halt} (h : d.halt? = some halt) :
    ∃ p before, d = called p before (.ok (.halt halt.earlyExit)) ∧
      before.element.location = halt.location := by
  cases d with
  | expanded text => cases h
  | called p before result =>
    cases result with
    | error cause => cases h
    | ok directive =>
      cases directive with
      | halt earlyExit =>
        cases h
        exact ⟨p, before, rfl, rfl⟩
      | _ => cases h

def Outcome.halt? : Outcome → Option Halt
  | halt h => some h
  | _ => none

/-- Of some deeds, the newest first, the last asks for a halt if there is one, and no other does. -/
def HaltsLast : Option Halt → List Deed → Prop
  | none, deeds => ∀ d ∈ deeds, d.halt? = none
  | some h, deeds =>
    ∃ last earlier, deeds = last :: earlier ∧ last.halt? = some h ∧ ∀ d ∈ earlier, d.halt? = none

theorem HaltsLast.append {halt : Option Halt} {old new : List Deed} (hnew : HaltsLast halt new)
    (hold : HaltsLast none old) : HaltsLast halt (new ++ old) := by
  cases halt with
  | none => exact List.forall_mem_append.mpr ⟨hnew, hold⟩
  | some h =>
    obtain ⟨last, earlier, rfl, hlast, hearlier⟩ := hnew
    exact ⟨last, earlier ++ old, rfl, hlast, List.forall_mem_append.mpr ⟨hearlier, hold⟩⟩

theorem haltsLast_singleton (d : Deed) : HaltsLast d.halt? [d] := by
  cases hd : d.halt? with
  | none => exact List.forall_mem_singleton.mpr hd
  | some h => exact ⟨d, [], rfl, hd, List.forall_mem_nil _⟩

/-- A deed that asks for a halt is the last one, and the only one that does. -/
theorem HaltsLast.eq_cons {halt : Option Halt} {deeds : List Deed} (h : HaltsLast halt deeds)
    {d : Deed} (hd : d ∈ deeds) {asked : Halt} (hasked : d.halt? = some asked) :
    halt = some asked ∧ ∃ earlier, deeds = d :: earlier ∧ ∀ d ∈ earlier, d.halt? = none := by
  cases halt with
  | none => exact absurd ((h d hd).symm.trans hasked) nofun
  | some halt =>
    obtain ⟨last, earlier, rfl, hlast, hearlier⟩ := h
    obtain rfl | hd := List.mem_cons.mp hd
    · exact ⟨hlast.symm.trans hasked, earlier, rfl, hearlier⟩
    · exact absurd ((hearlier d hd).symm.trans hasked) nofun

/-- The halt that comes of a part of a run, given that of its result. Nothing is halted by an
error. -/
def haltOf {α : Type} (halt? : α → Option Halt) : EStateM.Result Failure Run α → Option Halt
  | .ok a _ => halt? a
  | .error _ _ => none

/-- A part of a run that adds to the record, where only the last deed asks for a halt, and only if
the template is halted. -/
def Traced {α : Type} (halt? : α → Option Halt) (x : Running α) : Prop :=
  ∀ r, ∃ new, (finalState (x r)).deeds = new ++ r.deeds ∧ HaltsLast (haltOf halt? (x r)) new

namespace Traced

variable {α β : Type} {f : α → Option Halt} {g : β → Option Halt} {x : Running α}

theorem suffix (h : Traced f x) (r : Run) : r.deeds <:+ (finalState (x r)).deeds := by
  obtain ⟨new, hnew, -⟩ := h r
  exact ⟨new, hnew.symm⟩

theorem pure {a : α} (h : f a = none) : Traced f (Pure.pure a) := by
  refine fun r => ⟨[], rfl, ?_⟩
  show HaltsLast (f a) []
  rw [h]
  exact List.forall_mem_nil _

theorem throw (failure : Failure) : Traced f (MonadExcept.throw failure : Running α) :=
  fun _ => ⟨[], rfl, List.forall_mem_nil _⟩

/-- A part of a run that comes after another one is not reached if that halts the template. -/
theorem bind {k : α → Running β} (hx : Traced f x) (hnext : ∀ a, f a = none → Traced g (k a))
    (hend : ∀ a h, f a = some h → ∃ b, k a = Pure.pure b ∧ g b = some h) : Traced g (x >>= k) := by
  intro r
  obtain ⟨old, hold, hhalt⟩ := hx r
  show ∃ new, (finalState (EStateM.bind x k r)).deeds = _ ∧
    HaltsLast (haltOf g (EStateM.bind x k r)) _
  unfold EStateM.bind
  cases hrun : x r with
  | error failure s =>
    rw [hrun] at hold hhalt
    exact ⟨old, hold, hhalt⟩
  | ok a s =>
    rw [hrun] at hold hhalt
    cases ha : f a with
    | none =>
      obtain ⟨new, hnew, hhalt'⟩ := hnext a ha s
      rw [haltOf, ha] at hhalt
      refine ⟨new ++ old, ?_, hhalt'.append hhalt⟩
      rw [List.append_assoc, ← hold]
      exact hnew
    | some h =>
      obtain ⟨b, hb, hgb⟩ := hend a h ha
      rw [haltOf, ha, ← hgb] at hhalt
      show ∃ new, (finalState (k a s)).deeds = _ ∧ HaltsLast (haltOf g (k a s)) _
      rw [hb]
      exact ⟨old, hold, hhalt⟩

theorem inScope (hx : Traced f x) : Traced f (Running.inScope x) := by
  intro r
  obtain ⟨new, hnew, hhalt⟩ := hx { r with context := r.context.push }
  refine ⟨new, ?_⟩
  rw [Running.inScope_run]
  cases hrun : x { r with context := r.context.push } <;> rw [hrun] at hnew hhalt <;>
    exact ⟨hnew, hhalt⟩

theorem around {x : Running Emitted} (hx : Traced Emitted.halt x) (e : Element) :
    Traced Emitted.halt (Running.around e x) :=
  hx.bind (fun _ h => .pure h) fun _ _ h => ⟨_, rfl, h⟩

theorem andThen {x y : Running Emitted} (hx : Traced Emitted.halt x)
    (hy : Traced Emitted.halt y) : Traced Emitted.halt (Running.andThen x y) := by
  refine hx.bind (fun first h => ?_) fun first halt h => ⟨first, ?_, h⟩
  · rw [h]
    exact hy.bind (fun _ h => .pure h) fun _ _ h => ⟨_, rfl, h⟩
  · rw [h]
    rfl

end Traced

theorem traced_emitText (content : String) (l : Location) :
    Traced Emitted.halt (emitText ev content l) := by
  intro r
  rw [emitText_run]
  dsimp only
  have hexpanded : HaltsLast none [.expanded content] :=
    haltsLast_singleton (.expanded content)
  split
  · cases Inline.expand? ev content (r.context.touch Context.inliningName) with
    | mk result c => cases result <;> exact ⟨[.expanded content], rfl, hexpanded⟩
  · exact ⟨[], rfl, List.forall_mem_nil _⟩

theorem traced_call (p : Entry) (e : Element) :
    Traced (fun answer => answer.1.halt? e.location) (p.call ev e) := by
  intro r
  rw [Entry.call_run]
  split
  · exact ⟨[_], rfl, haltsLast_singleton (.called p ⟨e, r.context⟩ (.ok _))⟩
  · exact ⟨[_], rfl, haltsLast_singleton (.called p ⟨e, r.context⟩ (.error _))⟩

theorem traced_settle (pending : List Entry) (children : Bool) (e : Element) :
    Traced Outcome.halt? (settle ev pending children e) := by
  induction pending, children, e using settle.induct with
  | case1 pending children e hnext =>
    rw [settle_of_next?_eq_none hnext]
    exact .pure rfl
  | case2 pending children e p others hnext ihproceed ihskip =>
    rw [settle_of_next? hnext]
    refine (traced_call p e).bind ?_ ?_
    · rintro ⟨directive, e'⟩ hhalt
      cases directive with
      | proceed => exact ihproceed e'
      | skipChildren => exact ihskip e'
      | halt earlyExit => cases hhalt
      | _ => exact .pure rfl
    · rintro ⟨directive, e'⟩ h hhalt
      cases directive with
      | halt earlyExit => exact ⟨_, rfl, hhalt⟩
      | _ => cases hhalt

theorem closed_traced (ev : Evaluator) : Running.Closed ev (Traced Emitted.halt) where
  nothing := .pure rfl
  leaf _ := .pure rfl
  text := traced_emitText
  andThen := .andThen
  item {x} hx f := by
    refine .inScope fun r => ?_
    obtain ⟨new, hnew⟩ := hx { r with context := f r.context }
    exact ⟨new, hnew⟩

theorem traced_visit (fuel : Nat) (pending : List Entry) (e : Element) :
    Traced Emitted.halt (visit ev entries fuel pending e) := by
  induction fuel generalizing pending e with
  | zero => exact .throw _
  | succ fuel ih =>
    have hall (nodes : List Node) :
        Traced Emitted.halt (emitAll ev (visit ev entries fuel entries) nodes) :=
      (closed_traced ev).emitAll fun e _ => ih entries e
    rw [visit_succ]
    refine ((traced_settle pending true e).bind (fun outcome hhalt => ?_) ?_).inScope
    · cases outcome with
      | keep e children =>
        cases children with
        | false => exact .pure rfl
        | true => exact (hall e.children).around e
      | drop => exact .pure rfl
      | splice nodes => exact hall nodes
      | iterate e pending items binding status =>
        exact (closed_traced ev).emitItems (ih pending e) binding status _ _ items
      | halt h => cases hhalt
    · intro outcome h hhalt
      cases outcome with
      | halt => exact ⟨_, rfl, hhalt⟩
      | _ => cases hhalt

/-- In a run only the last deed asks for a halt, and only if the template is halted. -/
theorem Registry.traced_emit (r : Registry) (nodes : List Node) :
    Traced Emitted.halt (r.emit ev nodes) :=
  (closed_traced ev).emitAll fun e _ => traced_visit (r.fuel e) r.entries e

/-! ## What is put out -/

/-- Nodes halt the template in one of the elements among them: those before it are put out in full,
and those after it do not matter. -/
theorem exists_of_emitAll {visit : Element → Running Emitted} {nodes out : List Node} {halt : Halt}
    {r s : Run} (h : emitAll ev visit nodes r = .ok ⟨out, some halt⟩ s) :
    ∃ before e after first t inner, nodes = before ++ Element.toNode e :: after ∧
      emitAll ev visit before r = .ok ⟨first, none⟩ t ∧ visit e t = .ok ⟨inner, some halt⟩ s ∧
      out = first ++ inner := by
  induction nodes generalizing r out with
  | nil => cases h
  | cons n nodes ih =>
    rw [emitAll_cons] at h
    obtain ⟨-, hhere⟩ | ⟨first, t, ⟨second, halt'⟩, hfirst, hrest, hout⟩ :=
      Running.eq_ok_of_andThen h
    · cases n with
      | element tag children endTag =>
        exact ⟨[], ⟨tag, children, endTag⟩, nodes, [], r, out, rfl, rfl, hhere, rfl⟩
      | text content l =>
        obtain ⟨written, hwritten⟩ := eq_ok_of_emitText hhere
        cases hwritten
      | _ => cases hhere
    · cases hout
      obtain ⟨before, e, after, first', u, inner, rfl, hbefore, hhere, hinner⟩ := ih hrest
      refine ⟨n :: before, e, after, first ++ first', u, inner, rfl, ?_, hhere, ?_⟩
      · rw [emitAll_cons, Running.andThen_of_eq_ok hfirst, hbefore]
      · rw [hinner, List.append_assoc]

/-- A repetition halts the template in one of its items: those before it are put out in full, and
those after it do not matter. -/
theorem exists_of_emitItems {body : Running Emitted} {binding status : String} {size index : Nat}
    {items : List Value} {out : List Node} {halt : Halt} {r s : Run}
    (h : emitItems body binding status size index items r = .ok ⟨out, some halt⟩ s) :
    ∃ done item rest first t inner u, items = done ++ item :: rest ∧
      emitItems body binding status size index done r = .ok ⟨first, none⟩ t ∧
      body { t with
          context := t.context.push.bindItem binding status ⟨index + done.length, size, item⟩ } =
        .ok ⟨inner, some halt⟩ u ∧
      out = first ++ inner ∧ s = { u with context := u.context.pop } := by
  induction items generalizing index r out with
  | nil => cases h
  | cons item items ih =>
    obtain ⟨-, hhere⟩ | ⟨first, t, ⟨second, halt'⟩, hfirst, hrest, hout⟩ :=
      Running.eq_ok_of_andThen h
    · obtain ⟨u, hbody, rfl⟩ := Running.eq_ok_of_inScope hhere
      exact ⟨[], item, items, [], r, out, u, rfl, rfl, hbody, rfl, rfl⟩
    · cases hout
      obtain ⟨done, item', rest, first', t', inner, u, rfl, hdone, hbody, hinner, rfl⟩ := ih hrest
      refine ⟨item :: done, item', rest, first ++ first', t', inner, u, rfl, ?_, ?_, ?_, rfl⟩
      · rw [emitItems, Running.andThen_of_eq_ok hfirst, hdone]
      · rw [List.length_cons, Nat.add_comm done.length 1, ← Nat.add_assoc]
        exact hbody
      · rw [hinner, List.append_assoc]

mutual

/-- What a visit of an element puts out if it halts the template, which `last` asked for. -/
inductive HaltsAt (ev : Evaluator) (entries : List Entry) (last : Deed) (halt : Halt) :
    Nat → List Entry → Element → Run → List Node → Run → Prop where
  /-- A processor of the element asks for the halt. Nothing is put out for the element. -/
  | here {fuel : Nat} {pending : List Entry} {e : Element} {r s : Run}
    (hsettle : settle ev pending true e { r with context := r.context.push } = .ok (.halt halt) s)
    (hlast : s.deeds.head? = some last) :
    HaltsAt ev entries last halt (fuel + 1) pending e r [] { s with context := s.context.pop }
  /-- The template is halted among the children. The element is put out around what they came to. -/
  | inside {fuel : Nat} {pending : List Entry} {e e' : Element} {r s t : Run} {out : List Node}
    (hsettle : settle ev pending true e { r with context := r.context.push } =
      .ok (.keep e' true) s)
    (hchildren : HaltsIn ev entries last halt (fun _ => fuel) e'.children s out t) :
    HaltsAt ev entries last halt (fuel + 1) pending e r
      [Element.toNode { e' with children := out }] { t with context := t.context.pop }
  /-- The template is halted among the nodes that take the place of the element. -/
  | replaced {fuel : Nat} {pending : List Entry} {e : Element} {r s t : Run}
    {nodes out : List Node}
    (hsettle : settle ev pending true e { r with context := r.context.push } =
      .ok (.splice nodes) s)
    (hnodes : HaltsIn ev entries last halt (fun _ => fuel) nodes s out t) :
    HaltsAt ev entries last halt (fuel + 1) pending e r out { t with context := t.context.pop }
  /-- The template is halted for one of the items of a repetition, after those before it. -/
  | repeated {fuel : Nat} {pending others : List Entry} {e e' : Element} {r s t u : Run}
    {done rest : List Value} {item : Value} {binding status : String} {size : Nat}
    {first inner : List Node} (hsize : size = (done ++ item :: rest).length)
    (hsettle : settle ev pending true e { r with context := r.context.push } =
      .ok (.iterate e' others (done ++ item :: rest) binding status) s)
    (hdone : emitItems (visit ev entries fuel others e') binding status size 0 done s =
      .ok ⟨first, none⟩ t)
    (hitem : HaltsAt ev entries last halt fuel others e'
      { t with context := t.context.push.bindItem binding status ⟨done.length, size, item⟩ }
      inner u) :
    HaltsAt ev entries last halt (fuel + 1) pending e r (first ++ inner)
      { u with context := u.context.pop.pop }

/-- What nodes put out if one of them halts the template: those before it in full, those after it
not at all. The elements among them are visited with fuel by `depth`. -/
inductive HaltsIn (ev : Evaluator) (entries : List Entry) (last : Deed) (halt : Halt) :
    (Element → Nat) → List Node → Run → List Node → Run → Prop where
  | intro {depth : Element → Nat} {before after : List Node} {e : Element} {r s t : Run}
    {first inner : List Node}
    (hbefore : emitAll ev (fun e => visit ev entries (depth e) entries e) before r =
      .ok ⟨first, none⟩ s)
    (hhere : HaltsAt ev entries last halt (depth e) entries e s inner t) :
    HaltsIn ev entries last halt depth (before ++ e.toNode :: after) r (first ++ inner) t

end

section
variable {last : Deed} {halt : Halt}

theorem haltsIn_of_emitAll {depth : Element → Nat} {s : Run}
    (hvisit : ∀ e r out, visit ev entries (depth e) entries e r = .ok ⟨out, some halt⟩ s →
      HaltsAt ev entries last halt (depth e) entries e r out s)
    {nodes out : List Node} {r : Run}
    (h : emitAll ev (fun e => visit ev entries (depth e) entries e) nodes r =
      .ok ⟨out, some halt⟩ s) : HaltsIn ev entries last halt depth nodes r out s := by
  obtain ⟨before, e, after, first, t, inner, rfl, hbefore, hhere, rfl⟩ := exists_of_emitAll h
  exact .intro hbefore (hvisit e t inner hhere)

/-- A visit that halts the template puts out what the elements around the halt came to. -/
theorem haltsAt_of_visit {fuel : Nat} {pending : List Entry} {e : Element} {r s : Run}
    {out : List Node} (h : visit ev entries fuel pending e r = .ok ⟨out, some halt⟩ s)
    (hlast : s.deeds.head? = some last) :
    HaltsAt ev entries last halt fuel pending e r out s := by
  induction fuel generalizing pending e r out s with
  | zero => cases h
  | succ fuel ih =>
    -- Nothing is recorded behind the halt, so the last deed of the visit inside is that of all.
    have hall {nodes out : List Node} {r s : Run} (hlast : s.deeds.head? = some last)
        (h : emitAll ev (visit ev entries fuel entries) nodes r = .ok ⟨out, some halt⟩ s) :
        HaltsIn ev entries last halt (fun _ => fuel) nodes r out s :=
      haltsIn_of_emitAll (fun e r out h => ih h hlast) h
    obtain ⟨outcome, s, t, hsettle, hfollow, rfl⟩ := eq_ok_of_visit h
    cases outcome with
    | keep e' children =>
      cases children with
      | false => cases hfollow
      | true =>
        obtain ⟨⟨nodes, halted⟩, hbody, hemitted⟩ := Running.eq_ok_of_around hfollow
        cases hemitted
        exact .inside hsettle (hall hlast hbody)
    | drop => cases hfollow
    | splice nodes => exact .replaced hsettle (hall hlast hfollow)
    | iterate e' others items binding status =>
      obtain ⟨done, item, rest, first, u, inner, v, rfl, hdone, hbody, rfl, rfl⟩ :=
        exists_of_emitItems hfollow
      rw [Nat.zero_add] at hbody
      exact .repeated rfl hsettle hdone (ih hbody hlast)
    | halt h =>
      cases hfollow
      exact .here hsettle hlast

end

namespace Engine

/-- A template that a processor halts is halted by the last thing that is done, and by nothing else.
What is put out by then is kept or discarded, and the template counts as filled or not, as it was
asked for. -/
theorem processTemplate_of_halt (engine : Engine) (d : Document) (c : Context) (p : Entry)
    (before : Workspace) (earlyExit : Bool) :
    Deed.called p before (.ok (.halt earlyExit)) ∈
      (finalState (engine.registry.emit engine.evaluator d.nodes { context := c })).deeds →
    let last : Deed := .called p before (.ok (.halt earlyExit))
    let location := before.element.location
    ∃ out s earlier, s.deeds = last :: earlier ∧ (∀ deed ∈ earlier, deed.halt? = none) ∧
      engine.registry.emit engine.evaluator d.nodes { context := c } =
        .ok ⟨out, some ⟨location, earlyExit⟩⟩ s ∧
      HaltsIn engine.evaluator engine.registry.entries last ⟨location, earlyExit⟩
        engine.registry.fuel d.nodes { context := c } out s ∧
      (engine.processTemplate d c).1 =
        match engine.config.halt, earlyExit with
        | .keep, false => .error (.halted location (some (Document.mk out).render))
        | .discard, false => .error (.halted location none)
        | .keep, true => .ok (Document.mk out).render
        | .discard, true => .ok "" := by
  intro h last location
  have htraced : Traced Emitted.halt (engine.registry.emit engine.evaluator d.nodes) :=
    engine.registry.traced_emit d.nodes
  obtain ⟨deeds, hdeeds, hhalt⟩ := htraced { context := c }
  rw [hdeeds, List.append_nil] at h
  obtain ⟨hhalted, earlier, rfl, hearlier⟩ := hhalt.eq_cons h rfl
  cases hrun : engine.registry.emit engine.evaluator d.nodes { context := c } with
  | error failure s =>
    rw [hrun] at hhalted
    cases hhalted
  | ok emitted s =>
    obtain ⟨out, halt⟩ := emitted
    rw [hrun] at hhalted hdeeds
    obtain rfl : halt = some ⟨location, earlyExit⟩ := hhalted
    have hlast : s.deeds = last :: earlier := hdeeds.trans (List.append_nil _)
    refine ⟨out, s, earlier, hlast, hearlier, rfl, ?_, ?_⟩
    · refine haltsIn_of_emitAll (fun e r out h => haltsAt_of_visit h ?_) hrun
      rw [hlast, List.head?_cons]
    · rw [processTemplate, hrun]
      unfold output
      cases engine.config.halt <;> cases earlyExit <;> rfl

/-- A processor halts the template in the first item of a repetition. The text before it is put out,
and so are the elements around it; the second item and the text at the end are not. -/
theorem processTemplate_of_halt_repeated :
    let entry (name : String) (directive : Directive) : Entry :=
      ⟨name, 1, .ofRule "t" (.attribute name), .forAttribute name 1 fun _ => pure directive⟩
    let element (name directive : String) (children : List Node) : Node :=
      .element { name, attributes := [⟨" ", "t:" ++ directive, "", none, .none, {}⟩] } children
        (.explicit ("</" ++ name ++ ">"))
    let twice := entry "twice" (.iterate [.null, .null] "x" none)
    let engine : Engine := ⟨{ halt := .keep }, ⟨[twice, entry "stop" (.halt false)], []⟩, .standard⟩
    let d : Document :=
      ⟨[element "p" "twice" [.text "a" {}, element "b" "stop" [.text "c" {}]], .text "d" {}]⟩
    ∃ p before out s earlier,
      Deed.called p before (.ok (.halt false)) ∈
          (finalState (engine.registry.emit engine.evaluator d.nodes ⟨{}, []⟩)).deeds ∧
        s.deeds = .called p before (.ok (.halt false)) :: earlier ∧
        engine.registry.emit engine.evaluator d.nodes ⟨{}, []⟩ = .ok ⟨out, some ⟨{}, false⟩⟩ s ∧
        (Document.mk out).render = "<p>a</p>" ∧
        (engine.processTemplate d {}).1 = .error (.halted {} (some "<p>a</p>")) := by
  intro entry element twice engine d
  have hcheck : passes
      (fun emitted s => (Document.mk emitted.nodes).render == "<p>a</p>" &&
        s.deeds.any fun deed => deed.halt? == some ⟨{}, false⟩)
      (engine.registry.emit engine.evaluator d.nodes ⟨{}, []⟩) = true := by
    decide +kernel
  obtain ⟨emitted, left, hrun, hcheck⟩ := exists_of_passes hcheck
  obtain ⟨hrender, hany⟩ := (Bool.and_eq_true _ _).mp hcheck
  obtain ⟨deed, hdeed, hhalt⟩ := List.any_eq_true.mp hany
  obtain ⟨p, before, rfl, hlocation⟩ := Deed.eq_called (eq_of_beq hhalt)
  have hmem : Deed.called p before (.ok (.halt false)) ∈
      (finalState (engine.registry.emit engine.evaluator d.nodes ⟨{}, []⟩)).deeds := by
    rw [hrun]
    exact hdeed
  obtain ⟨out, s, earlier, hdeeds, -, hemit, -, houtput⟩ :=
    processTemplate_of_halt engine d {} p before false hmem
  rw [hlocation] at hemit houtput
  obtain rfl : emitted.nodes = out := by rw [hrun] at hemit; cases hemit; rfl
  rw [eq_of_beq hrender] at houtput
  exact ⟨p, before, _, s, earlier, hmem, hdeeds, hemit, eq_of_beq hrender, houtput⟩

end Engine
end NaturalTemplate
