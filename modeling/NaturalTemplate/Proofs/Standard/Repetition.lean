import NaturalTemplate.Proofs.Context.Padding
import NaturalTemplate.Proofs.Expression.Values
import NaturalTemplate.Proofs.Standard.Consumed
import NaturalTemplate.Proofs.Standard.Declared
import NaturalTemplate.Proofs.Standard.Termination

/-!
# A repetition is one element after the other

An element that is repeated is processed for each of the items like the element without the
attribute that repeats it, in a scope with the item and the status. It is the same visit that goes
on, with the processors that were not called before; but no processor comes before the one for
repetitions, and nothing calls for this one again. It goes on inside the scope of the element; but
nothing is bound there.
-/
namespace NaturalTemplate
open Markup

namespace Running

theorem andThen_pure_nothing (x : Running Emitted) : andThen x (Pure.pure {}) = x := by
  funext r
  rw [andThen_run]
  cases x r with
  | error failure s => rfl
  | ok first s =>
    obtain ⟨nodes, halt⟩ := first
    cases halt with
    | some halt => rfl
    | none =>
      show (EStateM.Result.ok ⟨nodes ++ [], none⟩ s : EStateM.Result Failure Run Emitted) = _
      rw [List.append_nil]

end Running

/-- What there is to repeat over in a value: nothing in null, the items of an array, and a pair of
key and value for each entry of an object. -/
inductive Value.HasItems : Value → List Value → Prop where
  | null : HasItems .null []
  | array (items : List Value) : HasItems (.array items) items
  | object (entries : List (String × Value)) :
    HasItems (.object entries)
      (entries.map fun (key, v) => .object [("key", .string key), ("value", v)])

namespace Value

theorem HasItems.items?_eq {v : Value} {items : List Value} (h : v.HasItems items) :
    v.items? = some items := by
  cases h <;> rfl

theorem items?_eq_none {v : Value} (h : ∀ items, ¬ v.HasItems items) : v.items? = none := by
  cases v with
  | null => exact absurd .null (h _)
  | array items => exact absurd (.array items) (h _)
  | object entries => exact absurd (.object entries) (h _)
  | _ => rfl

end Value

namespace Standard

variable {ev : Evaluator} {e : Element}

/-! ## One item after the other -/

/-- What can be seen of how far a repetition has come. -/
def statusOf (index size : ℕ) (item : Value) : Value :=
  .object [("count", .ofNat (index + 1)), ("current", item),
    ("even", .bool ((index + 1) % 2 == 0)), ("first", .bool (index == 0)),
    ("index", .ofNat index), ("last", .bool (index + 1 == size)),
    ("odd", .bool ((index + 1) % 2 == 1)), ("size", .ofNat size)]

theorem toValue_eq (index size : ℕ) (item : Value) :
    IterationStatus.toValue ⟨index, size, item⟩ = statusOf index size item := by
  have hodd : (!(index + 1) % 2 == 0) = ((index + 1) % 2 == 1) := by
    rcases Nat.mod_two_eq_zero_or_one (index + 1) with h | h <;> rw [h] <;> rfl
  rw [statusOf, ← hodd]
  rfl

/-- Does something for an item, in a scope that binds it and the status. -/
def forItem (x : Running Emitted) (binding status : String) (size : ℕ) (item : Value)
    (index : ℕ) : Running Emitted :=
  Running.inScope do
    Running.changeContext fun c =>
      (c.setLocal binding item).setLocal status (statusOf index size item)
    x

/-- Does something for each of some items, one after the other. -/
def forItems (x : Running Emitted) (binding status : String) (items : List Value) :
    Running Emitted :=
  items.zipIdx.foldr
    (fun (item, index) rest =>
      Running.andThen (forItem x binding status items.length item index) rest)
    (pure {})

theorem emitItems_eq_forItems (x : Running Emitted) (binding status : String)
    (items : List Value) :
    emitItems x binding status items.length 0 items = forItems x binding status items := by
  rw [forItems]
  generalize items.length = size
  generalize 0 = index
  induction items generalizing index with
  | nil => rfl
  | cons item items ih =>
    rw [List.zipIdx_cons, List.foldr_cons, ← ih]
    simp only [forItem, ← toValue_eq]
    rfl

/-! ## The processor for repetitions -/

def repeater : Entry := entry (.forAttribute "each" 200 each)

/-- The processors that come after the one for repetitions. -/
def others : List Entry := registry.entries.tail

theorem entries_cons : registry.entries = repeater :: others := by
  rw [others, entries_registry]
  rfl

theorem name_ne_of_mem_others : ∀ p ∈ others, p.processor.name ≠ "each" := by
  rw [others, entries_registry]
  decide +kernel

/-- Whether an attribute repeats its element. -/
def repeats (a : Attribute) : Bool := calls "each" a.name

theorem claims_repeater : repeater.target.claims = repeats := funext (claims_ofRule "each")

/-- An element without the attributes that repeat it. -/
def unrepeated (e : Element) : Element := e.withAttributes (e.attributes.filter (!repeats ·))

theorem takeAttributes_repeater (e : Element) :
    takeAttributes e (repeater.target.claimed e) =
      (e.attributes.filter repeats, unrepeated e) := by
  rw [takeAttributes_claimed, claims_repeater, unrepeated]

/-- An element that is repeated is so before any other processor is called. -/
theorem next?_repeater {a : Attribute} (ha : e.attributes.find? repeats = some a) :
    Entry.next? e registry.entries = some (repeater, others) := by
  have hmatch : repeater.target.matches? e = true := by
    show e.attributes.any repeater.target.claims = true
    rw [claims_repeater]
    exact List.any_eq_true.mpr ⟨a, List.mem_of_find?_eq_some ha, List.find?_some ha⟩
  rw [entries_cons, Entry.next?, if_pos hmatch]

theorem each_run {call : Call} {i : Iteration} (hi : iteration call.value = .ok i)
    {w : Workspace} {v : Value} (hv : call.evaluator.value w.context i.expression = .ok v) :
    each call w =
      let left : Workspace :=
        { w with context := (call.evaluator.evaluate i.expression w.context).2 }
      match v.items? with
      | some items => .ok (.iterate items i.binding i.status) left
      | none => .error (.type (.notIterable v.type)) left := by
  unfold each
  rw [hi]
  show EStateM.bind (call.evaluate i.expression) _ w = _
  unfold EStateM.bind
  have hevaluate : call.evaluate i.expression w =
      .ok v { w with context := (call.evaluator.evaluate i.expression w.context).2 } := by
    show Work.ofExcept (call.evaluator.value w.context i.expression) _ = _
    rw [hv]
    rfl
  rw [hevaluate]
  dsimp only
  cases v.items? <;> rfl

/-! ## Nothing calls for it again -/

/-- Whether no attribute of an element repeats it or assigns to attributes. -/
def Unrepeating (e : Element) : Prop :=
  ∀ a ∈ e.attributes, ∀ directive ∈ "each" :: assigners, calls directive a.name = false

theorem stable_unrepeating : Stable { name | isDirective name = false } Unrepeating := by
  have hprocessor : ∀ directive ∈ "each" :: assigners,
      ∃ p ∈ processors, p.rule = .attribute directive := by
    decide +kernel
  refine .forall_attributes fun a ha directive hdirective => Bool.eq_false_iff.mpr fun hcalls => ?_
  obtain ⟨p, hp, hrule⟩ := hprocessor directive hdirective
  have hisDirective : isDirective a.name = true :=
    List.any_eq_true.mpr ⟨p, hp, by rw [hrule]; exact hcalls⟩
  exact Bool.false_ne_true (ha.symm.trans hisDirective)

namespace Unrepeating

theorem takeAttributes (h : Unrepeating e) (t : Target) :
    Unrepeating (takeAttributes e (t.claimed e)).2 := by
  rw [takeAttributes_claimed]
  exact fun a ha => h a (List.mem_filter.mp ha).1

theorem assignsPlain (h : Unrepeating e) (p : Entry) :
    ∀ a ∈ (p.calledWith ev e).trigger, AssignsPlain a := by
  intro a ha directive hdirective hcalls
  rw [Entry.calledWith, takeAttributes_claimed] at ha
  have hmem := (List.mem_filter.mp (List.mem_of_mem_head? ha)).1
  have hnot := h a hmem directive (List.mem_cons_of_mem _ hdirective)
  exact absurd (hnot.symm.trans hcalls) Bool.false_ne_true

theorem next?_eq (h : Unrepeating e) (pending : List Entry) :
    Entry.next? e (repeater :: pending) =
      (Entry.next? e pending).map fun (p, others) => (p, repeater :: others) := by
  have hmatch : ¬ repeater.target.matches? e = true := by
    show ¬ e.attributes.any repeater.target.claims = true
    rw [claims_repeater, List.any_eq_true]
    rintro ⟨a, ha, hrepeats⟩
    exact Bool.false_ne_true ((h a ha "each" List.mem_cons_self).symm.trans hrepeats)
  rw [Entry.next?, if_neg hmatch]

end Unrepeating

/-- Whether the processor for repetitions is pending makes no difference where it is not called. -/
theorem settle_repeater {pending : List Entry} (hpending : pending.Sublist others)
    (he : Unrepeating e) (children : Bool) :
    settle ev (repeater :: pending) children e = settle ev pending children e := by
  induction pending, children, e using settle.induct with
  | case1 pending children e hnext =>
    have hnext' : Entry.next? e (repeater :: pending) = none := by rw [he.next?_eq, hnext]; rfl
    rw [settle_of_next?_eq_none hnext, settle_of_next?_eq_none hnext']
  | case2 pending children e p rest hnext ihproceed ihskip =>
    have hnext' : Entry.next? e (repeater :: pending) = some (p, repeater :: rest) := by
      rw [he.next?_eq, hnext]
      rfl
    have hrest := (Entry.sublist_of_next? hnext).trans hpending
    have hentries : pending.Sublist registry.entries :=
      entries_cons ▸ hpending.cons repeater
    have hp := hpending.subset (Entry.mem_of_next? hnext).1
    rw [settle_of_next? hnext, settle_of_next? hnext']
    refine bind_congr_of_ok fun r answer s hcall => ?_
    obtain ⟨directive, e'⟩ := answer
    have he' := (stable_unrepeating.of_next? hentries hnext (he.assignsPlain p) hcall
      (he.takeAttributes p.target)).1
    cases directive with
    | proceed => exact congrFun (ihproceed e' hrest he') s
    | skipChildren => exact congrFun (ihskip e' hrest he') s
    | iterate items binding status =>
      obtain ⟨⟨c, hrun⟩, -⟩ := call_eq_ok hcall
      have hmem := mem_processors_of_mem_registry (hentries.subset (Entry.mem_of_next? hnext).1)
      exact absurd (replies_run hmem _ _ _ _ hrun).1 (name_ne_of_mem_others p hp)
    | _ => rfl

theorem visitFully_others (he : Unrepeating e) :
    visitFully ev others e = visitFully ev registry.entries e := by
  have hothers : others.Sublist registry.entries :=
    entries_cons ▸ List.sublist_cons_self repeater others
  rw [visitFully_eq hothers, visitFully_eq (.refl _), entries_cons,
    settle_repeater (.refl _) he]

theorem emit_toNode (ev : Evaluator) (e : Element) :
    registry.emit ev [e.toNode] = visitFully ev registry.entries e := by
  show Running.andThen (visit ev registry.entries (registry.fuel e) registry.entries e) _ = _
  rw [visit_eq (.refl _) (need_lt_fuel e) (Nat.lt_succ_self _)]
  exact Running.andThen_pure_nothing _

/-! ## The whole repetition -/

section
variable {a : Attribute} {d : Declaration} {v : Value} {pending : List Entry}

theorem value_calledWith_repeater (ev : Evaluator) (ha : e.attributes.find? repeats = some a) :
    (repeater.calledWith ev e).value = a.decodedValue := by
  rw [RearrangedElement.value_calledWith, claims_repeater, ha]
  rfl

theorem run_repeater (ha : e.attributes.find? repeats = some a)
    (hd : a.decodedValue = String.ofList d.chars) {c : Context}
    (hv : ev.value c d.expression = .ok v) :
    repeater.processor.run (repeater.calledWith ev e) (repeater.workspace e c) =
      let left : Workspace := ⟨unrepeated e, (ev.evaluate d.expression c).2⟩
      match v.items? with
      | some items =>
        .ok (.iterate items d.binding (d.status.map fun status => status.name.name)) left
      | none => .error (.type (.notIterable v.type)) left := by
  have hi := d.iteration_chars
  rw [← hd, ← value_calledWith_repeater ev ha] at hi
  have hworkspace : repeater.workspace e c = ⟨unrepeated e, c⟩ := by
    rw [Entry.workspace, takeAttributes_repeater]
  rw [hworkspace]
  exact each_run hi hv

/-- The first call for an element that is repeated is the last one before the items. -/
theorem settle_repeated (ha : e.attributes.find? repeats = some a)
    (hd : a.decodedValue = String.ofList d.chars) {r : Run}
    (hv : ev.value r.context d.expression = .ok v) :
    ∃ deeds, settle ev registry.entries true e r =
      let left : Run := ⟨(ev.evaluate d.expression r.context).2, deeds⟩
      match v.items? with
      | some items =>
        .ok (.iterate (unrepeated e) others items d.binding d.statusName) left
      | none =>
        .error (.error (.processing "Standard:each" e.location
          (EngineError.type (.notIterable v.type)).message)) left := by
  have hcall : repeater.call ev e r = _ := repeater.call_run e r
  rw [run_repeater ha hd hv] at hcall
  rw [settle_of_next? (next?_repeater ha)]
  cases hitems : v.items? with
  | none =>
    rw [hitems] at hcall
    exact ⟨_, bind_of_eq_error hcall⟩
  | some items =>
    rw [hitems] at hcall
    rw [bind_of_eq_ok hcall, ← d.getD_statusName]
    exact ⟨_, rfl⟩

/-- An element is repeated in the scope of its own. -/
theorem emit_of_hasItems (ha : e.attributes.find? repeats = some a)
    (hd : a.decodedValue = String.ofList d.chars) {run : Run}
    (hv : ev.value run.context.push d.expression = .ok v) {items : List Value}
    (hitems : v.HasItems items) :
    ∃ deeds, registry.emit ev [e.toNode] run =
      match forItems (visitFully ev others (unrepeated e)) d.binding d.statusName items
          ⟨(ev.evaluate d.expression run.context.push).2, deeds⟩ with
      | .ok emitted s => .ok emitted { s with context := s.context.pop }
      | .error failure s => .error failure { s with context := s.context.pop } := by
  obtain ⟨deeds, hsettle⟩ :=
    settle_repeated (r := { run with context := run.context.push }) ha hd hv
  rw [hitems.items?_eq] at hsettle
  refine ⟨deeds, ?_⟩
  rw [emit_toNode, visitFully_eq (.refl _), Running.inScope_run, bind_of_eq_ok hsettle,
    Outcome.follow, emitItems_eq_forItems]
  generalize forItems _ _ _ _ _ = result
  cases result <;> rfl

theorem emit_of_not_hasItems (ha : e.attributes.find? repeats = some a)
    (hd : a.decodedValue = String.ofList d.chars) {run : Run}
    (hv : ev.value run.context.push d.expression = .ok v) (hv' : ∀ items, ¬ v.HasItems items) :
    ∃ s, registry.emit ev [e.toNode] run =
      .error (.error (.processing "Standard:each" e.location
        (EngineError.type (.notIterable v.type)).message)) s := by
  obtain ⟨deeds, hsettle⟩ :=
    settle_repeated (r := { run with context := run.context.push }) ha hd hv
  rw [Value.items?_eq_none hv'] at hsettle
  rw [emit_toNode, visitFully_eq (.refl _), Running.inScope_run, bind_of_eq_error hsettle]
  exact ⟨_, rfl⟩

/-- A visit cannot tell whether there is an empty scope around it. -/
theorem emit_visitFully {n : ℕ} (hpending : pending.Sublist registry.entries) (e : Element) :
    EmitInStep (Context.Padded n) Eq (visitFully .standard pending e)
      (visitFully .standard pending e) :=
  (sameElements Context.Padded Context.alikeScopes_padded
    Context.alikeBindings_padded).emit_visit _ hpending rfl

theorem Declaration.ne_switchName (d : Declaration) :
    ∀ name ∈ [d.binding, d.statusName], name ∉ ({switchName} : Set String) := by
  have hidentifier (s : Grammar.Segment) : s.name.name ≠ switchName := by
    intro h
    have hvalid := s.name.valid
    rw [h] at hvalid
    contradiction
  obtain ⟨item, status, expression⟩ := d
  have hstatus : statusName ⟨item, status, expression⟩ ≠ switchName := by
    cases status with
    | none => exact defaultName_ne (by decide) _
    | some status => exact hidentifier status
  exact List.forall_mem_cons.mpr ⟨hidentifier item, List.forall_mem_singleton.mpr hstatus⟩

theorem unrepeating_unrepeated (hassigns : ∀ b ∈ (unrepeated e).attributes,
    ∀ directive ∈ assigners, calls directive b.name = false) : Unrepeating (unrepeated e) := by
  intro b hb
  have hnot : repeats b = false := by
    simpa using (List.mem_filter.mp hb).2
  exact List.forall_mem_cons.mpr ⟨hnot, hassigns b hb⟩

/-- To repeat an element is to process it without what repeats it, for each of the items one after
the other, in a scope that binds the item and the status. What comes of it stands one after the
other, and the first error ends it. Afterwards both names stand for what they stood for before. The
entries of an object come in the order of their keys, as they do in the data. It is an error of the
processor, at the place of the element, if there is nothing to repeat over. -/
theorem emit_repeated {r : Registry} (hr : Registry.ofDialects [dialect] = .ok r)
    (ha : e.attributes.find? repeats = some a) (hd : a.decodedValue = String.ofList d.chars)
    (hassigns : ∀ b ∈ (unrepeated e).attributes, ∀ directive ∈ assigners,
      calls directive b.name = false)
    (run : Run) (hv : Evaluator.standard.value run.context d.expression = .ok v) :
    (∀ items, v.HasItems items →
      SameOutcome (fun emitted emitted' s t => emitted' = emitted ∧ t.context = s.context)
        (forItems (r.emit .standard [(unrepeated e).toNode]) d.binding d.statusName items
          { run with context := (Evaluator.standard.evaluate d.expression run.context).2 })
        (r.emit .standard [e.toNode] run)) ∧
      (∀ name ∈ [d.binding, d.statusName],
        (finalState (r.emit .standard [e.toNode] run)).context.value? name =
          run.context.value? name) ∧
      (run.context.IsOrdered → ∀ entries, v = .object entries →
        entries.Pairwise fun x y => x.1 < y.1) ∧
      ((∀ items, ¬ v.HasItems items) → ∃ s, r.emit .standard [e.toNode] run =
        .error (.error (.processing "Standard:each" e.location
          (EngineError.type (.notIterable v.type)).message)) s) := by
  obtain rfl : registry = r := Except.ok.inj (ofDialects_dialect.symm.trans hr)
  have hpadded : run.context.Padded 0 run.context.push := Context.padded_push _
  have hv' : Evaluator.standard.value run.context.push d.expression = .ok v :=
    (Evaluator.value_congr hpadded.sameReadable _).trans hv
  refine ⟨fun items hitems => ?_, fun name hname => ?_, fun hordered entries hentries => ?_,
    emit_of_not_hasItems ha hd hv'⟩
  · obtain ⟨deeds, hemit⟩ := emit_of_hasItems ha hd hv' hitems
    have hvisit : EmitInStep (Context.Padded 1) Eq (visitFully .standard others (unrepeated e))
        (visitFully .standard others (unrepeated e)) :=
      emit_visitFully (entries_cons ▸ List.sublist_cons_self repeater others) _
    have hsame := EmitInStep.emitItems (Context.alikeScopes_padded 0)
      (Context.alikeBindings_padded 0) hvisit d.binding d.statusName items.length 0 items
      { run with context := (Evaluator.standard.evaluate d.expression run.context).2 }
      ⟨(Evaluator.standard.evaluate d.expression run.context.push).2, deeds⟩
      (hpadded.evaluate d.expression)
    rw [emitItems_eq_forItems] at hsame
    rw [hemit, emit_toNode, ← visitFully_others (unrepeating_unrepeated hassigns)]
    generalize forItems _ _ _ _ ⟨(_ : Context), deeds⟩ = result at hsame ⊢
    generalize forItems _ _ _ _ _ = result' at hsame ⊢
    cases hsame with
    | @ok emitted emitted' s t h =>
      obtain ⟨⟨hnodes, hhalt⟩, hcontext⟩ := h
      refine .ok ⟨?_, Context.Padded.pop_eq hcontext⟩
      obtain ⟨nodes, halt⟩ := emitted
      obtain ⟨nodes', halt'⟩ := emitted'
      exact congrArg₂ Emitted.mk (forall₂_eq_iff.mp hnodes).symm hhalt
    | error failure => exact .error _ _ _
  · have hwrites : ∀ p ∈ registry.entries, p.processor.Writes {switchName} :=
      fun p hp => writes_of_mem_processors (mem_processors_of_mem_registry hp)
    have hframe : run.context.Frame {switchName}
        (finalState (registry.emit .standard [e.toNode] run)).context :=
      keeps_emitAll (fun e => keeps_visit hwrites _ hwrites e) [e.toNode] run
    exact hframe.value? (d.ne_switchName name hname)
  · exact Evaluator.isOrdered_of_value hordered hv entries (hentries ▸ .self)

/-- The keys of an object, each with its place. -/
theorem emit_repeated_entries :
    let each : Attribute := ⟨" ", "th:each", "=", some "k, i : ${m}", .double, {}⟩
    let e : Element := ⟨{ name := "li", attributes := [each,
      ⟨" ", "th:text", "=", some "${k.key}", .double, {}⟩,
      ⟨" ", "th:title", "=", some "${i.count}", .double, {}⟩] }, [], .explicit "</li>"⟩
    let d : Declaration := ⟨⟨.none, ⟨"k", by decide +kernel⟩, .none⟩,
      some ⟨.space, ⟨"i", by decide +kernel⟩, .space⟩, " ${m}"⟩
    let m : Value := .object [("a", .string "1"), ("b", .string "2")]
    let run : Run :=
      { context := { root := [("k", .value (.string "outer")), ("m", .value m)] } }
    Registry.ofDialects [dialect] = .ok registry ∧ e.attributes.find? repeats = some each ∧
      each.decodedValue = String.ofList d.chars ∧
      (∀ b ∈ (unrepeated e).attributes, ∀ directive ∈ assigners,
        calls directive b.name = false) ∧
      Evaluator.standard.value run.context d.expression = .ok m ∧
      ∃ emitted s, registry.emit .standard [e.toNode] run = .ok emitted s ∧
        (Document.mk emitted.nodes).render = "<li title=\"1\">a</li><li title=\"2\">b</li>" ∧
        s.context.value? "k" = some (.string "outer") ∧
        ∃ t, forItems (registry.emit .standard [(unrepeated e).toNode]) "k" "i"
          [.object [("key", .string "a"), ("value", .string "1")],
            .object [("key", .string "b"), ("value", .string "2")]]
          { run with context := (Evaluator.standard.evaluate d.expression run.context).2 } =
            .ok emitted t := by
  intro each e d m run
  let atom : Grammar.Atom := .variable ⟨⟨.none, ⟨"m", by decide +kernel⟩, .none⟩, []⟩
  have hfind : e.attributes.find? repeats = some each := by decide +kernel
  have hdeclared : each.decodedValue = String.ofList d.chars := by decide +kernel
  have hassigns : ∀ b ∈ (unrepeated e).attributes, ∀ directive ∈ assigners,
      calls directive b.name = false := by
    decide +kernel
  have hvalue : Evaluator.standard.value run.context d.expression = .ok m := by
    have hchars : d.expression.toList = Grammar.Layout.space.chars ++ atom.chars := by
      decide +kernel
    have hparse : Expr.parse d.expression.toList = atom.toExpr := by
      rw [hchars, parse_blank_append Grammar.Layout.space.blank, atom.parse_chars]
    simp only [Evaluator.standard, hparse]
    rfl
  have hcheck : passes (fun emitted _ =>
      (Document.mk emitted.nodes).render == "<li title=\"1\">a</li><li title=\"2\">b</li>")
      (registry.emit .standard [e.toNode] run) = true := by
    decide +kernel
  obtain ⟨emitted, s, hrun, hrender⟩ := exists_of_passes hcheck
  obtain ⟨hitems, houter, -⟩ :=
    emit_repeated ofDialects_dialect hfind hdeclared hassigns run hvalue
  have hsame := hitems _ (.object [("a", .string "1"), ("b", .string "2")])
  have hk := houter "k" List.mem_cons_self
  rw [hrun] at hsame hk
  refine ⟨ofDialects_dialect, hfind, hdeclared, hassigns, hvalue, emitted, s, hrun,
    eq_of_beq hrender, hk, ?_⟩
  generalize hresult : forItems _ _ _ _ _ = result at hsame
  cases hsame with
  | @ok emitted' _ t _ h =>
    obtain rfl := h.1
    exact ⟨t, hresult⟩

end

end Standard
end NaturalTemplate
