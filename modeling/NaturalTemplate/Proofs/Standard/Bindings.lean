import NaturalTemplate.Proofs.Expression.Derivation
import NaturalTemplate.Proofs.Processing.GoingOn
import NaturalTemplate.Proofs.Standard.Assigned
import NaturalTemplate.Proofs.Standard.Blame

/-!
# What assignments bind

The values of assignments are bound one after the other, in the innermost scope and nowhere else, so
that each expression sees the values before it. They are there for all that follows in the visit of
the element, and are gone after it. If an expression fails, so does the element, and the scopes
around it are as they were.
-/
namespace NaturalTemplate
open Markup Grammar

theorem Call.evaluate_run (call : Call) (text : String) (w : Workspace) :
    call.evaluate text w =
      let left : Workspace := { w with context := (call.evaluator.evaluate text w.context).2 }
      match call.evaluator.value w.context text with
      | .ok v => .ok v left
      | .error cause => .error cause left := by
  show Work.ofExcept (call.evaluator.value w.context text) _ = _
  cases call.evaluator.value w.context text <;> rfl

theorem Context.SameReadable.setLocal {c d : Context} (h : c.SameReadable d) (name : String)
    (v : Value) : (c.setLocal name v).SameReadable (d.setLocal name v) := by
  intro other hother
  by_cases heq : other = name
  · subst heq
    simp only [Context.setLocal, value?_bindInnermost_self]
  · simp only [Context.setLocal, value?_bindInnermost heq, h other hother]

namespace Standard

/-! ## The values of assignments -/

/-- The values of some assignments, each in the context in which those before it are bound. -/
def valuesOf (ev : Evaluator) (c : Context) :
    List (String × String) → Except EngineError (List (String × Value))
  | [] => .ok []
  | (name, text) :: rest =>
    match ev.value c text with
    | .ok v => (valuesOf ev (c.setLocal name v) rest).map ((name, v) :: ·)
    | .error cause => .error cause

theorem valuesOf_of_ok {ev : Evaluator} {c : Context} {name text : String} {v : Value}
    (h : ev.value c text = .ok v) (rest : List (String × String)) :
    valuesOf ev c ((name, text) :: rest) =
      (valuesOf ev (c.setLocal name v) rest).map ((name, v) :: ·) := by
  rw [valuesOf, h]

theorem valuesOf_of_error {ev : Evaluator} {c : Context} {name text : String} {cause : EngineError}
    (h : ev.value c text = .error cause) (rest : List (String × String)) :
    valuesOf ev c ((name, text) :: rest) = .error cause := by
  rw [valuesOf, h]

/-- The bindings of names to some values, that of the last one first. -/
def bindings (values : List (String × Value)) : Scope :=
  values.reverse.map fun x => (x.1, .value x.2)

theorem find?_bindings (values : List (String × Value)) (name : String) :
    ((bindings values).find? name).map Binding.get = values.reverse.lookup name := by
  rw [bindings]
  induction values.reverse with
  | nil => rfl
  | cons x values ih =>
    rw [List.map_cons, Scope.find?_cons, List.lookup_cons]
    by_cases h : name = x.1
    · simp [h, Binding.get]
    · simpa [h, beq_false_of_ne h] using ih

theorem bindings_append (values : List (String × Value)) (name : String) (v : Value) :
    bindings (values ++ [(name, v)]) = (bindings values).bind name (.value v) := by
  simp [bindings, Scope.bind]

/-- What is bound stays bound when values are asked for. -/
theorem within_bindings {values : List (String × Value)} {c d e : Context}
    (h : c.Within ∅ [bindings values] d) (hframe : d.Frame ∅ e) :
    c.Within ∅ [bindings values] e := by
  obtain ⟨newer, hnewer, hwithin⟩ := h.frame hframe
  obtain ⟨s, rest, hs, hrest, rfl⟩ := List.forall₂_cons_left_iff.mp hnewer
  obtain rfl := List.forall₂_nil_left_iff.mp hrest
  rwa [Scope.Frame.eq_of_values hs] at hwithin

/-- The values of assignments are bound in the innermost scope, in their order. If there is an
error, some values before it may have been bound there. -/
theorem bindAll_run {call : Call} (hcall : call.evaluator = .standard) {c d : Context}
    {assigned : List (String × String)} (hnames : ∀ x ∈ assigned, isIdentifier x.1 = true)
    {done : List (String × Value)} {w : Workspace} (hdone : c.Within ∅ [bindings done] w.context)
    (hsame : d.SameReadable w.context) :
    match valuesOf .standard d assigned with
    | .ok values => ∃ left, bindAll call assigned w = .ok () { w with context := left } ∧
        c.Within ∅ [bindings (done ++ values)] left
    | .error cause => ∃ left values,
        bindAll call assigned w = .error cause { w with context := left } ∧
        c.Within ∅ [bindings values] left := by
  induction assigned generalizing d done w with
  | nil =>
    rw [valuesOf]
    exact ⟨w.context, rfl, by rwa [List.append_nil]⟩
  | cons x assigned ih =>
    obtain ⟨name, text⟩ := x
    obtain ⟨hname, hnames⟩ := List.forall_mem_cons.mp hnames
    have hasked := within_bindings hdone (Context.frame_evaluate .standard text w.context)
    have hvalue := Evaluator.value_congr hsame text
    have hevaluate := call.evaluate_run text w
    have hbind : bindAll call ((name, text) :: assigned) = (do
        let v ← call.evaluate text
        Work.changeContext fun c => c.setLocal name v
        bindAll call assigned) := by
      rw [bindAll, hname]
      rfl
    rw [hcall, hvalue] at hevaluate
    cases hv : Evaluator.standard.value d text with
    | error cause =>
      rw [hv] at hevaluate
      rw [valuesOf_of_error hv, hbind]
      exact ⟨_, done, bind_of_eq_error hevaluate, hasked⟩
    | ok v =>
      rw [hv] at hevaluate
      rw [valuesOf_of_ok hv, hbind, bind_of_eq_ok hevaluate]
      -- Asking for values changes none of them.
      have hkept : w.context.SameReadable (Evaluator.standard.evaluate text w.context).2 := by
        have hframe : w.context.Frame ∅ _ := Context.frame_evaluate .standard text w.context
        exact fun other _ => hframe.value? (Set.notMem_empty other)
      have hsame' : d.SameReadable (Evaluator.standard.evaluate text w.context).2 :=
        fun other hother => (hkept other hother).trans (hsame other hother)
      obtain ⟨s, inner, hnewer, hbound⟩ := hasked.bindInnermost name (.value v)
      obtain ⟨rfl, rfl⟩ := List.cons.inj hnewer
      rw [← bindings_append] at hbound
      have hrest := @ih _ hnames _ ⟨w.element, _⟩ hbound (hsame'.setLocal name v)
      cases hvalues : valuesOf .standard (d.setLocal name v) assigned with
      | error cause =>
        rw [hvalues] at hrest
        exact hrest
      | ok values =>
        rw [hvalues] at hrest
        obtain ⟨left, hrun, hleft⟩ := hrest
        rw [List.append_assoc] at hleft
        exact Exists.intro left ⟨hrun, hleft⟩

/-! ## The processor for variables -/

theorem run_of_name_with {p : Processor} (hp : p ∈ processors) (hname : p.name = "with") :
    p.run = bindVariables := by
  have hmem : .forAttribute "with" 600 bindVariables ∈ processors := by simp [processors]
  exact run_of_name hp hmem hname

theorem bindVariables_run {call : Call} {assigned : List (String × String)}
    (hassigned : assignments call.value = .ok assigned) (w : Workspace) :
    bindVariables call w =
      match bindAll call assigned w with
      | .ok _ left => .ok .proceed left
      | .error cause left => .error cause left := by
  unfold bindVariables
  rw [hassigned]
  show EStateM.bind (bindAll call assigned) _ w = _
  unfold EStateM.bind
  cases bindAll call assigned w <;> rfl

/-- The error of an expression says by itself where it belongs. -/
theorem attributed_of_valuesOf {c : Context} {assigned : List (String × String)}
    {cause : EngineError} (h : valuesOf .standard c assigned = .error cause) (id : String)
    (l : Location) : cause.attributed id l = cause := by
  induction assigned generalizing c with
  | nil => cases h
  | cons x assigned ih =>
    obtain ⟨name, text⟩ := x
    cases hv : Evaluator.standard.value c text with
    | error cause' =>
      rw [valuesOf_of_error hv] at h
      cases h
      obtain ⟨text, cause, rfl⟩ := expression_of_value hv
      rfl
    | ok v =>
      rw [valuesOf_of_ok hv] at h
      cases hvalues : valuesOf .standard (c.setLocal name v) assigned with
      | error cause' =>
        rw [hvalues] at h
        cases h
        exact ih hvalues
      | ok values =>
        rw [hvalues] at h
        cases h

section
variable {p : Entry} {before : Workspace} {result : Except EngineError Directive}
  {earlier later : List Deed} {v : Visiting} {entries : List Entry} {as : List Assignment}

/-- What a call of the processor for variables leaves, if its assignments are read as they are
written. -/
theorem run_bindVariables (hp : p.processor.run = bindVariables)
    (hassigned : assignments (p.calledWith .standard before.element).value =
      .ok (as.map Assignment.assigned))
    (hdepth : 0 < before.context.depth) :
    match valuesOf .standard before.context (as.map Assignment.assigned) with
    | .ok values => ∃ left,
        p.processor.run (p.calledWith .standard before.element)
          (p.workspace before.element before.context) = .ok .proceed left ∧
        before.context.Within ∅ [bindings values] left.context
    | .error cause => ∃ left,
        p.processor.run (p.calledWith .standard before.element)
          (p.workspace before.element before.context) = .error cause left ∧
        before.context.pop.Frame ∅ left.context.pop := by
  have hnames : ∀ x ∈ as.map Assignment.assigned, isIdentifier x.1 = true :=
    List.forall_mem_map.mpr fun a _ => a.name.name.valid
  have hbound := @bindAll_run (p.calledWith .standard before.element) rfl before.context
    before.context _ hnames [] (p.workspace before.element before.context)
    (Context.within_self hdepth) fun _ _ => rfl
  rw [hp, bindVariables_run hassigned]
  cases hvalues : valuesOf .standard before.context (as.map Assignment.assigned) with
  | ok values =>
    rw [hvalues] at hbound
    obtain ⟨left, hrun, hleft⟩ := hbound
    rw [hrun]
    exact ⟨_, rfl, hleft⟩
  | error cause =>
    rw [hvalues] at hbound
    obtain ⟨left, values, hrun, hleft⟩ := hbound
    rw [hrun]
    exact ⟨_, rfl, hleft.pop⟩

/-- A list of assignments is read as those that it is made of exactly if their expressions can be
told apart, as they can if each literal substitution in brackets closes what it opens. Then the call
binds the names in the scope of the element, in their order, each to the value of its expression in
the context in which those before it are bound. In all that follows in the visit, the later calls,
the nodes inside the element and the visits of these, a name stands for what it was bound to last,
unless a newer binding shadows it. If an expression fails, the element fails with its error, and the
scopes around are as they were. After the visit of the element, all scopes are as they were before
it, but for what a case notes. -/
theorem bindings_of_assignments
    (hentries : ∀ q ∈ entries, q.processor.IsLocal ∨ q.processor ∈ processors)
    (hpending : v.pending ⊆ entries) (hp : p.processor.run = bindVariables)
    (hcalls : v.Calls .standard (earlier ++ .called p before result :: later)) (hne : as ≠ [])
    (htext : (p.calledWith .standard before.element).value =
      String.ofList (Assignment.list as)) :
    ((∀ a ∈ as, a.expression.Sheltered false) → Assignment.Apart as) ∧
      (assignments (p.calledWith .standard before.element).value =
        .ok (as.map Assignment.assigned) ↔ Assignment.Apart as) ∧
      (Assignment.Apart as →
        match valuesOf .standard before.context (as.map Assignment.assigned) with
        | .ok values => result = .ok .proceed ∧ ∃ left,
            p.processor.run (p.calledWith .standard before.element)
              (p.workspace before.element before.context) = .ok .proceed left ∧
            before.context.Within ∅ [bindings values] left.context ∧
            ∀ c, v.GoesOnIn .standard entries later c →
              ∃ newer, left.context.Within {switchName} newer c ∧ ∀ name, name ≠ switchName →
                c.value? name = ((newer.findSome? (Scope.find? name)).map Binding.get).or
                  ((values.reverse.lookup name).or (before.context.value? name))
        | .error cause => result = .error cause ∧ later = [] ∧ ∃ s,
            v.emitted .standard entries = .error (.error cause) s ∧
            before.context.pop.Frame ∅ s.context) ∧
      v.start.context.Frame {switchName} before.context.pop ∧
      v.start.context.Frame {switchName}
        (finalState (v.emitted .standard entries)).context := by
  have hwrites : ∀ q ∈ entries, q.processor.Writes {switchName} := by
    intro q hq
    obtain hlocal | hmem := hentries q hq
    · exact hlocal.mono (Set.empty_subset _)
    · exact writes_of_mem_processors hmem
  have hwrites' : ∀ q ∈ v.pending, q.processor.Writes {switchName} := fun q hq =>
    hwrites q (hpending hq)
  have hread := Assignment.assignments_list_iff hne
  rw [← htext] at hread
  obtain ⟨hdepth, houter⟩ :=
    hcalls.outerFrame hwrites' (List.mem_append_right _ List.mem_cons_self)
  refine ⟨Assignment.apart_of_sheltered, hread, fun hapart => ?_, houter,
    keeps_visit hwrites v.fuel hwrites' v.element v.start⟩
  have hrun := run_bindVariables hp (hread.mpr hapart) hdepth
  cases hvalues : valuesOf .standard before.context (as.map Assignment.assigned) with
  | error cause =>
    rw [hvalues] at hrun
    obtain ⟨left, hrun, hleft⟩ := hrun
    have hblamed := attributed_of_valuesOf hvalues p.id before.element.location
    obtain ⟨hresult, hlater, s, hemitted, hs⟩ := hcalls.fails hrun
    rw [hblamed] at hresult hemitted
    exact ⟨hresult, hlater, s, hemitted, hs ▸ hleft⟩
  | ok values =>
    rw [hvalues] at hrun
    obtain ⟨left, hrun, hleft⟩ := hrun
    obtain ⟨hresult, hwithin⟩ := hcalls.proceeds hwrites hwrites' hrun
    refine ⟨hresult, left, hrun, hleft, fun c hc => ?_⟩
    obtain ⟨newer, hnewer⟩ := hwithin c hc
    refine ⟨newer, hnewer, fun name hne => ?_⟩
    rw [hnewer.value?_eq hne, hleft.value?_eq (Set.notMem_empty name), List.findSome?_singleton,
      find?_bindings]

/-- A name is bound twice, the second time after it was used, to a string that has a comma. -/
theorem bindings_of_assignments_twice :
    let e : Element := ⟨{ name := "p", attributes :=
      [⟨" ", "th:with", "=", some "a=${x}, b=${a} + '!', a='it,s'", .double, {}⟩,
        ⟨" ", "th:text", "=", some "${a}", .double, {}⟩] }, [], .explicit "</p>"⟩
    let c : Context := { root := [("x", .value (.string "1"))] }
    let v : Visiting := ⟨registry.fuel e, registry.entries, e, { context := c }⟩
    let plain (name : Identifier) : Segment := ⟨.none, name, .none⟩
    let spaced (name : Identifier) : Segment := ⟨.space, name, .none⟩
    let a : Identifier := ⟨"a", by decide +kernel⟩
    let b : Identifier := ⟨"b", by decide +kernel⟩
    let x : Identifier := ⟨"x", by decide +kernel⟩
    let mark : Quoted := .plain '!' (by decide)
    let word : List Quoted := [.plain 'i' (by decide), .plain 't' (by decide),
      .plain ',' (by decide), .plain 's' (by decide)]
    let as : List Assignment :=
      [⟨plain a, .none, Atom.phrase (.variable ⟨plain x, []⟩), .none⟩,
        ⟨spaced b, .none, (Phrase.binary .add (Atom.phrase (.variable ⟨plain a, []⟩))
          (.spaces .add) (Atom.phrase (.string [mark]))).anywhere, .none⟩,
        ⟨spaced a, .none, Atom.phrase (.string word), .none⟩]
    (∀ q ∈ registry.entries, q.processor.IsLocal ∨ q.processor ∈ processors) ∧
      Assignment.Apart as ∧
      (∃ p later left values, p.processor.run = bindVariables ∧
        (p.calledWith .standard e).value = String.ofList (Assignment.list as) ∧
        v.Calls .standard (.called p ⟨e, c.push⟩ (.ok .proceed) :: later) ∧
        p.processor.run (p.calledWith .standard e) (p.workspace e c.push) = .ok .proceed left ∧
        values.map (fun x => (x.1, x.2.text?)) =
          [("a", some "1"), ("b", some "1!"), ("a", some "it,s")] ∧
        c.push.Within ∅ [bindings values] left.context ∧
        ∀ inner, v.GoesOnIn .standard registry.entries later inner → ∃ newer,
          left.context.Within {switchName} newer inner ∧ ∀ name, name ≠ switchName →
            inner.value? name = ((newer.findSome? (Scope.find? name)).map Binding.get).or
              ((values.reverse.lookup name).or (c.push.value? name))) ∧
      ∃ emitted s, v.emitted .standard registry.entries = .ok emitted s ∧
        (Document.mk emitted.nodes).render = "<p>it,s</p>" ∧ c.Frame {switchName} s.context := by
  intro e c v plain spaced a b x mark word as
  have hentries : ∀ q ∈ registry.entries, q.processor.IsLocal ∨ q.processor ∈ processors :=
    fun q hq => .inr (mem_processors_of_mem_registry hq)
  have hfirst : (Entry.next? e registry.entries).any (fun found =>
      found.1.processor.name == "with" &&
        (found.1.calledWith .standard e).value.toList == Assignment.list as) = true := by
    decide +kernel
  have hmade : (finalState (v.settled .standard)).deeds.length = 2 := by decide +kernel
  have hvalues : (valuesOf .standard c.push (as.map Assignment.assigned)).toOption.any
      (fun values => values.map (fun x => (x.1, x.2.text?)) ==
        [("a", some "1"), ("b", some "1!"), ("a", some "it,s")]) = true := by
    decide +kernel
  have hrender : passes (fun emitted _ => (Document.mk emitted.nodes).render == "<p>it,s</p>")
      (v.emitted .standard registry.entries) = true := by
    decide +kernel
  -- The first call is the one of the processor for variables.
  obtain ⟨calls, hcalls⟩ := Visiting.exists_calls .standard (v := v) (Nat.succ_ne_zero _)
  cases calls with
  | nil => exact absurd (congrArg List.length hcalls.deeds) (by rw [hmade]; decide)
  | cons d later =>
    obtain ⟨p, others, hnext, ⟨result, rfl⟩, -⟩ := exists_of_deeds_settle hcalls.deeds
    rw [hnext, Option.any_some, Bool.and_eq_true] at hfirst
    obtain ⟨hname, htext⟩ := hfirst
    have hp : p.processor.run = bindVariables :=
      run_of_name_with (mem_processors_of_mem_registry (Entry.mem_of_next? hnext).1)
        (eq_of_beq hname)
    have htext' : (p.calledWith .standard e).value = String.ofList (Assignment.list as) := by
      rw [← eq_of_beq htext, String.ofList_toList]
    obtain ⟨hsheltered, -, hbound, -, hframe⟩ :=
      @bindings_of_assignments p ⟨e, c.push⟩ result [] later v registry.entries as hentries
        (List.Subset.refl _) hp hcalls (List.cons_ne_nil _ _) htext'
    have hapart : Assignment.Apart as := by
      refine hsheltered ?_
      simp only [as, List.forall_mem_cons]
      exact ⟨trivial, ⟨trivial, trivial⟩, trivial, nofun⟩
    have hbound := hbound hapart
    obtain ⟨values, hvalues, htexts⟩ := exists_of_any_toOption hvalues
    rw [hvalues] at hbound
    obtain ⟨rfl, left, hrun, hleft, hinner⟩ := hbound
    obtain ⟨emitted, s, hemitted, hrender⟩ := exists_of_passes hrender
    rw [hemitted] at hframe
    exact ⟨hentries, hapart, ⟨p, later, left, values, hp, htext', hcalls, hrun, eq_of_beq htexts,
      hleft, hinner⟩, emitted, s, hemitted, eq_of_beq hrender, hframe⟩

/-- Inside brackets, the quote of a literal substitution is taken for the beginning of a string. So
the comma after the bracket is not seen, and two assignments are read as one, which has no value. -/
theorem assignments_merged :
    let plain (name : Identifier) : Segment := ⟨.none, name, .none⟩
    let spaced (name : Identifier) : Segment := ⟨.space, name, .none⟩
    let text : Substitution := ⟨[.char 'i', .char 't', .char '\'', .char 's'],
      by simp [Part.Apart], by decide, by decide⟩
    let two : Number := ⟨['2'], ⟨'2', rfl, .inl (by decide)⟩, by decide, by decide +kernel⟩
    let as : List Assignment :=
      [⟨plain ⟨"a", by decide +kernel⟩, .none,
          (Phrase.bracket .none (Atom.phrase (.substitution text)) .none).anywhere, .none⟩,
        ⟨spaced ⟨"b", by decide +kernel⟩, .none, Atom.phrase (.number two), .none⟩]
    let engine : Engine := ⟨{}, registry, .standard⟩
    let c : Context := { root := [] }
    Registry.ofDialects [dialect] = .ok engine.registry ∧
      Assignment.list as = "a=(|it's|), b=2".toList ∧
      (∃ values, valuesOf engine.evaluator c (as.map Assignment.assigned) = .ok values ∧
        values.map (fun x => (x.1, x.2.text?)) = [("a", some "it's"), ("b", some "2")]) ∧
      assignments "a=(|it's|), b=2" = .ok [("a", "(|it's|), b=2")] ∧
      ∃ d left, engine.parse "<p th:with=\"a=(|it's|), b=2\" th:text=\"${b}\">_</p>" = .ok d ∧
        engine.processTemplate d c = (.error (.expression "(|it's|), b=2"
          (.malformed (.unrecognized "(|it's|), b=2"))), left) := by
  intro plain spaced text two as engine c
  have hlist : Assignment.list as = "a=(|it's|), b=2".toList := by decide +kernel
  have hvalues : (valuesOf engine.evaluator c (as.map Assignment.assigned)).toOption.any
      (fun values => values.map (fun x => (x.1, x.2.text?)) ==
        [("a", some "it's"), ("b", some "2")]) = true := by
    decide +kernel
  have hread : assignments "a=(|it's|), b=2" = .ok [("a", "(|it's|), b=2")] := by decide +kernel
  have hcheck : (engine.parse
      "<p th:with=\"a=(|it's|), b=2\" th:text=\"${b}\">_</p>").toOption.any
      (fun d => (engine.processTemplate d c).1 = .error (.expression "(|it's|), b=2"
        (.malformed (.unrecognized "(|it's|), b=2")))) = true := by
    decide +kernel
  obtain ⟨values, hvalues, htexts⟩ := exists_of_any_toOption hvalues
  obtain ⟨d, hparse, hcheck⟩ := exists_of_any_toOption hcheck
  exact ⟨ofDialects_dialect, hlist, ⟨values, hvalues, eq_of_beq htexts⟩, hread, d, _, hparse,
    Prod.ext (of_decide_eq_true hcheck) rfl⟩

end

end Standard
end NaturalTemplate
