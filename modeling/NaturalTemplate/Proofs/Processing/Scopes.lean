import NaturalTemplate.Markup.Node.Render
import NaturalTemplate.Proofs.Standard.Writes

/-!
# Scopes end with their elements

An element and an item of a repetition each have a scope of their own, which ends with them, whether
their processing succeeds, fails or halts the template. So nodes leave the context as they found it,
and several nodes can be processed one part after the other.
-/
namespace NaturalTemplate
open Markup

variable {ev : Evaluator} {written : Set String}

theorem bind_of_eq_ok {ε σ α β : Type} {x : EStateM ε σ α} {f : α → EStateM ε σ β} {a : α}
    {r s : σ} (h : x r = .ok a s) : (x >>= f) r = f a s := by
  show EStateM.bind x f r = _
  rw [EStateM.bind, h]

theorem bind_of_eq_error {ε σ α β : Type} {x : EStateM ε σ α} {f : α → EStateM ε σ β} {e : ε}
    {r s : σ} (h : x r = .error e s) : (x >>= f) r = .error e s := by
  show EStateM.bind x f r = _
  rw [EStateM.bind, h]

/-- What two steps gave came of the first step, and then of the second. -/
theorem eq_ok_of_bind {ε σ α β : Type} {x : EStateM ε σ α} {f : α → EStateM ε σ β} {b : β}
    {r t : σ} (h : (x >>= f) r = .ok b t) : ∃ a s, x r = .ok a s ∧ f a s = .ok b t := by
  simp only [bind, EStateM.bind] at h
  cases hx : x r with
  | error failure s =>
    rw [hx] at h
    cases h
  | ok a s =>
    rw [hx] at h
    exact ⟨a, s, rfl, h⟩

/-- Two steps fail if the first fails, or the second after it. -/
theorem eq_error_of_bind {ε σ α β : Type} {x : EStateM ε σ α} {f : α → EStateM ε σ β} {e : ε}
    {r t : σ} (h : (x >>= f) r = .error e t) :
    x r = .error e t ∨ ∃ a s, x r = .ok a s ∧ f a s = .error e t := by
  simp only [bind, EStateM.bind] at h
  cases hx : x r with
  | error failure s =>
    rw [hx] at h
    cases h
    exact .inl rfl
  | ok a s =>
    rw [hx] at h
    exact .inr ⟨a, s, rfl, h⟩

/-! ## What processors leave -/

theorem Entry.mem_of_next? {e : Element} {pending others : List Entry} {p : Entry}
    (h : Entry.next? e pending = some (p, others)) : p ∈ pending ∧ others ⊆ pending := by
  induction pending generalizing others with
  | nil => simp [next?] at h
  | cons q qs ih =>
    rw [next?] at h
    split at h
    · cases h
      exact ⟨List.mem_cons_self, List.subset_cons_self _ _⟩
    · obtain ⟨⟨found, rest⟩, hnext, heq⟩ := Option.map_eq_some_iff.mp h
      cases heq
      obtain ⟨hmem, hsub⟩ := ih hnext
      exact ⟨List.mem_cons_of_mem _ hmem, List.cons_subset_cons _ hsub⟩

theorem Entry.matches?_of_next? {e : Element} {pending others : List Entry} {p : Entry}
    (h : Entry.next? e pending = some (p, others)) : p.target.matches? e = true := by
  induction pending generalizing others with
  | nil => simp [next?] at h
  | cons q qs ih =>
    rw [next?] at h
    split at h
    · next hmatch =>
      cases h
      exact hmatch
    · obtain ⟨⟨found, rest⟩, hnext, heq⟩ := Option.map_eq_some_iff.mp h
      cases heq
      exact ih hnext

/-- The processor that is found is the first one that matches. -/
theorem Entry.exists_of_next? {e : Element} {pending others : List Entry} {p : Entry}
    (h : Entry.next? e pending = some (p, others)) :
    ∃ front back, pending = front ++ p :: back ∧ others = front ++ back ∧
      ∀ q ∈ front, q.target.matches? e = false := by
  induction pending generalizing others with
  | nil => simp [next?] at h
  | cons q qs ih =>
    rw [next?] at h
    split at h
    · cases h
      exact ⟨[], qs, rfl, rfl, by simp⟩
    · next hq =>
      obtain ⟨⟨found, rest⟩, hnext, heq⟩ := Option.map_eq_some_iff.mp h
      cases heq
      obtain ⟨front, back, rfl, rfl, hfront⟩ := ih hnext
      exact ⟨q :: front, back, rfl, rfl,
        List.forall_mem_cons.mpr ⟨by simpa using hq, hfront⟩⟩

theorem matches?_of_next?_eq_none {pending : List Entry} {e : Element}
    (h : Entry.next? e pending = none) : ∀ q ∈ pending, q.target.matches? e = false := by
  induction pending with
  | nil => exact List.forall_mem_nil _
  | cons p pending ih =>
    rw [Entry.next?] at h
    split at h
    · cases h
    · next hp => exact List.forall_mem_cons.mpr ⟨by simpa using hp, ih (by simpa using h)⟩

/-- What a processor is called with for an element. -/
def Entry.calledWith (ev : Evaluator) (p : Entry) (e : Element) : Call :=
  ⟨ev, (takeAttributes e (p.target.claimed e)).1.head?⟩

/-- What a processor that is called for an element starts from. -/
def Entry.workspace (p : Entry) (e : Element) (c : Context) : Workspace :=
  ⟨(takeAttributes e (p.target.claimed e)).2, c⟩

theorem Entry.call_run (p : Entry) (e : Element) (r : Run) :
    p.call ev e r =
      match p.processor.run (p.calledWith ev e) (p.workspace e r.context) with
      | .ok directive w =>
        .ok (directive, w.element)
          ⟨w.context, .called p ⟨e, r.context⟩ (.ok directive) :: r.deeds⟩
      | .error cause w =>
        .error (.error (cause.attributed p.id e.location))
          ⟨w.context,
            .called p ⟨e, r.context⟩ (.error (cause.attributed p.id e.location)) :: r.deeds⟩ := by
  unfold call calledWith workspace
  cases takeAttributes e (p.target.claimed e) with
  | mk taken rest =>
    show (match p.processor.run ⟨ev, taken.head?⟩ ⟨rest, r.context⟩ with
      | .ok _ _ => _ | .error _ _ => _ : Running _) r = _
    cases p.processor.run ⟨ev, taken.head?⟩ ⟨rest, r.context⟩ <;> rfl

/-- A call of a processor changes of a run's context what the processor changes. -/
theorem Entry.keeps_call {p : Entry} (hp : p.processor.Writes written) (e : Element) :
    Keeps Run.context (Context.OuterFrame written) (p.call ev e) := by
  intro r
  have hchanged := hp (p.calledWith ev e) (p.workspace e r.context)
  rw [call_run]
  split
  all_goals
    next hrun =>
    rw [hrun] at hchanged
    exact hchanged.outerFrame

/-- What becomes of an element at some place after the answer of a processor. -/
def answered (ev : Evaluator) (others : List Entry) (children : Bool) (location : Location) :
    Directive × Element → Running Outcome
  | (.proceed, e) => settle ev others children e
  | (.skipChildren, e) => settle ev others false e
  | (.removeNode, _) => return .drop
  | (.removeBody, e) => return .keep (e.setChildren []) false
  | (.replace nodes, _) => return .splice nodes
  | (.iterate items binding status, e) =>
    return .iterate e others items binding (status.getD (IterationStatus.defaultName binding))
  | (.halt earlyExit, _) => return .halt ⟨location, earlyExit⟩

theorem settle_of_next?_eq_none {pending : List Entry} {children : Bool} {e : Element}
    (h : Entry.next? e pending = none) :
    settle ev pending children e = Pure.pure (.keep e children) := by
  rw [settle]
  split <;> simp_all

theorem settle_of_next? {pending others : List Entry} {children : Bool} {e : Element} {p : Entry}
    (h : Entry.next? e pending = some (p, others)) :
    settle ev pending children e = p.call ev e >>= answered ev others children e.location := by
  rw [settle]
  split
  · simp_all
  · next hnext =>
    cases h.symm.trans hnext
    refine congrArg _ (funext fun result => ?_)
    obtain ⟨directive, e⟩ := result
    cases directive <;> rfl

theorem keeps_settle {pending : List Entry} (hp : ∀ p ∈ pending, p.processor.Writes written)
    (children : Bool) (e : Element) :
    Keeps Run.context (Context.OuterFrame written) (settle ev pending children e) := by
  induction pending, children, e using settle.induct with
  | case1 pending children e hnext =>
    rw [settle_of_next?_eq_none hnext]
    exact .pure _
  | case2 pending children e p others hnext ihproceed ihskip =>
    obtain ⟨hmem, hsub⟩ := Entry.mem_of_next? hnext
    have hothers := fun q hq => hp q (hsub hq)
    rw [settle_of_next? hnext]
    refine (Entry.keeps_call (hp p hmem) e).bind fun result => ?_
    obtain ⟨directive, e⟩ := result
    cases directive with
    | proceed => exact ihproceed e hothers
    | skipChildren => exact ihskip e hothers
    | _ => exact .pure _

/-- The processors that are left for an element that is repeated. -/
def Outcome.pending : Outcome → List Entry
  | iterate _ pending _ _ _ => pending
  | _ => []

/-- An element that is repeated is left to some of the processors that were pending for it. -/
theorem pending_of_settle {pending : List Entry} {children : Bool} {e : Element} {r s : Run}
    {outcome : Outcome} (h : settle ev pending children e r = .ok outcome s) :
    outcome.pending ⊆ pending := by
  induction pending, children, e using settle.induct generalizing r with
  | case1 pending children e hnext =>
    rw [settle_of_next?_eq_none hnext] at h
    cases h
    exact List.nil_subset _
  | case2 pending children e p others hnext ihproceed ihskip =>
    obtain ⟨-, hsub⟩ := Entry.mem_of_next? hnext
    rw [settle_of_next? hnext] at h
    obtain ⟨⟨directive, e⟩, t, -, h⟩ := eq_ok_of_bind h
    cases directive with
    | proceed => exact List.Subset.trans (ihproceed e h) hsub
    | skipChildren => exact List.Subset.trans (ihskip e h) hsub
    | iterate items binding status =>
      cases h
      exact hsub
    | _ =>
      cases h
      exact List.nil_subset _

/-! ## Nodes -/

theorem frame_expand (part : Inline.Segment) (c : Context) :
    c.Frame written (part.expand ev c).2 := by
  cases part with
  | literal text => exact .refl c
  | expression text escaped =>
    have heval : c.Frame written (ev.evaluate (String.ofList text) c).2 :=
      Context.frame_evaluate ev _ c
    simp only [Inline.Segment.expand]
    generalize ev.evaluate (String.ofList text) c = outcome at *
    obtain ⟨result, d⟩ := outcome
    cases result <;> exact heval

theorem frame_expandAll (parts : List Inline.Segment) (c : Context) :
    c.Frame written (Inline.expandAll ev parts c).2 := by
  induction parts generalizing c with
  | nil => exact .refl c
  | cons part parts ih =>
    have hpart : c.Frame written (part.expand ev c).2 := frame_expand part c
    unfold Inline.expandAll
    generalize part.expand ev c = outcome at *
    obtain ⟨result, d⟩ := outcome
    cases result with
    | error cause => exact hpart
    | ok front =>
      have hparts : d.Frame written (Inline.expandAll ev parts d).2 := ih d
      simp only
      generalize Inline.expandAll ev parts d = outcome at *
      obtain ⟨result, e⟩ := outcome
      cases result <;> exact hpart.trans hparts

theorem frame_expand? (text : String) (c : Context) :
    c.Frame written (Inline.expand? ev text c).2 := by
  have hall : c.Frame written (Inline.expandAll ev (Inline.segments text.toList) c).2 :=
    frame_expandAll _ c
  simp only [Inline.expand?]
  split
  · generalize Inline.expandAll ev (Inline.segments text.toList) c = outcome at *
    obtain ⟨result, d⟩ := outcome
    cases result <;> exact hall
  · exact .refl c

/-- Text is written as it is, or with what its expressions stand for. -/
theorem emitText_run (content : String) (location : Location) (r : Run) :
    emitText ev content location r =
      let c := r.context.touch Context.inliningName
      if r.context.isInlining = true then
        match Inline.expand? ev content c with
        | (.ok expanded, d) =>
          .ok ⟨[.text (expanded.getD content) location], none⟩ ⟨d, .expanded content :: r.deeds⟩
        | (.error cause, d) => .error (.error cause) ⟨d, .expanded content :: r.deeds⟩
      else .ok ⟨[.text content location], none⟩ ⟨c, r.deeds⟩ := by
  change (if r.context.isInlining = true then _ else pure ⟨[.text content location], none⟩ :
    Running Emitted) { r with context := r.context.touch Context.inliningName } = _
  split
  · rw [get_bind_apply]
    cases hexpand : Inline.expand? ev content (r.context.touch Context.inliningName) with
    | mk expanded d =>
      dsimp only
      rw [hexpand]
      cases expanded <;> rfl
  · rfl

theorem keeps_emitText (content : String) (location : Location) :
    Keeps Run.context (Context.Frame written) (emitText ev content location) := by
  refine .bind (fun _ => .refl _) fun r => ?_
  refine (Running.keeps_changeContext fun c => Context.frame_touch c _).bind fun _ => ?_
  split
  · refine .get_bind fun s => ?_
    have hexpand : s.context.Frame written (Inline.expand? ev content s.context).2 :=
      frame_expand? content s.context
    generalize Inline.expand? ev content s.context = outcome at *
    obtain ⟨result, d⟩ := outcome
    cases result <;> exact hexpand
  · exact .pure _

theorem keeps_emitAll {visit : Element → Running Emitted}
    (hvisit : ∀ e, Keeps Run.context (Context.Frame written) (visit e)) (nodes : List Node) :
    Keeps Run.context (Context.Frame written) (emitAll ev visit nodes) := by
  induction nodes with
  | nil => exact .pure _
  | cons n ns ih =>
    refine Running.keeps_andThen ?_ ih
    cases n with
    | element tag children endTag => exact hvisit _
    | text content location => exact keeps_emitText content location
    | _ => exact .pure _

/-- What is bound for an item of a repetition is gone after it. -/
theorem keeps_item {body : Running Emitted}
    (hbody : Keeps Run.context (Context.Frame written) body) (binding status : String)
    (item state : Value) :
    Keeps Run.context (Context.Frame written)
      (Running.inScope do
        Running.changeContext fun c => (c.setLocal binding item).setLocal status state
        body) := by
  refine Running.keeps_inScope ((Running.keeps_changeContext fun c => ?_).bind fun _ => ?_)
  · exact ((Context.Changed.setLocal binding item c).trans (.setLocal status _ _)).outerFrame
  · exact hbody.mono fun _ _ h => h.outer

theorem keeps_emitItems {body : Running Emitted}
    (hbody : Keeps Run.context (Context.Frame written) body) (binding status : String)
    (size index : Nat) (items : List Value) :
    Keeps Run.context (Context.Frame written) (emitItems body binding status size index items) := by
  induction items generalizing index with
  | nil => exact .pure _
  | cons item items ih =>
    exact Running.keeps_andThen (keeps_item hbody binding status item _) (ih _)

/-- Whatever is nested in an element, its scopes end with it. -/
theorem keeps_visit {entries : List Entry} (hentries : ∀ p ∈ entries, p.processor.Writes written)
    (fuel : Nat) {pending : List Entry} (hpending : ∀ p ∈ pending, p.processor.Writes written)
    (e : Element) :
    Keeps Run.context (Context.Frame written) (visit ev entries fuel pending e) := by
  induction fuel generalizing pending e with
  | zero => exact .throw _
  | succ fuel ih =>
    have hall : ∀ nodes, Keeps Run.context (Context.Frame written)
        (emitAll ev (visit ev entries fuel entries) nodes) := keeps_emitAll fun e => ih hentries e
    rw [visit]
    refine Running.keeps_inScope ((keeps_settle hpending true e).bind_of ?_)
    intro outcome r t hsettle
    have hsub := pending_of_settle hsettle
    cases outcome with
    | keep e children =>
      cases children with
      | false => exact (Context.Frame.refl _).outer
      | true => exact ((hall e.children).bind fun _ => .pure _) t |>.outer
    | drop => exact (Context.Frame.refl _).outer
    | splice nodes => exact (hall nodes t).outer
    | iterate e pending items binding status =>
      have hbody := ih (fun p hp => hpending p (hsub hp)) e
      exact (keeps_emitItems hbody binding status _ _ items t).outer
    | halt h => exact (Context.Frame.refl _).outer

/-! ## One part after the other -/

namespace Running

theorem andThen_run (x y : Running Emitted) (r : Run) :
    andThen x y r =
      match x r with
      | .ok first s =>
        if first.halt.isSome then .ok first s
        else
          match y s with
          | .ok second t => .ok (first.append second) t
          | .error failure t => .error failure t
      | .error failure s => .error failure s := by
  show EStateM.bind x _ r = _
  unfold EStateM.bind
  cases x r with
  | error failure s => rfl
  | ok first s =>
    by_cases hhalt : first.halt.isSome
    · simp only [hhalt, if_true]
      rfl
    · simp only [hhalt]
      show EStateM.bind y _ s = _
      unfold EStateM.bind
      cases y s <;> rfl

theorem andThen_nothing (x : Running Emitted) : andThen (Pure.pure {}) x = x := by
  funext r
  rw [andThen_run]
  show (match x r with | .ok second t => _ | .error failure t => _) = x r
  cases x r <;> rfl

theorem andThen_assoc (x y z : Running Emitted) :
    andThen (andThen x y) z = andThen x (andThen y z) := by
  funext r
  simp only [andThen_run]
  cases x r with
  | error failure s => rfl
  | ok first s =>
    by_cases hfirst : first.halt.isSome
    · simp [hfirst]
    · simp only [hfirst, if_false, Bool.false_eq_true]
      cases y s with
      | error failure t => rfl
      | ok second t =>
        by_cases hsecond : second.halt.isSome
        · simp [Emitted.append, hsecond]
        · simp only [Emitted.append, hsecond, if_false, Bool.false_eq_true]
          cases z t <;> simp

end Running

theorem emitAll_append (visit : Element → Running Emitted) (a b : List Node) :
    emitAll ev visit (a ++ b) = Running.andThen (emitAll ev visit a) (emitAll ev visit b) := by
  induction a with
  | nil => exact (Running.andThen_nothing _).symm
  | cons n a ih =>
    simp only [List.cons_append, emitAll]
    rw [ih, Running.andThen_assoc]

namespace Registry

/-- Processors that bind in the innermost scope only, or those of the standard dialect where no
switch is around, leave the frame of a context. -/
theorem keeps_emit {r : Registry} {run : Run}
    (hr : (∀ p ∈ r.entries, p.processor.IsLocal) ∨
      (∀ p ∈ r.entries, p.processor.IsLocal ∨ p.processor ∈ Standard.processors) ∧
        run.context.binding? Standard.switchName = none)
    (nodes : List Node) :
    run.context.Frame ∅ (finalState (r.emit ev nodes run)).context := by
  obtain hlocal | ⟨hstandard, hswitch⟩ := hr
  · exact keeps_emitAll (fun e => keeps_visit hlocal _ hlocal e) nodes run
  · have hwrites : ∀ p ∈ r.entries, p.processor.Writes {Standard.switchName} := by
      intro p hp
      obtain hlocal | hmem := hstandard p hp
      · exact hlocal.mono (Set.empty_subset _)
      · exact Standard.writes_of_mem_processors hmem
    have hframe : run.context.Frame {Standard.switchName}
        (finalState (r.emit ev nodes run)).context :=
      keeps_emitAll (fun e => keeps_visit hwrites _ hwrites e) nodes run
    refine hframe.of_binding?_eq_none fun n hn => ?_
    rwa [show n = Standard.switchName from hn]

/-- Processing nodes leaves the depth of the context and all that is bound in its scopes as it was,
but for values that were asked for, also where it fails or halts the template. The nodes of two
lists are therefore processed as one list after the other. -/
theorem emit_append {r : Registry} {run : Run}
    (hr : (∀ p ∈ r.entries, p.processor.IsLocal) ∨
      (∀ p ∈ r.entries, p.processor.IsLocal ∨ p.processor ∈ Standard.processors) ∧
        run.context.binding? Standard.switchName = none)
    (a b : List Node) :
    (finalState (r.emit ev a run)).context.depth = run.context.depth ∧
      run.context.Frame ∅ (finalState (r.emit ev a run)).context ∧
      (∀ failure s, r.emit ev a run = .error failure s →
        r.emit ev (a ++ b) run = .error failure s) ∧
      ∀ first s, r.emit ev a run = .ok first s → first.halt = none →
        r.emit ev (a ++ b) run =
          match r.emit ev b s with
          | .ok second t => .ok ⟨first.nodes ++ second.nodes, second.halt⟩ t
          | .error failure t => .error failure t := by
  have hframe : run.context.Frame ∅ (finalState (r.emit ev a run)).context := keeps_emit hr a
  have happend : r.emit ev (a ++ b) = Running.andThen (r.emit ev a) (r.emit ev b) :=
    emitAll_append _ a b
  refine ⟨hframe.depth_eq, hframe, fun failure s ha => ?_, fun first s ha hhalt => ?_⟩
  · rw [happend, Running.andThen_run, ha]
  · rw [happend, Running.andThen_run, ha]
    simp only [hhalt, Option.isSome_none, Bool.false_eq_true, if_false, Emitted.append]

/-- A case notes in the scope of its switch that it matched; the context around both is left as it
was, but for the value that was asked for. -/
theorem emit_append_switch :
    let option (value : String) : Node := .element
      { name := "b", attributes := [⟨" ", "th:case", "=", some value, .double, {}⟩] } [] .implicit
    let choice : Node := .element
      { name := "p", attributes := [⟨" ", "th:switch", "=", some "${x}", .double, {}⟩] }
      [option "'1'", option "'2'", option "*"] (.explicit "</p>")
    let run : Run := { context := { root := [("x", .lazy (Thunk.pure (.string "2")))] } }
    let result := emit { entries := Standard.dialect.entries } .standard [choice] run
    run.context.Frame ∅ (finalState result).context ∧
      (match result with
        | .ok emitted _ => (Document.mk emitted.nodes).render == "<p><b></p>"
        | .error _ _ => false) = true := by
  intro option choice run result
  have hr : (∀ p ∈ Standard.dialect.entries, p.processor.IsLocal) ∨
      (∀ p ∈ Standard.dialect.entries,
        p.processor.IsLocal ∨ p.processor ∈ Standard.processors) ∧
        run.context.binding? Standard.switchName = none :=
    .inr ⟨fun p hp => .inr (Standard.mem_processors_of_mem_entries hp), rfl⟩
  have happend := @emit_append .standard { entries := Standard.dialect.entries } run hr [choice] []
  exact ⟨happend.2.1, by decide +kernel⟩

end Registry
end NaturalTemplate
