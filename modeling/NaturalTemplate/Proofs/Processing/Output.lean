import NaturalTemplate.Proofs.Standard.Registry
import NaturalTemplate.Proofs.Standard.Safe

/-!
# The output of tame templates

Where the standard processors are called and text is not expanded, the nodes that a tame template
leads to can be written and parsed again.
-/
namespace NaturalTemplate
open Markup

theorem name_takeAttributes (e : Element) (names : List String) :
    (takeAttributes e names).2.name = e.name := by
  induction names generalizing e with
  | nil => rfl
  | cons name names ih => exact ih (e.removeAttribute name)

namespace Standard

variable {ev : Evaluator} {policy : CommentPolicy}

/-! ## Calls -/

/-- The attribute that a processor is called with is one of the element that calls for it. -/
theorem exists_trigger {p : Entry} {directive : String} {e : Element}
    (htarget : p.target = .ofRule dialect.qualifier (.attribute directive))
    (hmatch : p.target.matches? e = true) :
    ∃ a ∈ e.attributes, (p.calledWith ev e).trigger = some a ∧ calls directive a.name = true := by
  have hclaims : ∀ a, p.target.claims a = calls directive a.name := by
    rw [htarget]
    exact claims_ofRule directive
  obtain ⟨b, hb, hbclaims⟩ : ∃ b ∈ e.attributes, p.target.claims b = true := by
    rw [htarget] at hmatch ⊢
    exact List.any_eq_true.mp hmatch
  have hmem : b.name ∈ p.target.claimed e :=
    List.mem_map_of_mem (List.mem_filter.mpr ⟨hb, hbclaims⟩)
  obtain ⟨name, names, hnames⟩ := List.exists_cons_of_ne_nil (List.ne_nil_of_mem hmem)
  have hname : name ∈ p.target.claimed e := by simp [hnames]
  obtain ⟨c, hc, rfl⟩ := List.mem_map.mp hname
  obtain ⟨hce, hcclaims⟩ := List.mem_filter.mp hc
  have hsome : (e.attribute? c.name).isSome = true :=
    List.find?_isSome.mpr ⟨c, hce, Text.sameName_refl c.name⟩
  obtain ⟨a, ha⟩ := Option.isSome_iff_exists.mp hsome
  have hfind : e.attributes.find? (fun a => a.isNamed c.name) = some a := ha
  have hnamed : Text.sameName a.name c.name = true := by
    have hfound := List.find?_some hfind
    exact hfound
  refine ⟨a, List.mem_of_find?_eq_some ha, ?_, ?_⟩
  · simp [Entry.calledWith, hnames, takeAttributes, ha]
  · rw [calls_congr hnamed, ← hclaims]
    exact hcclaims

theorem isTameCall {p : Entry} (hp : p ∈ dialect.entries) {e : Element} (he : IsSafe policy e)
    (hmatch : p.target.matches? e = true) :
    IsTameCall p.processor e.name (p.calledWith ev e) := by
  obtain ⟨q, -, rfl⟩ := List.mem_map.mp hp
  intro directive hrule
  have htarget : Target.ofRule dialect.qualifier q.rule =
      .ofRule dialect.qualifier (.attribute directive) := congrArg _ hrule
  obtain ⟨a, ha, htrigger, hcalls⟩ := @exists_trigger ev _ _ _ htarget hmatch
  exact ⟨a, htrigger, hcalls, he.attributes a ha⟩

/-- A standard processor that matches a safe element leaves it safe, and text without expansion. -/
theorem isSafe_of_call {p : Entry} (hp : p ∈ dialect.entries) {e e' : Element}
    (he : IsSafe policy e) (hmatch : p.target.matches? e = true) {r s : Run}
    (hinlining : r.context.isInlining = false) {directive : Directive}
    (h : p.call ev e r = .ok (directive, e') s) :
    IsSafe policy e' ∧ IsSafeDirective policy directive ∧ s.context.isInlining = false := by
  have hstart : IsSafeWorkspace policy e.name (p.workspace e r.context) :=
    ⟨name_takeAttributes e _, he.takeAttributes _, hinlining⟩
  have hkeeps : KeepsSafe policy e.name (p.processor.run (p.calledWith ev e))
      (IsSafeDirective policy) :=
    keepsSafe_run (mem_processors_of_mem_entries hp) (isTameCall hp he hmatch)
  rw [Entry.call_run] at h
  split at h
  · next hrun =>
    obtain ⟨hend, hdirective⟩ := hkeeps _ hstart _ _ hrun
    cases h
    exact ⟨hend.element, hdirective, hend.inlining⟩
  · cases h

/-- What the processors may make of an element. -/
def IsSafeOutcome (policy : CommentPolicy) : Outcome → Prop
  | .keep e _ => IsSafe policy e
  | .drop => True
  | .splice nodes => Node.EverywhereIn (IsSafeNode policy) nodes
  | .iterate e _ _ binding status =>
    IsSafe policy e ∧ binding ≠ Context.inliningName ∧ status ≠ Context.inliningName
  | .halt _ => False

theorem isSafe_of_settle {pending : List Entry} (hpending : ∀ p ∈ pending, p ∈ dialect.entries)
    {children : Bool} {e : Element} (he : IsSafe policy e) {r s : Run}
    (hinlining : r.context.isInlining = false) {outcome : Outcome}
    (h : settle ev pending children e r = .ok outcome s) :
    IsSafeOutcome policy outcome ∧ s.context.isInlining = false := by
  induction pending, children, e using settle.induct generalizing r with
  | case1 pending children e hnext =>
    rw [settle_of_next?_eq_none hnext] at h
    cases h
    exact ⟨he, hinlining⟩
  | case2 pending children e p others hnext ihproceed ihskip =>
    obtain ⟨hmem, hsub⟩ := Entry.mem_of_next? hnext
    have hothers : ∀ q ∈ others, q ∈ dialect.entries := fun q hq => hpending q (hsub hq)
    rw [settle_of_next? hnext] at h
    obtain ⟨⟨directive, e'⟩, t, hcall, h⟩ := eq_ok_of_bind h
    obtain ⟨he', hdirective, ht⟩ :=
      isSafe_of_call (hpending p hmem) he (Entry.matches?_of_next? hnext) hinlining hcall
    cases directive with
    | proceed => exact ihproceed e' hothers he' ht h
    | skipChildren => exact ihskip e' hothers he' ht h
    | removeNode =>
      cases h
      exact ⟨trivial, ht⟩
    | removeBody =>
      cases h
      exact ⟨he'.setChildren_nil, ht⟩
    | replace nodes =>
      cases h
      exact ⟨hdirective, ht⟩
    | iterate items binding status =>
      cases h
      exact ⟨⟨he', hdirective⟩, ht⟩
    | halt earlyExit => exact hdirective.elim

/-! ## Nodes -/

/-- Whether processing that succeeds while text is not expanded gives nodes that can be written and
parsed again, and does not halt the template. -/
def Yields (policy : CommentPolicy) (x : Running Emitted) : Prop :=
  ∀ r emitted s, r.context.isInlining = false → x r = .ok emitted s →
    Node.EverywhereIn (Node.IsLegible policy) emitted.nodes ∧ emitted.halt = none

/-- A part of a run that writes the bindings of switches only. -/
abbrev KeepsFrame (x : Running Emitted) : Prop :=
  Keeps Run.context (Context.Frame {switchName}) x

theorem isInlining_of_keepsFrame {x : Running Emitted} (hx : KeepsFrame x) {r s : Run}
    {emitted : Emitted} (h : x r = .ok emitted s) :
    s.context.isInlining = r.context.isInlining := by
  have hframe := hx r
  rw [h] at hframe
  refine hframe.isInlining_eq ?_
  rw [Set.mem_singleton_iff]
  decide

theorem yields_nothing : Yields policy (pure {}) := by
  intro r emitted s _ h
  cases h
  exact ⟨List.forall_mem_nil _, rfl⟩

theorem yields_node {n : Node} (hn : n.Everywhere (Node.IsLegible policy)) :
    Yields policy (pure ⟨[n], none⟩) := by
  intro r emitted s _ h
  cases h
  exact ⟨List.forall_mem_cons.mpr ⟨hn, List.forall_mem_nil _⟩, rfl⟩

theorem Yields.andThen {x y : Running Emitted} (hx : Yields policy x) (hframe : KeepsFrame x)
    (hy : Yields policy y) : Yields policy (Running.andThen x y) := by
  intro r emitted s hinlining h
  rw [Running.andThen_run] at h
  cases hrun : x r with
  | error failure t =>
    rw [hrun] at h
    cases h
  | ok first t =>
    obtain ⟨hfirst, hhalt⟩ := hx r first t hinlining hrun
    have ht := (isInlining_of_keepsFrame hframe hrun).trans hinlining
    simp only [hrun, hhalt, Option.isSome_none, Bool.false_eq_true, if_false] at h
    cases hrest : y t with
    | error failure t =>
      rw [hrest] at h
      cases h
    | ok second t =>
      obtain ⟨hsecond, hhalt'⟩ := hy _ second _ ht hrest
      rw [hrest] at h
      cases h
      exact ⟨List.forall_mem_append.mpr ⟨hfirst, hsecond⟩, hhalt'⟩

theorem Yields.inScope {x : Running Emitted} (hx : Yields policy x) :
    Yields policy (Running.inScope x) := by
  intro r emitted s hinlining h
  unfold Running.inScope at h
  split at h
  · next hrun =>
    cases h
    have hpush : r.context.push.isInlining = false := hinlining
    exact hx { r with context := r.context.push } _ _ hpush hrun
  · cases h

theorem yields_emitText {content : String} (hcontent : '<' ∉ content.toList) (l : Location) :
    Yields policy (emitText ev content l) := by
  intro r emitted s hinlining h
  have hlegible : Node.Everywhere (Node.IsLegible policy) (.text content l) :=
    .of_leaf rfl ⟨trivial, hcontent⟩
  rw [emitText_run, if_neg (by rw [hinlining]; exact Bool.false_ne_true)] at h
  cases h
  exact ⟨List.forall_mem_cons.mpr ⟨hlegible, List.forall_mem_nil _⟩, rfl⟩

theorem yields_emitAll {visit : Element → Running Emitted}
    (hvisit : ∀ e, IsSafe policy e → Yields policy (visit e))
    (hframe : ∀ e, KeepsFrame (visit e)) {nodes : List Node}
    (hnodes : Node.EverywhereIn (IsSafeNode policy) nodes) :
    Yields policy (emitAll ev visit nodes) := by
  induction nodes with
  | nil => exact yields_nothing
  | cons n ns ih =>
    obtain ⟨hn, hns⟩ := List.forall_mem_cons.mp hnodes
    cases n with
    | element tag children endTag =>
      exact (hvisit ⟨tag, children, endTag⟩ (everywhere_toNode.mp hn)).andThen (hframe _) (ih hns)
    | text content l =>
      exact (yields_emitText hn.here.2 l).andThen (keeps_emitText content l) (ih hns)
    | _ => exact (yields_node (hn.mono fun _ h => h.isLegible)).andThen (Keeps.pure _) (ih hns)

theorem yields_emitItems {body : Running Emitted} (hbody : Yields policy body)
    (hframe : KeepsFrame body) {binding status : String}
    (hbinding : binding ≠ Context.inliningName) (hstatus : status ≠ Context.inliningName)
    (size index : Nat) (items : List Value) :
    Yields policy (emitItems body binding status size index items) := by
  induction items generalizing index with
  | nil => exact yields_nothing
  | cons item items ih =>
    have hitem : Yields policy (do
        Running.changeContext fun c =>
          (c.setLocal binding item).setLocal status (IterationStatus.toValue ⟨index, size, item⟩)
        body) := by
      intro r emitted s hinlining h
      refine hbody _ emitted s ?_ h
      rw [Context.isInlining_setLocal hstatus, Context.isInlining_setLocal hbinding, hinlining]
    exact hitem.inScope.andThen (keeps_item hframe binding status item _) (ih _)

/-- An element stays well closed with what its children became, as nothing comes of no children. -/
theorem everywhere_withBody {e : Element} (he : IsSafe policy e) {nodes : List Node}
    (hnodes : Node.EverywhereIn (Node.IsLegible policy) nodes)
    (hempty : e.children = [] → nodes = []) :
    (Element.toNode { e with children := nodes }).Everywhere (Node.IsLegible policy) := by
  have hcloses : Closes e.tag nodes e.endTag := by
    cases he.closes with
    | void hvoid hnil hend => exact .void hvoid (hempty hnil) hend
    | explicit hstays hspace hend => exact .explicit hstays hspace hend
  exact .intro ⟨⟨he.tag, hcloses⟩, trivial⟩ hnodes

theorem yields_visit {entries : List Entry} (hentries : ∀ p ∈ entries, p ∈ dialect.entries)
    (fuel : Nat) {pending : List Entry} (hpending : ∀ p ∈ pending, p ∈ dialect.entries)
    {e : Element} (he : IsSafe policy e) : Yields policy (visit ev entries fuel pending e) := by
  induction fuel generalizing pending e with
  | zero =>
    intro r emitted s _ h
    cases h
  | succ fuel ih =>
    have hwrites : ∀ {ps : List Entry}, (∀ p ∈ ps, p ∈ dialect.entries) →
        ∀ p ∈ ps, p.processor.Writes {switchName} := fun hps p hp =>
      writes_of_mem_processors (mem_processors_of_mem_entries (hps p hp))
    have hframe : ∀ e, KeepsFrame (visit ev entries fuel entries e) :=
      keeps_visit (hwrites hentries) fuel (hwrites hentries)
    have hall : ∀ {nodes : List Node}, Node.EverywhereIn (IsSafeNode policy) nodes →
        Yields policy (emitAll ev (visit ev entries fuel entries) nodes) :=
      yields_emitAll (fun e he => ih hentries he) hframe
    rw [visit]
    apply Yields.inScope
    intro r emitted s hinlining h
    obtain ⟨outcome, t, hsettle, h⟩ := eq_ok_of_bind h
    obtain ⟨hsafe, ht⟩ := isSafe_of_settle hpending he hinlining hsettle
    cases outcome with
    | keep e children =>
      cases children with
      | false =>
        have hnode := (everywhere_toNode.mpr hsafe).mono fun _ h => h.isLegible
        exact yields_node hnode t emitted s ht h
      | true =>
        obtain ⟨body, u, hbody, h⟩ := eq_ok_of_bind h
        obtain ⟨hnodes, hhalt⟩ := hall hsafe.children t body u ht hbody
        have hempty : e.children = [] → body.nodes = [] := by
          intro hnil
          rw [hnil] at hbody
          cases hbody
          rfl
        cases h
        exact ⟨List.forall_mem_cons.mpr
          ⟨everywhere_withBody hsafe hnodes hempty, List.forall_mem_nil _⟩, hhalt⟩
    | drop => exact yields_nothing t emitted s ht h
    | splice nodes => exact hall hsafe t emitted s ht h
    | iterate e pending items binding status =>
      obtain ⟨he, hbinding, hstatus⟩ := hsafe
      have hpending' : ∀ p ∈ pending, p ∈ dialect.entries := fun p hp =>
        hpending p (pending_of_settle hsettle hp)
      have hbodyFrame : KeepsFrame (visit ev entries fuel pending e) :=
        keeps_visit (hwrites hentries) fuel (hwrites hpending') e
      exact yields_emitItems (ih hpending' he) hbodyFrame hbinding hstatus _ _ items t emitted s
        ht h
    | halt h => exact hsafe.elim

/-! ## Registries -/

/-- What a registry of the standard dialect makes of a safe tree can be written and parsed again. -/
theorem yields_emit {r : Registry} (hr : ∀ p ∈ r.entries, p ∈ dialect.entries) {nodes : List Node}
    (hnodes : Node.EverywhereIn (IsSafeNode policy) nodes) : Yields policy (r.emit ev nodes) := by
  have hwrites : ∀ p ∈ r.entries, p.processor.Writes {switchName} := fun p hp =>
    writes_of_mem_processors (mem_processors_of_mem_entries (hr p hp))
  exact yields_emitAll (fun e he => yields_visit hr (r.fuel e) hr he)
    (fun e => keeps_visit hwrites (r.fuel e) hwrites e) hnodes

end Standard
end NaturalTemplate
