import NaturalTemplate.Proofs.Standard.Stable

/-!
# Wrappers

A wrapper does nothing but give way to its children. An element without some of the wrappers in it
is the same element but for its children, and stays so whatever the standard processors do to both,
unless they take away all but the first of the elements among the children.
-/
namespace NaturalTemplate.Standard
open Markup

variable {ev : Evaluator} {e f : Element}

/-! ## Wrappers -/

/-- Whether an element does nothing but give way to its children: it is a block without attributes,
or has only the attribute that asks for this. -/
def IsWrapper (e : Element) : Prop :=
  e.attributes = [] ∧ Text.sameName e.name "th:block" = true ∨
    ∃ a, e.attributes = [a] ∧ calls "remove" a.name = true ∧ Text.trimmed a.decodedValue = "tag"

theorem run_eq_unwrap {p : Processor} (hp : p ∈ processors) (hname : p.name = "block") :
    p.run = unwrap := by
  have hmem : .forElement "block" 100000 unwrap ∈ processors := by simp [processors]
  exact run_of_name hp hmem hname

theorem rule_eq : ∀ p ∈ processors, p.name = "block" ∨ p.rule = .attribute p.name := by
  decide +kernel

/-- An attribute that asks for the removal of its element calls for no other processor. -/
theorem name_eq_remove {p : Processor} (hp : p ∈ processors) {a : Attribute}
    (hremove : calls "remove" a.name = true) (hcalls : calls p.name a.name = true) :
    p.name = "remove" := by
  have hnames : ∀ p ∈ processors, Text.fold p.name.toList = Text.fold "remove".toList →
      p.name = "remove" := by
    decide +kernel
  exact hnames p hp (fold_eq_of_calls hcalls hremove)

theorem remove_run {call : Call} (h : Text.trimmed call.value = "tag") (w : Workspace) :
    remove call w = unwrap call w := by
  have hmode : readMode call = pure "tag" := by rw [readMode, h, if_pos (by decide)]
  rw [remove_eq, hmode]
  rfl

/-- Every processor that matches a wrapper answers that its children take its place. -/
theorem IsWrapper.run_eq (h : IsWrapper e) {p : Entry} (hp : p ∈ registry.entries)
    (hmatch : p.target.matches? e = true) (c : Context) :
    p.processor.run (p.calledWith ev e) (p.workspace e c) =
      .ok (.replace e.children) (p.workspace e c) := by
  have hmem := mem_processors_of_mem_registry hp
  have hunwrap (call : Call) : unwrap call (p.workspace e c) =
      .ok (.replace e.children) (p.workspace e c) := by
    rw [Entry.workspace, takeAttributes_claimed]
    rfl
  obtain hblock | hrule := rule_eq p.processor hmem
  · rw [run_eq_unwrap hmem hblock]
    exact hunwrap _
  · obtain ⟨a, ha, htrigger, hcalls⟩ := @exists_trigger ev p _ e (target_eq hp hrule) hmatch
    obtain ⟨hnil, -⟩ | ⟨b, hattributes, hremove, htag⟩ := h
    · rw [hnil] at ha
      cases ha
    · rw [hattributes, List.mem_singleton] at ha
      subst ha
      rw [run_eq_remove hmem (name_eq_remove hmem hremove hcalls), remove_run]
      · exact hunwrap _
      · rw [Call.value, htrigger]
        exact htag

theorem IsWrapper.exists_matches (h : IsWrapper e) :
    ∃ p ∈ registry.entries, p.target.matches? e = true := by
  obtain ⟨-, hname⟩ | ⟨a, hattributes, hremove, -⟩ := h
  · exact ⟨entry (.forElement "block" 100000 unwrap), mem_of_mem_late (by simp [late]), hname⟩
  · refine ⟨entry (.forAttribute "remove" 1600 remove), mem_of_mem_late (by simp [late]), ?_⟩
    refine List.any_eq_true.mpr ⟨a, by rw [hattributes]; exact List.mem_cons_self, ?_⟩
    exact (claims_ofRule "remove" a).trans hremove

/-- Nothing is evaluated for a wrapper before its children take its place. -/
theorem IsWrapper.settle_eq (h : IsWrapper e) (ev : Evaluator) (r : Run) :
    ∃ deeds, settle ev registry.entries true e r = .ok (.splice e.children) ⟨r.context, deeds⟩ := by
  obtain ⟨p, hp, hmatch⟩ := h.exists_matches
  cases hnext : Entry.next? e registry.entries with
  | none => exact absurd hmatch (by simp [matches?_of_next?_eq_none hnext p hp])
  | some found =>
    obtain ⟨q, others⟩ := found
    have hcall : q.call ev e r = _ := q.call_run e r
    rw [h.run_eq (Entry.mem_of_next? hnext).1 (Entry.matches?_of_next? hnext)] at hcall
    rw [settle_of_next? hnext, bind_of_eq_ok hcall]
    exact ⟨_, rfl⟩

/-! ## Trees without some wrappers -/

/-- Whether some nodes, the second ones, are others with wrappers replaced by their children, at any
depth and inside each other. Wrappers among the nodes themselves may be replaced if `here`, and
those among the children of an element if its place is not `cut`. A place is told from the inside
out: the number of the element among the nodes that it stands with, and behind it the place of the
element around them. The nodes here stand in the element at `place`, from `number` on. -/
inductive Unwrapped (cut : List ℕ → Prop) : List ℕ → ℕ → Bool → List Node → List Node → Prop where
  | nil {place : List ℕ} {number : ℕ} {here : Bool} : Unwrapped cut place number here [] []
  | leaf {place : List ℕ} {number : ℕ} {here : Bool} {n : Node} {ns ms : List Node}
    (hleaf : n.element? = none) (hrest : Unwrapped cut place (number + 1) here ns ms) :
    Unwrapped cut place number here (n :: ns) (n :: ms)
  | element {place : List ℕ} {number : ℕ} {here inside : Bool} {e : Element}
    {children ns ms : List Node}
    (hchildren : Unwrapped cut (number :: place) 0 inside e.children children)
    (hcut : inside = true → ¬ cut (number :: place))
    (hrest : Unwrapped cut place (number + 1) here ns ms) :
    Unwrapped cut place number here (e.toNode :: ns) (Element.toNode { e with children } :: ms)
  | wrapper {place : List ℕ} {number : ℕ} {inside : Bool} {e : Element} {children ns ms : List Node}
    (he : IsWrapper e)
    (hchildren : Unwrapped cut (number :: place) 0 inside e.children children)
    (hrest : Unwrapped cut place (number + 1) true ns ms) :
    Unwrapped cut place number true (e.toNode :: ns) (children ++ ms)

namespace Unwrapped

variable {cut : List ℕ → Prop} {place : List ℕ} {number : ℕ} {here : Bool} {ns ms : List Node}

theorem of_leaves (h : ∀ n ∈ ns, n.element? = none) : Unwrapped cut place number here ns ns := by
  induction ns generalizing number with
  | nil => exact .nil
  | cons n ns ih =>
    obtain ⟨hn, hns⟩ := List.forall_mem_cons.mp h
    exact .leaf hn (ih hns)

theorem bodyNodes (body : String) :
    Unwrapped cut place number here (Standard.bodyNodes body) (Standard.bodyNodes body) := by
  refine of_leaves fun n hn => ?_
  unfold Standard.bodyNodes at hn
  split at hn
  · cases hn
  · obtain rfl := List.mem_singleton.mp hn
    rfl

/-- Where no wrapper among the nodes themselves is replaced, the nodes between elements are the
same. -/
theorem filter_eq (h : Unwrapped cut place number false ns ms) :
    ms.filter (fun n => n.element?.isNone) = ns.filter fun n => n.element?.isNone := by
  generalize hhere : false = here at h
  induction h with
  | nil => rfl
  | leaf hleaf _ ih => simp only [List.filter_cons, hleaf, ih hhere]
  | element _ _ _ _ ih => simpa [List.filter_cons] using ih hhere
  | wrapper => cases hhere

/-- The first element keeps its number, as nothing before it goes. -/
theorem keepFirstElement (h : Unwrapped cut place number false ns ms) :
    Unwrapped cut place number false (Standard.keepFirstElement ns)
      (Standard.keepFirstElement ms) := by
  generalize hhere : false = here at h
  induction h with
  | nil => exact .nil
  | leaf hleaf _ ih =>
    subst hhere
    simp only [Standard.keepFirstElement, hleaf, Option.isSome_none, Bool.false_eq_true, if_false]
    exact .leaf hleaf (ih rfl)
  | element hchildren hcut hrest _ _ =>
    subst hhere
    simp only [Standard.keepFirstElement, Node.element?_toNode, Option.isSome_some, if_true]
    refine .element hchildren hcut ?_
    rw [hrest.filter_eq]
    exact of_leaves fun n hn => by simpa using (List.mem_filter.mp hn).2
  | wrapper => cases hhere

end Unwrapped

/-- An element at a place, and the same one without some of the wrappers in it, with regard to
whether its children are to be processed. -/
structure UnwrappedIn (cut : List ℕ → Prop) (place : List ℕ) (here children : Bool)
    (e f : Element) : Prop where
  tag : f.tag = e.tag
  endTag : f.endTag = e.endTag
  nodes : Unwrapped cut place 0 here e.children f.children
  left : children = false → f.children = e.children

section
variable {cut : List ℕ → Prop} {place : List ℕ} {here children : Bool}

namespace UnwrappedIn

theorem withAttributes (h : UnwrappedIn cut place here children e f) (attributes : List Attribute) :
    UnwrappedIn cut place here children (e.withAttributes attributes)
      (f.withAttributes attributes) := by
  refine ⟨?_, h.endTag, h.nodes, h.left⟩
  rw [Element.withAttributes, Element.withAttributes, h.tag]

theorem attributes_eq (h : UnwrappedIn cut place here children e f) : f.attributes = e.attributes :=
  congrArg Tag.attributes h.tag

theorem eq_with (h : UnwrappedIn cut place here children e f) :
    f = { e with children := f.children } := by
  obtain ⟨tag, nodes, endTag⟩ := f
  obtain rfl : tag = e.tag := h.tag
  obtain rfl : endTag = e.endTag := h.endTag
  rfl

/-- Children that are to be processed may differ. -/
theorem of_children {nodes : List Node} (h : Unwrapped cut place 0 here e.children nodes) :
    UnwrappedIn cut place here true e { e with children := nodes } :=
  ⟨rfl, rfl, h, fun hleft => Bool.noConfusion hleft⟩

theorem processed (h : UnwrappedIn cut place here children e f) :
    UnwrappedIn cut place here true e f := by
  rw [h.eq_with]
  exact of_children h.nodes

theorem setBody (h : UnwrappedIn cut place here children e f) (body : String) :
    UnwrappedIn cut place here children (e.setChildren (Standard.bodyNodes body))
      (f.setChildren (Standard.bodyNodes body)) := by
  have hsame : f.setChildren (Standard.bodyNodes body) =
      e.setChildren (Standard.bodyNodes body) := by
    rw [h.eq_with, setChildren_with]
  rw [hsame]
  refine ⟨rfl, rfl, ?_, fun _ => rfl⟩
  rw [children_setChildren]
  exact .bodyNodes body

theorem keepFirstElement (h : UnwrappedIn cut place false children e f) :
    UnwrappedIn cut place false children { e with children := Standard.keepFirstElement e.children }
      { f with children := Standard.keepFirstElement f.children } :=
  ⟨h.tag, h.endTag, h.nodes.keepFirstElement, fun hleft => by
    rw [h.left hleft]⟩

theorem eq (h : UnwrappedIn cut place here false e f) : f = e := by
  rw [h.eq_with, h.left rfl]

end UnwrappedIn

theorem alikeWrites_unwrappedIn : AlikeWrites Set.univ (Unwrapped cut place 0 here)
    (UnwrappedIn cut place here children) where
  children h := h.nodes
  existing {e f} h name _ := by
    simp only [existing, Element.attribute?, h.attributes_eq]
  setAttribute {e f} h name _ value := by
    rw [Element.setAttribute, Element.setAttribute, h.attributes_eq]
    exact h.withAttributes _
  removeAttribute {e f} h name _ := by
    rw [Element.removeAttribute, Element.removeAttribute, h.attributes_eq]
    exact h.withAttributes _
  setBody h body := h.setBody body

end

end NaturalTemplate.Standard
