import NaturalTemplate.Proofs.Processing.Triggers
import NaturalTemplate.Proofs.Standard.Likeness

/-!
# Where directives stand does not matter

The order in which the processors of an element are called is theirs, not that of the attributes.
Trees that differ only in where among the attributes the directives stand, and in how these are
spelled, spaced and quoted, lead to the same nodes, as no directive is left in what is put out.
-/
namespace NaturalTemplate
open Markup

namespace Standard

/-! ## Directives -/

/-- Whether an attribute of some name calls for one of the standard processors. -/
def isDirective (name : String) : Bool :=
  processors.any fun p =>
    match p.rule with
    | .attribute directive => calls directive name
    | .element _ => false

theorem isDirective_congr {a b : String} (h : Text.sameName a b = true) :
    isDirective a = isDirective b := by
  unfold isDirective
  congr 1
  funext p
  split
  · exact calls_congr h _
  · rfl

/-- An attribute is a directive if one of the processors claims it. -/
theorem isDirective_iff {a : Attribute} :
    isDirective a.name = true ↔ ∃ p ∈ registry.entries, p.target.claims a = true := by
  rw [entries_registry]
  simp only [isDirective, List.any_eq_true, Dialect.entries, List.mem_map,
    exists_exists_and_eq_and]
  refine exists_congr fun p => and_congr_right fun _ => ?_
  cases p.rule with
  | «attribute» directive => rw [claims_ofRule directive a]
  | element name => exact Iff.rfl

/-- The names of directives start with the qualifier of the dialect. -/
theorem prefix_of_isDirective {name : String} (h : isDirective name = true) :
    "th:".toList <+: Text.fold name.toList ∨ "data-th-".toList <+: Text.fold name.toList := by
  obtain ⟨p, -, hcalls⟩ := List.any_eq_true.mp h
  split at hcalls
  · next directive _ =>
    have hprefix (qualifier : String) :
        Text.fold qualifier.toList <+: Text.fold (qualifier ++ directive).toList := by
      rw [String.toList_append, Text.fold, Text.fold, List.map_append]
      exact List.prefix_append _ _
    simp only [calls, Bool.or_eq_true, Text.sameName_iff] at hcalls
    obtain hname | hname := hcalls
    · exact .inl (hname ▸ hprefix "th:")
    · exact .inr (hname ▸ hprefix "data-th-")
  · cases hcalls

/-- The attributes that have processors of their own, and the lists, are no directives. -/
theorem isDirective_of_mem {name : String}
    (h : name ∈ valueAttributes ++ flagAttributes ++ ["class", "style"]) :
    isDirective name = false := by
  have hstart : ∀ name ∈ valueAttributes ++ flagAttributes ++ ["class", "style"],
      ¬ "th:".toList <+: Text.fold name.toList ∧
        ¬ "data-th-".toList <+: Text.fold name.toList := by
    decide
  refine Bool.eq_false_iff.mpr fun hdirective => ?_
  obtain hprefix | hprefix := prefix_of_isDirective hdirective
  · exact (hstart name h).1 hprefix
  · exact (hstart name h).2 hprefix

theorem fold_eq_of_calls {directive other name : String} (h : calls directive name = true)
    (hother : calls other name = true) : Text.fold directive.toList = Text.fold other.toList := by
  simp only [calls, Bool.or_eq_true, Text.sameName_iff, String.toList_append] at h hother
  obtain h | h := h <;> obtain hother | hother := hother
  · simpa [Text.fold] using h.symm.trans hother
  · have hboth := h.symm.trans hother
    simp [Text.fold] at hboth
  · have hboth := h.symm.trans hother
    simp [Text.fold] at hboth
  · simpa [Text.fold] using h.symm.trans hother

/-- An attribute calls for one processor only. -/
theorem target_eq_of_claims {p q : Entry} (hp : p ∈ registry.entries) (hq : q ∈ registry.entries)
    {a : Attribute} (hpa : p.target.claims a = true) (hqa : q.target.claims a = true) :
    p.target = q.target := by
  rw [entries_registry] at hp hq
  obtain ⟨p, -, rfl⟩ := List.mem_map.mp hp
  obtain ⟨q, -, rfl⟩ := List.mem_map.mp hq
  dsimp only at hpa hqa ⊢
  cases hprule : p.rule with
  | element name =>
    rw [hprule] at hpa
    cases hpa
  | «attribute» directive =>
    cases hqrule : q.rule with
    | element name =>
      rw [hqrule] at hqa
      cases hqa
    | «attribute» other =>
      rw [hprule, claims_ofRule] at hpa
      rw [hqrule, claims_ofRule] at hqa
      have hsame := fold_eq_of_calls hpa hqa
      simpa [Target.ofRule, Target.qualify, dialect, Text.fold] using hsame

/-- The attributes that are no directives. -/
def plain (attributes : List Attribute) : List Attribute :=
  attributes.filter fun a => !isDirective a.name

section
variable {name : String} {attributes : List Attribute}

theorem isNamed_eq_false (hname : isDirective name = false) {a : Attribute}
    (ha : isDirective a.name = true) : a.isNamed name = false := by
  refine Bool.eq_false_iff.mpr fun hnamed => ?_
  rw [isDirective_congr hnamed, hname] at ha
  contradiction

/-- Setting an attribute that is no directive does not see the directives. -/
theorem plain_set (hname : isDirective name = false) (value : String) :
    plain (Attribute.set name value attributes) = Attribute.set name value (plain attributes) := by
  have hnew : isDirective (Attribute.make name value).name = false := hname
  induction attributes with
  | nil => simp [plain, Attribute.set, hnew]
  | cons a attributes ih =>
    unfold plain at ih ⊢
    rw [Attribute.set]
    cases ha : isDirective a.name with
    | true => simp [isNamed_eq_false hname ha, ha, ih]
    | false =>
      by_cases hnamed : a.isNamed name = true
      · have hset : (a.setValue value).name = a.name := rfl
        simp [hnamed, hset, ha, Attribute.set]
      · simp [hnamed, ha, ih, Attribute.set]

theorem plain_remove (hname : isDirective name = false) :
    plain (Attribute.remove name attributes) = Attribute.remove name (plain attributes) := by
  induction attributes with
  | nil => rfl
  | cons a attributes ih =>
    unfold plain Attribute.remove at ih ⊢
    cases ha : isDirective a.name with
    | true => simp [isNamed_eq_false hname ha, ha, ih]
    | false =>
      by_cases hnamed : a.isNamed name = true
      · simp [hnamed, ha]
      · simp [hnamed, ha, ih]

theorem find?_plain (hname : isDirective name = false) :
    (plain attributes).find? (·.isNamed name) = attributes.find? (·.isNamed name) := by
  induction attributes with
  | nil => rfl
  | cons a attributes ih =>
    unfold plain at ih ⊢
    cases ha : isDirective a.name with
    | true => simp [isNamed_eq_false hname ha, ha, ih]
    | false => simp [ha, List.find?_cons, ih]

/-- Which attribute calls for a processor does not depend on attributes that are no directives. -/
theorem find?_claims_set {p : Entry} (hp : p ∈ registry.entries) (hname : isDirective name = false)
    (value : String) :
    (Attribute.set name value attributes).find? p.target.claims =
      attributes.find? p.target.claims := by
  have hclaims {a : Attribute} (ha : isDirective a.name = false) : p.target.claims a = false :=
    Bool.eq_false_iff.mpr fun h =>
      Bool.eq_false_iff.mp ha (isDirective_iff.mpr ⟨p, hp, h⟩)
  induction attributes with
  | nil =>
    have hnew : p.target.claims (Attribute.make name value) = false := hclaims hname
    simp [Attribute.set, hnew]
  | cons a attributes ih =>
    rw [Attribute.set]
    by_cases hnamed : a.isNamed name = true
    · have ha : isDirective a.name = false := (isDirective_congr hnamed).trans hname
      have hset : p.target.claims (a.setValue value) = false := hclaims ha
      simp [hnamed, hset, hclaims ha]
    · simp [hnamed, List.find?_cons, ih]

theorem find?_claims_remove {p : Entry} (hp : p ∈ registry.entries)
    (hname : isDirective name = false) :
    (Attribute.remove name attributes).find? p.target.claims =
      attributes.find? p.target.claims := by
  unfold Attribute.remove
  induction attributes with
  | nil => rfl
  | cons a attributes ih =>
    by_cases hnamed : a.isNamed name = true
    · have ha : isDirective a.name = false := (isDirective_congr hnamed).trans hname
      have hclaims : p.target.claims a = false := Bool.eq_false_iff.mpr fun h =>
        Bool.eq_false_iff.mp ha (isDirective_iff.mpr ⟨p, hp, h⟩)
      simp [hnamed, hclaims]
    · simp [hnamed, List.find?_cons, ih]

end

end Standard

/-! ## What is compared -/

namespace Markup

/-- An attribute, with the place where it was read only if places count. -/
def Attribute.view (places : Bool) (a : Attribute) : Attribute :=
  if places then a else { a with location := {} }

mutual

/-- A node whose attributes have the places where they were read only if places count. -/
def Node.view (places : Bool) : Node → Node
  | .element tag children endTag =>
    .element { tag with attributes := tag.attributes.map (Attribute.view places) }
      (viewAll places children) endTag
  | n => n

def Node.viewAll (places : Bool) : List Node → List Node
  | [] => []
  | n :: ns => n.view places :: viewAll places ns

end

variable {places : Bool} {name : String} {attributes : List Attribute}

namespace Attribute

@[simp]
theorem view_name (a : Attribute) : (a.view places).name = a.name := by
  cases places <;> rfl

@[simp]
theorem view_decodedValue (a : Attribute) : (a.view places).decodedValue = a.decodedValue := by
  cases places <;> rfl

@[simp]
theorem view_isNamed (a : Attribute) : (a.view places).isNamed name = a.isNamed name := by
  cases places <;> rfl

theorem view_setValue (a : Attribute) (value : String) :
    (a.setValue value).view places = (a.view places).setValue value := by
  cases places <;> rfl

theorem map_view_set (value : String) :
    (set name value attributes).map (view places) =
      set name value (attributes.map (view places)) := by
  induction attributes with
  | nil => cases places <;> rfl
  | cons a attributes ih =>
    rw [set, List.map_cons, set, view_isNamed]
    split
    · rw [List.map_cons, view_setValue]
    · rw [List.map_cons, ih]

theorem map_view_remove :
    (remove name attributes).map (view places) = remove name (attributes.map (view places)) := by
  unfold remove
  induction attributes with
  | nil => rfl
  | cons a attributes ih => by_cases h : a.isNamed name = true <;> simp [h, ih]

/-- Looking an attribute up by its name comes to the same text with and without places. -/
theorem find?_map_view :
    ((attributes.map (view places)).find? (·.isNamed name)).map decodedValue =
      (attributes.find? (·.isNamed name)).map decodedValue := by
  induction attributes with
  | nil => rfl
  | cons a attributes ih =>
    rw [List.map_cons, List.find?_cons, List.find?_cons, view_isNamed]
    split
    · rw [Option.map_some, Option.map_some, view_decodedValue]
    · exact ih

theorem map_view_true : attributes.map (view true) = attributes :=
  List.map_id' attributes

end Attribute

mutual

/-- Where places count, nodes are compared as they are. -/
theorem Node.view_true (n : Node) : n.view true = n := by
  cases n with
  | element tag children endTag =>
    rw [Node.view, Attribute.map_view_true, Node.viewAll_true children]
  | _ => rfl

theorem Node.viewAll_true (ns : List Node) : Node.viewAll true ns = ns := by
  cases ns with
  | nil => rfl
  | cons n ns => rw [Node.viewAll, Node.view_true n, Node.viewAll_true ns]

end

end Markup

namespace Standard

variable {places : Bool} {name : String} {as bs : List Attribute}

/-- The same attributes in the same order but for the directives, among which the first that calls
for a processor stands for the same text. -/
structure Rearranged (places : Bool) (as bs : List Attribute) : Prop where
  plain : (plain bs).map (Attribute.view places) = (plain as).map (Attribute.view places)
  calling : ∀ p ∈ registry.entries,
    (bs.find? p.target.claims).map Attribute.decodedValue =
      (as.find? p.target.claims).map Attribute.decodedValue

namespace Rearranged

theorem set (h : Rearranged places as bs) (hname : isDirective name = false) (value : String) :
    Rearranged places (Attribute.set name value as) (Attribute.set name value bs) := by
  refine ⟨?_, fun p hp => ?_⟩
  · rw [plain_set hname, plain_set hname, Attribute.map_view_set, Attribute.map_view_set, h.plain]
  · rw [find?_claims_set hp hname, find?_claims_set hp hname, h.calling p hp]

theorem remove (h : Rearranged places as bs) (hname : isDirective name = false) :
    Rearranged places (Attribute.remove name as) (Attribute.remove name bs) := by
  refine ⟨?_, fun p hp => ?_⟩
  · rw [plain_remove hname, plain_remove hname, Attribute.map_view_remove,
      Attribute.map_view_remove, h.plain]
  · rw [find?_claims_remove hp hname, find?_claims_remove hp hname, h.calling p hp]

theorem find? (h : Rearranged places as bs) (hname : isDirective name = false) :
    (bs.find? (·.isNamed name)).map Attribute.decodedValue =
      (as.find? (·.isNamed name)).map Attribute.decodedValue := by
  have hplain := congrArg (fun l => (l.find? (·.isNamed name)).map Attribute.decodedValue) h.plain
  simp only [Attribute.find?_map_view, find?_plain hname] at hplain
  exact hplain

/-- Taking the attributes off that call for a processor leaves the others as they stand. -/
theorem filter (h : Rearranged places as bs) {p : Entry} (hp : p ∈ registry.entries) :
    Rearranged places (as.filter (!p.target.claims ·)) (bs.filter (!p.target.claims ·)) := by
  have hplain (attributes : List Attribute) :
      Standard.plain (attributes.filter (!p.target.claims ·)) = Standard.plain attributes := by
    unfold Standard.plain
    rw [List.filter_filter]
    refine List.filter_congr fun a _ => ?_
    cases hclaims : p.target.claims a with
    | true => simp [isDirective_iff.mpr ⟨p, hp, hclaims⟩]
    | false => simp
  refine ⟨by rw [hplain, hplain, h.plain], fun q hq => ?_⟩
  rw [List.find?_filter, List.find?_filter]
  by_cases htarget : p.target = q.target
  · have hnone (attributes : List Attribute) :
        attributes.find?
            (fun a => decide ((!p.target.claims a) = true ∧ q.target.claims a = true)) =
          none := by
      simp [htarget]
    rw [hnone, hnone]
  · have hother :
        (fun a => decide ((!p.target.claims a) = true ∧ q.target.claims a = true)) =
          q.target.claims := by
      funext a
      cases hqa : q.target.claims a with
      | false => simp
      | true =>
        have hpa : p.target.claims a = false := Bool.eq_false_iff.mpr fun hpa =>
          htarget (target_eq_of_claims hp hq hpa hqa)
        simp [hpa]
    rw [hother, h.calling q hq]

theorem any_eq (h : Rearranged places as bs) {p : Entry} (hp : p ∈ registry.entries) :
    bs.any p.target.claims = as.any p.target.claims := by
  have hcalling := congrArg Option.isSome (h.calling p hp)
  rw [Option.isSome_map, Option.isSome_map] at hcalling
  rw [Bool.eq_iff_iff, List.any_eq_true, List.any_eq_true, ← List.find?_isSome,
    ← List.find?_isSome, hcalling]

/-- Without directives nothing is left that may differ. -/
theorem map_view_eq (h : Rearranged places as bs)
    (hdone : ∀ a ∈ as, isDirective a.name = false) :
    bs.map (Attribute.view places) = as.map (Attribute.view places) := by
  have hplain {attributes : List Attribute}
      (hnone : ∀ a ∈ attributes, isDirective a.name = false) :
      Standard.plain attributes = attributes :=
    List.filter_eq_self.mpr fun a ha => by simp [hnone a ha]
  have hdone' : ∀ b ∈ bs, isDirective b.name = false := by
    refine fun b hb => Bool.eq_false_iff.mpr fun hdirective => ?_
    obtain ⟨p, hp, hclaims⟩ := isDirective_iff.mp hdirective
    have hany : as.any p.target.claims = true :=
      (h.any_eq hp).symm.trans (List.any_eq_true.mpr ⟨b, hb, hclaims⟩)
    obtain ⟨a, ha, hclaims⟩ := List.any_eq_true.mp hany
    exact Bool.eq_false_iff.mp (hdone a ha) (isDirective_iff.mpr ⟨p, hp, hclaims⟩)
  have hview := h.plain
  rwa [hplain hdone, hplain hdone'] at hview

end Rearranged

/-! ## Trees -/

/-- The same trees, locations of nodes included, but for the directives of elements. -/
inductive RearrangedNode (places : Bool) : Node → Node → Prop where
  | leaf {n : Node} (h : n.element? = none) : RearrangedNode places n n
  | element {tag : Tag} {attributes : List Attribute} {children children' : List Node}
    {endTag : EndTag} (hattributes : Rearranged places tag.attributes attributes)
    (hchildren : List.Forall₂ (RearrangedNode places) children children') :
    RearrangedNode places (.element tag children endTag)
      (.element { tag with attributes } children' endTag)

/-- Whether an attribute does not assign to directives. -/
def AssignsPlain (a : Attribute) : Prop :=
  ∀ directive ∈ assigners, calls directive a.name = true →
    ∀ name ∈ assignedNames a, isDirective name = false

/-- Whether no attribute of an element assigns to directives. -/
def AssignsPlainNode : Node → Prop
  | .element tag _ _ => ∀ a ∈ tag.attributes, AssignsPlain a
  | _ => True

instance (a : Attribute) : Decidable (AssignsPlain a) :=
  inferInstanceAs (Decidable (∀ directive ∈ assigners, calls directive a.name = true →
    ∀ name ∈ assignedNames a, isDirective name = false))

instance (n : Node) : Decidable (AssignsPlainNode n) :=
  match n with
  | .element tag _ _ => inferInstanceAs (Decidable (∀ a ∈ tag.attributes, AssignsPlain a))
  | .text .. | .comment .. | .cdata .. | .docType .. | .instruction .. | .unmatched .. =>
    .isTrue trivial

theorem AssignsPlain.of_name {a : Attribute} (h : isDirective a.name = false) : AssignsPlain a := by
  intro directive hd hcalls
  have hassigner : ∀ directive ∈ assigners, ∃ p ∈ processors, p.rule = .attribute directive := by
    decide
  obtain ⟨p, hp, hrule⟩ := hassigner directive hd
  have hdirective : isDirective a.name = true :=
    List.any_eq_true.mpr ⟨p, hp, by rw [hrule]; exact hcalls⟩
  exact absurd (h.symm.trans hdirective) Bool.false_ne_true

mutual

theorem RearrangedNode.size_eq {n m : Node} (h : RearrangedNode places n m) : m.size = n.size := by
  cases h with
  | leaf h => rfl
  | element _ hchildren => rw [Node.size, Node.size, RearrangedNode.sizeAll_eq hchildren]

theorem RearrangedNode.sizeAll_eq {ns ms : List Node}
    (h : List.Forall₂ (RearrangedNode places) ns ms) : Node.sizeAll ms = Node.sizeAll ns := by
  cases h with
  | nil => rfl
  | cons h hs =>
    rw [Node.sizeAll, Node.sizeAll, RearrangedNode.size_eq h, RearrangedNode.sizeAll_eq hs]

end

/-- What is asked of nodes that are compared before they are processed. -/
def Comparable (places : Bool) (n m : Node) : Prop :=
  n.Everywhere AssignsPlainNode ∧ RearrangedNode places n m

/-- An element with its directives rearranged. Each of them calls for a processor that is
pending. -/
structure RearrangedElement (places : Bool) (pending : List Entry) (children : Bool)
    (e f : Element) : Prop where
  tag : f.tag = { e.tag with attributes := f.attributes }
  endTag : f.endTag = e.endTag
  attributes : Rearranged places e.attributes f.attributes
  assigns : ∀ a ∈ e.attributes, AssignsPlain a
  pending : ∀ a ∈ e.attributes, ∀ q ∈ registry.entries, q.target.claims a = true → q ∈ pending
  nodes : List.Forall₂ (Comparable places) e.children f.children
  left : children = false → f.children = e.children

namespace RearrangedElement

variable {pending others : List Entry} {children : Bool} {e f : Element} {p : Entry}

theorem name_eq (h : RearrangedElement places pending children e f) : f.name = e.name :=
  by rw [Element.name, h.tag]; rfl

theorem withAttributes (h : RearrangedElement places pending children e f)
    (hattributes : Rearranged places as bs) (hassigns : ∀ a ∈ as, AssignsPlain a)
    (hpending : ∀ a ∈ as, ∀ q ∈ registry.entries, q.target.claims a = true → q ∈ others) :
    RearrangedElement places others children (e.withAttributes as) (f.withAttributes bs) := by
  refine ⟨?_, h.endTag, hattributes, hassigns, hpending, h.nodes, h.left⟩
  show { f.tag with attributes := bs } = { e.tag with attributes := bs }
  rw [h.tag]

theorem setAttribute (h : RearrangedElement places pending children e f)
    (hname : isDirective name = false) (value : String) :
    RearrangedElement places pending children (e.setAttribute name value)
      (f.setAttribute name value) := by
  refine h.withAttributes (h.attributes.set hname value) (fun a ha => ?_)
    fun a ha q hq hclaims => ?_
  · obtain ha | rfl | ⟨b, hb, hnamed, rfl⟩ := mem_set ha
    · exact h.assigns a ha
    · exact .of_name hname
    · exact .of_name ((isDirective_congr hnamed).trans hname)
  · obtain ha | rfl | ⟨b, hb, hnamed, rfl⟩ := mem_set ha
    · exact h.pending a ha q hq hclaims
    · exact absurd (isDirective_iff.mpr ⟨q, hq, hclaims⟩) (by simp [Attribute.make, hname])
    · have hsame : Text.sameName (b.setValue value).name b.name = true := Text.sameName_refl b.name
      exact h.pending b hb q hq ((Target.claims_congr hsame).symm.trans hclaims)

theorem removeAttribute (h : RearrangedElement places pending children e f)
    (hname : isDirective name = false) :
    RearrangedElement places pending children (e.removeAttribute name)
      (f.removeAttribute name) :=
  h.withAttributes (h.attributes.remove hname)
    (fun a ha => h.assigns a (List.mem_of_mem_eraseP ha))
    fun a ha => h.pending a (List.mem_of_mem_eraseP ha)

theorem withChildren (h : RearrangedElement places pending children e f) {ns ms : List Node}
    (hnodes : List.Forall₂ (Comparable places) ns ms) (hleft : children = false → ms = ns) :
    RearrangedElement places pending children { e with children := ns }
      { f with children := ms } :=
  ⟨h.tag, h.endTag, h.attributes, h.assigns, h.pending, hnodes, hleft⟩

theorem openBody (h : RearrangedElement places pending children e f) :
    RearrangedElement places pending children e.openBody f.openBody := by
  unfold Element.openBody
  rw [h.endTag, h.name_eq]
  split
  · refine ⟨?_, rfl, h.attributes, h.assigns, h.pending, h.nodes, h.left⟩
    show { f.tag with selfClosing := false } = _
    rw [h.tag]
    rfl
  · exact h

theorem comparable_bodyNodes (body : String) :
    List.Forall₂ (Comparable places) (bodyNodes body) (bodyNodes body) := by
  refine List.forall₂_same.mpr fun n hn => ?_
  have htext : n.element? = none ∧ n.children = [] ∧ AssignsPlainNode n := by
    unfold bodyNodes at hn
    split at hn
    · cases hn
    · obtain rfl := List.mem_singleton.mp hn
      exact ⟨rfl, rfl, trivial⟩
  exact ⟨.of_leaf htext.2.1 htext.2.2, .leaf htext.1⟩

theorem setBody (h : RearrangedElement places pending children e f) (body : String) :
    RearrangedElement places pending children (e.setChildren (bodyNodes body))
      (f.setChildren (bodyNodes body)) := by
  unfold Element.setChildren
  split
  · exact h.withChildren (comparable_bodyNodes body) fun _ => rfl
  · exact h.openBody.withChildren (comparable_bodyNodes body) fun _ => rfl

theorem isSome_element?_eq {n m : Node} (h : Comparable places n m) :
    m.element?.isSome = n.element?.isSome := by
  cases h.2 <;> rfl

theorem forall₂_keepFirstElement {ns ms : List Node} (h : List.Forall₂ (Comparable places) ns ms) :
    List.Forall₂ (Comparable places) (Standard.keepFirstElement ns)
      (Standard.keepFirstElement ms) := by
  induction h with
  | nil => exact .nil
  | @cons n m ns ms hnm hrest ih =>
    rw [Standard.keepFirstElement, Standard.keepFirstElement, isSome_element?_eq hnm]
    split
    · refine .cons hnm (List.rel_filter (fun n m hnm => ?_) hrest)
      show n.element?.isNone = true ↔ m.element?.isNone = true
      rw [← Option.not_isSome, ← Option.not_isSome, isSome_element?_eq hnm]
    · exact .cons hnm ih

theorem keepFirstElement (h : RearrangedElement places pending children e f) :
    RearrangedElement places pending children
      { e with children := Standard.keepFirstElement e.children }
      { f with children := Standard.keepFirstElement f.children } :=
  h.withChildren (forall₂_keepFirstElement h.nodes) fun hleft => by rw [h.left hleft]

/-- The attributes that call for a processor are taken off, and it is no longer pending. -/
theorem called (h : RearrangedElement places pending children e f)
    (hpending : pending.Sublist registry.entries)
    (hnext : Entry.next? e pending = some (p, others)) :
    RearrangedElement places others children (takeAttributes e (p.target.claimed e)).2
      (takeAttributes f (p.target.claimed f)).2 := by
  have hp : p ∈ registry.entries := hpending.subset (Entry.mem_of_next? hnext).1
  rw [takeAttributes_claimed, takeAttributes_claimed]
  refine h.withAttributes (h.attributes.filter hp)
    (fun a ha => h.assigns a (List.mem_filter.mp ha).1) fun a ha q hq hclaims => ?_
  obtain ⟨ha, hnot⟩ := List.mem_filter.mp ha
  obtain ⟨front, back, rfl, rfl, -⟩ := Entry.exists_of_next? hnext
  have hmem := h.pending a ha q hq hclaims
  rw [List.mem_append, List.mem_cons] at hmem
  rw [List.mem_append]
  obtain hmem | rfl | hmem := hmem
  · exact .inl hmem
  · rw [hclaims] at hnot
    contradiction
  · exact .inr hmem

/-- The text that the attribute stands for that calls for a processor. -/
theorem value_calledWith (ev : Evaluator) (p : Entry) (e : Element) :
    (p.calledWith ev e).value =
      ((e.attributes.find? p.target.claims).map Attribute.decodedValue).getD "" := by
  rw [Entry.calledWith, takeAttributes_claimed, List.head?_filter, Call.value]
  cases e.attributes.find? p.target.claims <;> rfl

/-- When no attribute calls for a processor, there is no directive. -/
theorem isDirective_eq_false (h : RearrangedElement places pending children e f)
    (hdone : ∀ q ∈ pending, q.target.claimed e = []) :
    ∀ a ∈ e.attributes, isDirective a.name = false := by
  refine fun a ha => Bool.eq_false_iff.mpr fun hdirective => ?_
  obtain ⟨q, hq, hclaims⟩ := isDirective_iff.mp hdirective
  have hnone := claimed_eq_nil_iff.mp (hdone q (h.pending a ha q hq hclaims)) a ha
  exact absurd (hnone.symm.trans hclaims) Bool.false_ne_true

theorem view_eq (h : RearrangedElement places pending children e f)
    (hdone : ∀ q ∈ pending, q.target.claimed e = []) {ns ms : List Node}
    (hnodes : Node.viewAll places ms = Node.viewAll places ns) :
    (Element.toNode { f with children := ms }).view places =
      (Element.toNode { e with children := ns }).view places := by
  have hattributes : f.tag.attributes.map (Attribute.view places) =
      e.tag.attributes.map (Attribute.view places) :=
    h.attributes.map_view_eq (h.isDirective_eq_false hdone)
  show Node.element _ _ _ = Node.element _ _ _
  rw [hattributes, hnodes, h.endTag, h.tag]

end RearrangedElement

theorem viewAll_of_forall₂ {ns ms : List Node}
    (h : List.Forall₂ (fun n m => Node.view places m = Node.view places n) ns ms) :
    Node.viewAll places ms = Node.viewAll places ns := by
  induction h with
  | nil => rfl
  | cons h _ ih => rw [Node.viewAll, Node.viewAll, h, ih]

theorem target_eq {p : Entry} (hp : p ∈ registry.entries) {directive : String}
    (hrule : p.processor.rule = .attribute directive) :
    p.target = .ofRule dialect.qualifier (.attribute directive) := by
  rw [entries_registry] at hp
  obtain ⟨q, -, rfl⟩ := List.mem_map.mp hp
  exact congrArg (Target.ofRule dialect.qualifier) hrule

/-- Trees that differ in their directives only. -/
def rearranged (ev : Evaluator) (places : Bool) : Likeness ev where
  contexts _ := Eq
  elements := RearrangedElement places
  nodes := Comparable places
  outputs n m := m.view places = n.view places
  assignable := { name | isDirective name = false }
  alikeScopes _ := (alikeContexts_eq ev).toAlikeScopes
  alikeBindings _ := (alikeContexts_eq ev).toAlikeBindings
  alikeElements pending children :=
    { children := fun h => h.nodes
      existing := fun {e f} h name hname => by
        have hexisting (e : Element) : Standard.existing name e =
            ((e.attribute? name).map Attribute.decodedValue).getD "" := by
          unfold Standard.existing
          cases e.attribute? name <;> rfl
        rw [hexisting, hexisting, Element.attribute?, Element.attribute?, h.attributes.find? hname]
      setAttribute := fun h _ hname value => h.setAttribute hname value
      removeAttribute := fun h _ hname => h.removeAttribute hname
      setBody := fun h body => h.setBody body
      keepFirstElement := fun h => h.keepFirstElement }
  own _ h := isDirective_of_mem h
  element_of_nodes {n m} h := by
    obtain ⟨hassigns, h⟩ := h
    cases h with
    | leaf h => exact .inl ⟨rfl, h⟩
    | @element tag attributes children children' endTag hattributes hchildren =>
      refine .inr ⟨⟨tag, children, endTag⟩, ⟨{ tag with attributes }, children', endTag⟩, rfl, rfl,
        ?_⟩
      refine ⟨rfl, rfl, hattributes, hassigns.here, fun _ _ q hq _ => hq, ?_, nofun⟩
      exact (List.forall₂_and_left _ _).mpr ⟨hassigns.inside, hchildren⟩
  location_eq h := by rw [Element.location, h.tag]; rfl
  size_eq {pending children e f} h := by
    have hnodes := h.nodes.imp fun _ _ h => h.2
    show Node.sizeAll f.children + 1 = Node.sizeAll e.children + 1
    rw [RearrangedNode.sizeAll_eq hnodes]
  matches?_eq {pending children e f p} hp h := by
    have hany := h.attributes.any_eq hp
    cases htarget : p.target with
    | «attribute» qualified data => rwa [htarget] at hany
    | element name => simp only [Target.matches?, h.name_eq]
  called {pending others children e f p} hpending h hnext := by
    have hp : p ∈ registry.entries := hpending.subset (Entry.mem_of_next? hnext).1
    refine ⟨h.called hpending hnext, ?_, ?_⟩
    · rw [RearrangedElement.value_calledWith, RearrangedElement.value_calledWith,
        h.attributes.calling p hp]
    · intro directive hdirective hrule assigned hassigned x hx
      obtain ⟨a, ha, htrigger, hcalls⟩ := @exists_trigger ev p directive e (target_eq hp hrule)
        (Entry.matches?_of_next? hnext)
      rw [Call.value, htrigger] at hassigned
      refine h.assigns a ha directive hdirective hcalls x.1 ?_
      rw [assignedNames, hassigned]
      exact List.mem_map_of_mem hx
  left h he hf := ⟨h.tag, h.endTag, h.attributes, h.assigns, h.pending, h.nodes,
    fun _ => hf.trans he.symm⟩
  anew h := ⟨h.tag, h.endTag, h.attributes, h.assigns, h.pending, h.nodes, nofun⟩
  leaf _ := rfl
  kept h hdone hnodes := h.view_eq hdone (viewAll_of_forall₂ hnodes)
  keptAsIs h hdone := h.view_eq hdone (by rw [h.left rfl])

/-- Trees that differ in their directives only, which stand elsewhere among the attributes or are
written otherwise, lead to the same nodes or to the same error, and leave the same context. -/
theorem emit_of_rearranged {r : Registry} (hr : Registry.ofDialects [dialect] = .ok r)
    (ev : Evaluator) {places : Bool} {nodes nodes' : List Node}
    (hnodes : List.Forall₂ (RearrangedNode places) nodes nodes')
    (hassigns : Node.EverywhereIn AssignsPlainNode nodes) (run : Run) :
    SameOutcome
      (fun emitted emitted' s t =>
        Node.viewAll places emitted'.nodes = Node.viewAll places emitted.nodes ∧
          (places = true → emitted'.nodes = emitted.nodes) ∧ emitted'.halt = emitted.halt ∧
          t.context = s.context)
      (r.emit ev nodes run) (r.emit ev nodes' run) := by
  obtain rfl : registry = r := Except.ok.inj (ofDialects_dialect.symm.trans hr)
  have hcomparable : List.Forall₂ (rearranged ev places).nodes nodes nodes' :=
    (List.forall₂_and_left _ _).mpr ⟨hassigns, hnodes⟩
  have hemit := (rearranged ev places).emit_emit (alikeContexts_eq ev).toAlikeBindings hcomparable
  refine (hemit run run rfl).mono ?_
  rintro emitted emitted' s t ⟨halike, hst⟩
  have hview := viewAll_of_forall₂ halike.nodes
  refine ⟨hview, ?_, halike.halt, Eq.symm hst⟩
  rintro rfl
  rwa [Node.viewAll_true, Node.viewAll_true] at hview

/-- Directives in front of and behind another attribute, in other spellings. -/
theorem emit_of_rearranged_spelling :
    let plain : Attribute := ⟨" ", "class", "=", some "a", .double, {}⟩
    let element (attributes : List Attribute) : Node :=
      .element { name := "p", attributes } [] (.explicit "</p>")
    let nodes : List Node := [element [plain, ⟨" ", "th:text", "=", some "${x}", .double, {}⟩,
      ⟨" ", "th:title", "=", some "${x}", .double, {}⟩]]
    let nodes' : List Node := [element [⟨"\n", "DATA-th-Title", " = ", some "${x}", .single, {}⟩,
      ⟨" ", "TH:text", "=", some "${x}", .unquoted, {}⟩, plain]]
    let run : Run := { context := { root := [("x", .value (.string "1"))] } }
    List.Forall₂ (RearrangedNode true) nodes nodes' ∧
      Node.EverywhereIn AssignsPlainNode nodes ∧
      ∃ emitted emitted' s t, registry.emit .standard nodes run = .ok emitted s ∧
        registry.emit .standard nodes' run = .ok emitted' t ∧ emitted'.nodes = emitted.nodes ∧
        (Document.mk emitted.nodes).render = "<p class=\"a\" title=\"1\">1</p>" := by
  intro plain element nodes nodes' run
  have hnodes : List.Forall₂ (RearrangedNode true) nodes nodes' := by
    refine .cons (.element ⟨?_, ?_⟩ .nil) .nil
    · decide +kernel
    · decide +kernel
  have hassigns : Node.EverywhereIn AssignsPlainNode nodes := by
    decide +kernel
  have hcheck : passes (fun emitted _ =>
      (Document.mk emitted.nodes).render == "<p class=\"a\" title=\"1\">1</p>")
      (registry.emit .standard nodes run) = true := by
    decide +kernel
  obtain ⟨emitted, s, hrun, hrender⟩ := exists_of_passes hcheck
  have hsame := emit_of_rearranged ofDialects_dialect .standard hnodes hassigns run
  rw [hrun] at hsame
  generalize registry.emit .standard nodes' run = result at hsame ⊢
  cases hsame with
  | @ok _ emitted' _ t h =>
    exact ⟨hnodes, hassigns, emitted, emitted', s, t, hrun, rfl, h.2.1 rfl, eq_of_beq hrender⟩

end Standard
end NaturalTemplate
