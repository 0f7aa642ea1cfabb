import NaturalTemplate.Processing.Settle
import NaturalTemplate.Proofs.Markup.Reparse
import NaturalTemplate.Proofs.Text.Escape
import NaturalTemplate.Standard.Dialect

/-!
# Tame templates

A template is tame if nothing in it asks for markup from outside: no body is written without
escaping, text is not expanded, no text is written into a void element, and only attributes are
assigned that could stand in markup and do not ask for any of this themselves. What the standard
processors do to an element of a tame template leaves it strict and tame.
-/
namespace NaturalTemplate.Standard
open Markup

/-! ## Attributes that call for processors -/

/-- Whether an attribute of some name calls for the standard processor that a directive names. -/
def calls (directive name : String) : Bool :=
  Text.sameName name ("th:" ++ directive) || Text.sameName name ("data-th-" ++ directive)

theorem calls_congr {a b : String} (h : Text.sameName a b = true) (directive : String) :
    calls directive a = calls directive b := by
  have hfold := Text.sameName_iff.mp h
  simp only [calls, Text.sameName, hfold]

theorem claims_ofRule (directive : String) (a : Attribute) :
    (Target.ofRule dialect.qualifier (.attribute directive)).claims a = calls directive a.name := by
  simp [Target.ofRule, Target.claims, Target.qualify, calls, Text.sameName, dialect]

/-- The directives whose values assign to attributes. -/
def assigners : List String := ["attr", "attrprepend", "attrappend"]

/-- Whether an attribute of some name lets no markup into the body of an element. -/
def IsHarmless (tagName name : String) : Prop :=
  (∀ directive ∈ ["utext", "inline"], calls directive name = false) ∧
    (isVoid tagName = true → calls "text" name = false)

/-- Whether assigning to an attribute adds nothing but the attribute to an element. -/
def IsAssignable (tagName name : String) : Prop :=
  IsAttributeName name ∧ IsHarmless tagName name ∧
    ∀ directive ∈ assigners, calls directive name = false

/-- The names that the value of an attribute assigns to. -/
def assignedNames (a : Attribute) : List String :=
  match assignments a.decodedValue with
  | .ok assigned => assigned.map Prod.fst
  | .error _ => []

/-- Whether an attribute is harmless and assigns to attributes with allowed names only. -/
def IsTame (allowed : String → String → Prop) (tagName : String) (a : Attribute) : Prop :=
  IsHarmless tagName a.name ∧
    ∀ directive ∈ assigners, calls directive a.name = true →
      ∀ name ∈ assignedNames a, allowed tagName name

/-- What is asked of every node of a template. -/
def IsTameNode (allowed : String → String → Prop) : Node → Prop
  | .element tag _ _ => ∀ a ∈ tag.attributes, IsTame allowed tag.name a
  | .text content _ => '<' ∉ content.toList
  | _ => True

instance (tagName name : String) : Decidable (IsHarmless tagName name) := by
  unfold IsHarmless
  infer_instance

instance (tagName name : String) : Decidable (IsAssignable tagName name) := by
  unfold IsAssignable
  infer_instance

instance (allowed : String → String → Prop) [∀ t n, Decidable (allowed t n)] (n : Node) :
    Decidable (IsTameNode allowed n) := by
  unfold IsTameNode IsTame
  cases n <;> infer_instance

theorem IsHarmless.congr {tagName a b : String} (h : IsHarmless tagName b)
    (hname : Text.sameName a b = true) : IsHarmless tagName a := by
  refine ⟨fun directive hd => ?_, fun hvoid => ?_⟩
  · rw [calls_congr hname]
    exact h.1 directive hd
  · rw [calls_congr hname]
    exact h.2 hvoid

/-- An attribute that may be assigned to is tame whatever its value is. -/
theorem IsAssignable.isTame {tagName name : String} (h : IsAssignable tagName name) {a : Attribute}
    (hname : Text.sameName a.name name = true) : IsTame IsAssignable tagName a := by
  refine ⟨h.2.1.congr hname, fun directive hd hcalls => ?_⟩
  rw [calls_congr hname, h.2.2 directive hd] at hcalls
  contradiction

/-- The attributes that have processors of their own, and the lists, can be assigned to. -/
theorem isAssignable_of_mem {name : String}
    (hname : name ∈ valueAttributes ++ flagAttributes ++ ["class", "style"]) (tag : String) :
    IsAssignable tag name := by
  have hall : ∀ name ∈ valueAttributes ++ flagAttributes ++ ["class", "style"],
      IsAttributeName name ∧
        ∀ directive ∈ assigners ++ ["utext", "inline", "text"], calls directive name = false := by
    decide +kernel
  obtain ⟨hvalid, hcalls⟩ := hall name hname
  refine ⟨hvalid, ⟨fun d hd => hcalls d ?_, fun _ => hcalls "text" (by simp)⟩,
    fun d hd => hcalls d (List.mem_append_left _ hd)⟩
  simp only [List.mem_cons, List.not_mem_nil, or_false] at hd
  obtain rfl | rfl := hd <;> simp

/-! ## Elements -/

/-- A node of a strict and tame tree. -/
def IsSafeNode (policy : CommentPolicy) (n : Node) : Prop :=
  n.IsStrict policy ∧ IsTameNode IsAssignable n

theorem IsSafeNode.isLegible {policy : CommentPolicy} {n : Node} (h : IsSafeNode policy n) :
    n.IsLegible policy := by
  refine ⟨h.1, ?_⟩
  cases n with
  | text => exact h.2
  | _ => trivial

structure IsSafe (policy : CommentPolicy) (e : Element) : Prop where
  tag : e.tag.IsStrict
  closes : Closes e.tag e.children e.endTag
  attributes : ∀ a ∈ e.attributes, IsTame IsAssignable e.name a
  children : Node.EverywhereIn (IsSafeNode policy) e.children

theorem everywhere_toNode {policy : CommentPolicy} {e : Element} :
    e.toNode.Everywhere (IsSafeNode policy) ↔ IsSafe policy e := by
  constructor
  · intro h
    exact ⟨h.here.1.1, h.here.1.2, h.here.2, h.inside⟩
  · intro h
    exact .intro ⟨⟨h.tag, h.closes⟩, h.attributes⟩ h.children

theorem isSpace_empty : IsSpace "" := by
  intro c hc
  simp at hc

/-- A value without a quote can be written in double quotes. -/
theorem isStrict_setValue {a : Attribute} (h : a.IsStrict) {value : String}
    (hvalue : '"' ∉ value.toList) : (a.setValue value).IsStrict := by
  refine ⟨h.leading, h.name, ?_⟩
  cases h.value with
  | missing hoperator _ hquote =>
    have hoperator' : (a.setValue value).operator = "" ++ "=" ++ "" := by
      simp [Attribute.setValue, hoperator]
    have hquote' : (a.setValue value).quote = .double := by
      simp [Attribute.setValue, hquote]
    exact .quoted isSpace_empty isSpace_empty hoperator' rfl hvalue hquote'
  | @quoted front back _ hfront hback hoperator _ _ hquote =>
    have hne : a.operator ≠ "" := by
      intro hnil
      have hlist := congrArg String.toList (hoperator.symm.trans hnil)
      simp at hlist
    have hoperator' : (a.setValue value).operator = front ++ "=" ++ back := by
      rw [← hoperator]
      exact if_neg hne
    have hquote' : (a.setValue value).quote = .double := by
      simp [Attribute.setValue, hquote]
    exact .quoted hfront hback hoperator' rfl hvalue hquote'

theorem isStrict_make {name value : String} (hname : IsAttributeName name)
    (hvalue : '"' ∉ value.toList) : (Attribute.make name value).IsStrict := by
  refine ⟨⟨by simp [Attribute.make], ?_⟩, hname, ?_⟩
  · intro c hc
    obtain rfl : c = ' ' := by simpa [Attribute.make] using hc
    rfl
  · exact .quoted isSpace_empty isSpace_empty rfl rfl hvalue rfl

theorem mem_set {name value : String} {attributes : List Attribute} {a : Attribute}
    (h : a ∈ Attribute.set name value attributes) :
    a ∈ attributes ∨ a = Attribute.make name value ∨
      ∃ b ∈ attributes, b.isNamed name = true ∧ a = b.setValue value := by
  induction attributes with
  | nil => exact .inr (.inl (List.mem_singleton.mp h))
  | cons b attributes ih =>
    rw [Attribute.set] at h
    by_cases hb : b.isNamed name = true
    · rw [if_pos hb] at h
      obtain rfl | h := List.mem_cons.mp h
      · exact .inr (.inr ⟨b, List.mem_cons_self, hb, rfl⟩)
      · exact .inl (List.mem_cons_of_mem _ h)
    · rw [if_neg hb] at h
      obtain rfl | h := List.mem_cons.mp h
      · exact .inl List.mem_cons_self
      · obtain h | h | ⟨c, hc, hnamed, heq⟩ := ih h
        · exact .inl (List.mem_cons_of_mem _ h)
        · exact .inr (.inl h)
        · exact .inr (.inr ⟨c, List.mem_cons_of_mem _ hc, hnamed, heq⟩)

theorem name_setChildren (e : Element) (children : List Node) :
    (e.setChildren children).name = e.name := by
  unfold Element.setChildren Element.openBody
  split
  · rfl
  · split <;> rfl

namespace IsSafe

variable {policy : CommentPolicy} {e : Element}

theorem withAttributes (h : IsSafe policy e) {attributes : List Attribute}
    (hstrict : ∀ a ∈ attributes, a.IsStrict)
    (htame : ∀ a ∈ attributes, IsTame IsAssignable e.name a) :
    IsSafe policy (e.withAttributes attributes) := by
  refine ⟨⟨h.tag.name, hstrict, h.tag.trailing⟩, ?_, htame, h.children⟩
  cases h.closes with
  | void hvoid hchildren hend => exact .void hvoid hchildren hend
  | explicit hstays hspace hend => exact .explicit hstays hspace hend

theorem removeAttribute (h : IsSafe policy e) (name : String) :
    IsSafe policy (e.removeAttribute name) :=
  h.withAttributes (fun a ha => h.tag.attributes a (List.mem_of_mem_eraseP ha))
    fun a ha => h.attributes a (List.mem_of_mem_eraseP ha)

theorem takeAttributes (h : IsSafe policy e) (names : List String) :
    IsSafe policy (NaturalTemplate.takeAttributes e names).2 := by
  induction names generalizing e with
  | nil => exact h
  | cons name names ih => exact ih (h.removeAttribute name)

/-- An attribute can get any value without a quote. -/
theorem setAttribute (h : IsSafe policy e) {name value : String} (hname : IsAssignable e.name name)
    (hvalue : '"' ∉ value.toList) : IsSafe policy (e.setAttribute name value) := by
  apply h.withAttributes
  · intro a ha
    obtain ha | rfl | ⟨b, hb, -, rfl⟩ := mem_set ha
    · exact h.tag.attributes a ha
    · exact isStrict_make hname.1 hvalue
    · exact isStrict_setValue (h.tag.attributes b hb) hvalue
  · intro a ha
    obtain ha | rfl | ⟨b, -, hnamed, rfl⟩ := mem_set ha
    · exact h.attributes a ha
    · exact hname.isTame (Text.sameName_refl name)
    · exact hname.isTame hnamed

/-- Some children can be left out. -/
theorem withChildren (h : IsSafe policy e) {children : List Node} (hsub : children ⊆ e.children) :
    IsSafe policy { e with children } := by
  refine ⟨h.tag, ?_, h.attributes, fun n hn => h.children n (hsub hn)⟩
  cases h.closes with
  | void hvoid hnil hend =>
    rw [hnil] at hsub
    exact .void hvoid (List.subset_nil.mp hsub) hend
  | explicit hstays hspace hend => exact .explicit hstays hspace hend

theorem setChildren_nil (h : IsSafe policy e) : IsSafe policy (e.setChildren []) :=
  h.withChildren (List.nil_subset _)

/-- Making room for children gives an element that is not void an end tag. -/
theorem openBody (h : IsSafe policy e) (hvoid : isVoid e.name = false) :
    IsSafe policy e.openBody ∧ ∀ children, Closes e.openBody.tag children e.openBody.endTag := by
  have hstays : (false || isVoid e.name) = false := by rw [hvoid]; rfl
  unfold Element.openBody
  cases h.closes with
  | void hself _ hend =>
    have hend' : "</" ++ e.name ++ ">" = endTagText e.name "" := by
      simp [endTagText]
    have hcloses : ∀ children, Closes { e.tag with selfClosing := false } children
        (.explicit ("</" ++ e.name ++ ">")) := fun children =>
      .explicit hstays isSpace_empty (congrArg EndTag.explicit hend')
    rw [if_pos ⟨hend, by simp [hvoid]⟩]
    exact ⟨⟨⟨h.tag.name, h.tag.attributes, h.tag.trailing⟩, hcloses _, h.attributes, h.children⟩,
      hcloses⟩
  | explicit hstays hspace hend =>
    rw [if_neg (by simp [hend])]
    exact ⟨h, fun children => .explicit hstays hspace hend⟩

/-- The children of an element that is not void can be replaced. -/
theorem setChildren (h : IsSafe policy e) (hvoid : isVoid e.name = false) {children : List Node}
    (hchildren : Node.EverywhereIn (IsSafeNode policy) children) :
    IsSafe policy (e.setChildren children) := by
  by_cases hempty : children = []
  · rw [hempty]
    exact h.setChildren_nil
  · obtain ⟨hopen, hcloses⟩ := h.openBody hvoid
    have hset : e.setChildren children = { e.openBody with children } := by
      simp [Element.setChildren, hempty]
    rw [hset]
    exact ⟨hopen.tag, hcloses children, hopen.attributes, hchildren⟩

end IsSafe

end NaturalTemplate.Standard
