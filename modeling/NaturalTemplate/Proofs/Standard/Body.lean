import NaturalTemplate.Engine
import NaturalTemplate.Proofs.Processing.Output

/-!
# The body that was set

The processors for text come last but for those that remove an element or a part of it, so what they
set is the body that the element has when no processor is left, and the children of such an element
are not processed. The element can still be dropped, lose its body, or leave it to the place where
it stood. Only there it is a node like any other, and is expanded where text is.
-/
namespace NaturalTemplate
open Markup

namespace Standard

variable {ev : Evaluator}

/-! ## What a call sets -/

/-- The text of the value that a processor is called with. -/
def contentOf? (ev : Evaluator) (p : Entry) (e : Element) (c : Context) : Option String :=
  ((ev.value c (p.calledWith ev e).value).bind Value.text).toOption

/-- The body that a call gives an element, if it is the call of a processor for text that did not
fail. -/
def body? (ev : Evaluator) : Deed → Option String
  | .called p ⟨e, c⟩ (.ok _) =>
    if p.processor.name = "text" then (contentOf? ev p e c).map Text.escape
    else if p.processor.name = "utext" then contentOf? ev p e c
    else none
  | _ => none

/-- The directive that a call was answered with. -/
def answer? : Deed → Option Directive
  | .called _ _ (.ok directive) => some directive
  | _ => none

/-- The body that the last of some calls gave; the deeds of a run are held with the newest first. -/
def lastBody? (ev : Evaluator) (deeds : List Deed) : Option String := deeds.findSome? (body? ev)

def lastAnswer? (deeds : List Deed) : Option Directive := deeds.findSome? answer?

/-- The children of an element with a body of text. -/
def bodyNodes (body : String) : List Node := if body = "" then [] else [.ofText body]

theorem keepFirstElement_bodyNodes (body : String) :
    keepFirstElement (bodyNodes body) = bodyNodes body := by
  unfold bodyNodes
  split <;> rfl

end Standard

/-! ## The order of the processors -/

/-- An element with fewer attributes is matched by fewer processors. -/
theorem Target.matches?_of_subset {t : Target} {e e' : Element} (hname : e'.name = e.name)
    (hattributes : e'.attributes ⊆ e.attributes) (h : t.matches? e' = true) :
    t.matches? e = true := by
  cases t with
  | «attribute» qualified data =>
    obtain ⟨a, ha, hclaims⟩ := List.any_eq_true.mp h
    exact List.any_eq_true.mpr ⟨a, hattributes ha, hclaims⟩
  | element name =>
    simp only [Target.matches?] at h ⊢
    rwa [← hname]

namespace Standard

variable {ev : Evaluator}

/-! ## What the last processors do -/

theorem attributes_setChildren (e : Element) (children : List Node) :
    (e.setChildren children).attributes = e.attributes := by
  unfold Element.setChildren Element.openBody
  split
  · rfl
  · split <;> rfl

theorem children_setChildren (e : Element) (children : List Node) :
    (e.setChildren children).children = children := by
  unfold Element.setChildren
  split <;> rfl

theorem openBody_with (e : Element) (nodes : List Node) :
    Element.openBody { e with children := nodes } = { e.openBody with children := nodes } := by
  by_cases hvoid : e.endTag = .void <;> by_cases hname : isVoid e.tag.name = true <;>
    simp [Element.openBody, Element.name, hvoid, hname]

/-- What the children were before does not matter once they are set. -/
theorem setChildren_with (e : Element) (before nodes : List Node) :
    Element.setChildren { e with children := before } nodes = e.setChildren nodes := by
  unfold Element.setChildren
  rw [openBody_with]
  split <;> rfl

theorem takeAttributes_spec (e : Element) (names : List String) :
    (takeAttributes e names).2.attributes ⊆ e.attributes ∧
      (takeAttributes e names).2.children = e.children := by
  induction names generalizing e with
  | nil => exact ⟨List.Subset.refl _, rfl⟩
  | cons name names ih =>
    obtain ⟨hattributes, hchildren⟩ := ih (e.removeAttribute name)
    exact ⟨List.Subset.trans hattributes List.eraseP_subset, hchildren⟩

theorem evaluate_eq_ok {call : Call} {expression : String} {v : Value} {w w' : Workspace}
    (h : call.evaluate expression w = .ok v w') :
    call.evaluator.value w.context expression = .ok v ∧ w'.element = w.element := by
  have hrun : call.evaluate expression w =
      Work.ofExcept (call.evaluator.value w.context expression)
        { w with context := (call.evaluator.evaluate expression w.context).2 } := rfl
  rw [hrun] at h
  cases hvalue : call.evaluator.value w.context expression with
  | ok u =>
    rw [hvalue] at h
    cases h
    exact ⟨rfl, rfl⟩
  | error cause =>
    rw [hvalue] at h
    cases h

theorem text_eq_ok {v : Value} {content : String} {w w' : Workspace}
    (h : Work.text v w = .ok content w') : v.text = .ok content ∧ w' = w := by
  unfold Work.text at h
  cases htext : v.text with
  | ok text =>
    rw [htext] at h
    cases h
    exact ⟨rfl, rfl⟩
  | error cause =>
    rw [htext] at h
    cases h

theorem escape_eq_empty {s : String} : Text.escape s = "" ↔ s = "" := by
  have hchar (c : Char) : Text.escapeChar c ≠ [] := by
    unfold Text.escapeChar
    split <;> simp
  rw [← String.toList_eq_nil_iff, ← String.toList_eq_nil_iff, Text.escape, String.toList_ofList,
    List.flatMap_eq_nil_iff]
  cases s.toList with
  | nil => simp
  | cons c cs =>
    exact iff_of_false (fun h => hchar c (h c List.mem_cons_self)) (List.cons_ne_nil c cs)

theorem setBody_eq_ok {escaped : Bool} {call : Call} {w w' : Workspace} {directive : Directive}
    (h : setBody escaped call w = .ok directive w') :
    ∃ content, (call.evaluator.value w.context call.value).bind Value.text = .ok content ∧
      directive = .skipChildren ∧
      w'.element = w.element.setChildren
        (bodyNodes (if escaped then Text.escape content else content)) := by
  obtain ⟨v, w₁, hevaluate, hrest⟩ := eq_ok_of_bind h
  obtain ⟨content, w₂, htext, hchange⟩ := eq_ok_of_bind hrest
  obtain ⟨hvalue, helement⟩ := evaluate_eq_ok hevaluate
  obtain ⟨hcontent, hsame⟩ := text_eq_ok htext
  rw [hsame] at hchange
  cases hchange
  refine ⟨content, by rw [hvalue]; exact hcontent, rfl, ?_⟩
  have hempty : (if escaped then Text.escape content else content) = "" ↔ content = "" := by
    cases escaped
    · rfl
    · exact escape_eq_empty
  simp only [helement, bodyNodes, hempty]
  split <;> rfl

/-- Whether work that succeeds relates the element before it, its result and the element after. -/
def Ensures {α : Type} (x : Work α) (q : Element → α → Element → Prop) : Prop :=
  ∀ w a w', x w = .ok a w' → q w.element a w'.element

namespace Ensures

variable {α : Type} {q : Element → α → Element → Prop}

theorem pure {a : α} (h : ∀ e, q e a e) : Ensures (Pure.pure a) q := by
  intro w b w' hrun
  cases hrun
  exact h w.element

theorem throw (cause : EngineError) : Ensures (MonadExcept.throw cause : Work α) q := by
  intro w b w' hrun
  cases hrun

theorem pure_bind {β : Type} {b : β} {f : β → Work α} (hf : Ensures (f b) q) :
    Ensures (Pure.pure b >>= f) q := hf

theorem evaluate_bind {call : Call} {expression : String} {f : Value → Work α}
    (hf : ∀ v, Ensures (f v) q) : Ensures (call.evaluate expression >>= f) q := by
  intro w a w' h
  obtain ⟨v, w₁, hevaluate, hrest⟩ := eq_ok_of_bind h
  rw [← (evaluate_eq_ok hevaluate).2]
  exact hf v w₁ a w' hrest

theorem text_bind {v : Value} {f : String → Work α} (hf : ∀ content, Ensures (f content) q) :
    Ensures (Work.text v >>= f) q := by
  intro w a w' h
  obtain ⟨content, w₁, htext, hrest⟩ := eq_ok_of_bind h
  rw [(text_eq_ok htext).2] at hrest
  exact hf content w a w' hrest

end Ensures

/-- What the processors that remove something leave of an element. -/
def Removes (e : Element) (directive : Directive) (e' : Element) : Prop :=
  e' = e ∧ (directive = .removeNode ∨ directive = .removeBody ∨ directive = .proceed ∨
    directive = .replace e.children) ∨
  e' = { e with children := keepFirstElement e.children } ∧ directive = .proceed

theorem ensures_unwrap (call : Call) : Ensures (unwrap call) Removes := by
  intro w directive w' h
  cases h
  exact .inl ⟨rfl, .inr (.inr (.inr rfl))⟩

theorem ensures_remove (call : Call) : Ensures (remove call) Removes := by
  unfold remove
  extract_lets declared finish
  have hfinish : ∀ mode, Ensures (finish mode) Removes := by
    intro mode
    simp only [finish]
    split
    · exact .pure fun e => .inl ⟨rfl, .inl rfl⟩
    · exact .pure fun e => .inl ⟨rfl, .inr (.inl rfl)⟩
    · exact ensures_unwrap call
    · intro w directive w' h
      cases h
      exact .inr ⟨rfl, rfl⟩
    · exact .pure fun e => .inl ⟨rfl, .inr (.inr (.inl rfl))⟩
    · exact .pure fun e => .inl ⟨rfl, .inr (.inr (.inl rfl))⟩
    · exact .throw _
  split
  · exact .pure_bind (hfinish declared)
  · exact .evaluate_bind fun v => .text_bind fun mode => hfinish mode

/-! ## Calls -/

theorem call_eq_ok {p : Entry} {e e' : Element} {r s : Run} {directive : Directive}
    (h : p.call ev e r = .ok (directive, e') s) :
    (∃ c, p.processor.run (p.calledWith ev e) (p.workspace e r.context) =
      .ok directive ⟨e', c⟩) ∧
      s.deeds = .called p ⟨e, r.context⟩ (.ok directive) :: r.deeds := by
  rw [Entry.call_run] at h
  split at h
  · next w hrun =>
    cases h
    exact ⟨⟨w.context, hrun⟩, rfl⟩
  · cases h

/-- What one of the last processors makes of the children of an element. -/
def LateCall (e : Element) (directive : Directive) (e' : Element) : Option String → Prop
  | some body => directive = .skipChildren ∧ e'.children = bodyNodes body
  | none => directive = .removeNode ∨ directive = .removeBody ∨
      directive = .replace e.children ∨
      directive = .proceed ∧
        (e'.children = e.children ∨ e'.children = keepFirstElement e.children)

theorem lateCall_of_setBody {p : Entry} {e e' : Element} {c c' : Context} {escaped : Bool}
    {directive : Directive} (hrun : p.processor.run = setBody escaped)
    (hname : p.processor.name = if escaped then "text" else "utext")
    (h : p.processor.run (p.calledWith ev e) (p.workspace e c) = .ok directive ⟨e', c'⟩) :
    e'.name = e.name ∧ e'.attributes ⊆ e.attributes ∧
      LateCall e directive e' (body? ev (.called p ⟨e, c⟩ (.ok directive))) := by
  rw [hrun] at h
  obtain ⟨content, hcontent, rfl, helement⟩ := setBody_eq_ok h
  obtain ⟨hattributes, -⟩ := takeAttributes_spec e (p.target.claimed e)
  have hbody : body? ev (.called p ⟨e, c⟩ (.ok .skipChildren)) =
      some (if escaped then Text.escape content else content) := by
    have hcontentOf : contentOf? ev p e c = some content := congrArg Except.toOption hcontent
    cases escaped <;> simp [body?, hname, hcontentOf]
  change e' = (takeAttributes e (p.target.claimed e)).2.setChildren _ at helement
  rw [hbody, helement]
  refine ⟨?_, ?_, rfl, children_setChildren _ _⟩
  · rw [name_setChildren, name_takeAttributes]
  · rwa [attributes_setChildren]

theorem lateCall_of_removes {p : Entry} {work : Call → Work Directive}
    (hwork : ∀ call, Ensures (work call) Removes) {e e' : Element} {c c' : Context}
    {directive : Directive} (hrun : p.processor.run = work)
    (hname : p.processor.name ≠ "text" ∧ p.processor.name ≠ "utext")
    (h : p.processor.run (p.calledWith ev e) (p.workspace e c) = .ok directive ⟨e', c'⟩) :
    e'.name = e.name ∧ e'.attributes ⊆ e.attributes ∧
      LateCall e directive e' (body? ev (.called p ⟨e, c⟩ (.ok directive))) := by
  obtain ⟨hattributes, hchildren⟩ := takeAttributes_spec e (p.target.claimed e)
  have hbody : body? ev (.called p ⟨e, c⟩ (.ok directive)) = none := by
    simp [body?, hname]
  rw [hrun] at h
  have hremoves : Removes (takeAttributes e (p.target.claimed e)).2 directive e' :=
    hwork _ _ _ _ h
  rw [hbody]
  obtain ⟨rfl, hdirective⟩ | ⟨rfl, rfl⟩ := hremoves
  · rw [hchildren] at hdirective
    refine ⟨name_takeAttributes e _, hattributes, ?_⟩
    obtain hnode | hempty | hproceed | hreplace := hdirective
    · exact .inl hnode
    · exact .inr (.inl hempty)
    · exact .inr (.inr (.inr ⟨hproceed, .inl hchildren⟩))
    · exact .inr (.inr (.inl hreplace))
  · refine ⟨name_takeAttributes e _, hattributes, .inr (.inr (.inr ⟨rfl, .inr ?_⟩))⟩
    exact congrArg keepFirstElement hchildren

/-- The last processors add no attribute, and set the body or leave the children as they are, but
for elements that are dropped from them. -/
theorem lateCall_of_call {p : Entry} (hp : p ∈ late) {e e' : Element} {r s : Run}
    {directive : Directive} (h : p.call ev e r = .ok (directive, e') s) :
    e'.name = e.name ∧ e'.attributes ⊆ e.attributes ∧
      LateCall e directive e' (body? ev (.called p ⟨e, r.context⟩ (.ok directive))) := by
  obtain ⟨⟨c, hrun⟩, -⟩ := call_eq_ok h
  simp only [late, List.mem_cons, List.not_mem_nil, or_false] at hp
  obtain rfl | rfl | rfl | rfl := hp
  · exact lateCall_of_setBody rfl rfl hrun
  · exact lateCall_of_setBody rfl rfl hrun
  · exact lateCall_of_removes ensures_remove (run_entry_forAttribute _ _ _) (by decide) hrun
  · exact lateCall_of_removes ensures_unwrap rfl (by decide) hrun

/-! ## What becomes of the element -/

/-- What an element with a body becomes, by the last answer of its processors. -/
def HasBody (body : String) : Directive → Outcome → Prop
  | .removeNode, .drop => True
  | .removeBody, .keep e false => e.children = []
  | .replace _, .splice nodes => nodes = bodyNodes body
  | .proceed, .keep e false | .skipChildren, .keep e false => e.children = bodyNodes body
  | _, _ => False

/-- One more deed, which was done before the others. -/
theorem lastBody?_concat (deeds : List Deed) (d : Deed) :
    lastBody? ev (deeds ++ [d]) = (lastBody? ev deeds).or (body? ev d) := by
  rw [lastBody?, List.findSome?_append, List.findSome?_singleton, ← lastBody?]

theorem lastAnswer?_concat (deeds : List Deed) (d : Deed) :
    lastAnswer? (deeds ++ [d]) = (lastAnswer? deeds).or (answer? d) := by
  rw [lastAnswer?, List.findSome?_append, List.findSome?_singleton, ← lastAnswer?]

/-- Whether the last body that some calls set, if any, decides what becomes of the element. -/
def Decides (ev : Evaluator) (deeds : List Deed) (outcome : Outcome) : Prop :=
  ∀ body ∈ lastBody? ev deeds, ∃ answer ∈ lastAnswer? deeds, HasBody body answer outcome

namespace Decides

variable {deeds : List Deed} {d : Deed} {outcome : Outcome}

theorem nil : Decides ev [] outcome := by simp [Decides, lastBody?]

/-- A call that sets no body matters only by those that are made after it. -/
theorem concat (h : Decides ev deeds outcome) (hd : body? ev d = none) :
    Decides ev (deeds ++ [d]) outcome := by
  intro body hbody
  rw [lastBody?_concat, hd, Option.or_none] at hbody
  obtain ⟨answer, hanswer, houtcome⟩ := h body hbody
  refine ⟨answer, ?_, houtcome⟩
  rw [lastAnswer?_concat, Option.mem_def.mp hanswer]
  rfl

theorem concat_of_some {body : String} {answer : Directive} (hbody : body? ev d = some body)
    (hanswer : answer? d = some answer)
    (h : HasBody ((lastBody? ev deeds).getD body) ((lastAnswer? deeds).getD answer) outcome) :
    Decides ev (deeds ++ [d]) outcome := by
  intro last hlast
  rw [lastBody?_concat, hbody, Option.or_some, Option.mem_some_iff] at hlast
  rw [← hlast, lastAnswer?_concat, hanswer]
  exact ⟨_, Option.or_some, h⟩

end Decides

/-- An element with a body of text, for which only the last processors are left, keeps the body or
is given another one, unless one of them removes it. -/
theorem hasBody_of_settle {pending : List Entry} {e : Element} {body : String}
    (hlate : ∀ q ∈ pending, q.target.matches? e = true → q ∈ late)
    (hchildren : e.children = bodyNodes body) {answer : Directive}
    (hanswer : answer = .proceed ∨ answer = .skipChildren) {r t : Run} {outcome : Outcome}
    (h : settle ev pending false e r = .ok outcome t) :
    ∃ new, t.deeds = new ++ r.deeds ∧
      HasBody ((lastBody? ev new).getD body) ((lastAnswer? new).getD answer) outcome := by
  generalize hfalse : false = children at h
  induction pending, children, e using settle.induct generalizing r body answer with
  | case1 pending children e hnext =>
    rw [settle_of_next?_eq_none hnext] at h
    cases h
    subst hfalse
    refine ⟨[], rfl, ?_⟩
    obtain rfl | rfl := hanswer <;> exact hchildren
  | case2 pending children e p others hnext ihproceed ihskip =>
    subst hfalse
    obtain ⟨hmem, hsub⟩ := Entry.mem_of_next? hnext
    have hp := hlate p hmem (Entry.matches?_of_next? hnext)
    rw [settle_of_next? hnext] at h
    obtain ⟨⟨directive, e'⟩, s, hcall, hrest⟩ := eq_ok_of_bind h
    obtain ⟨hname, hattributes, hmade⟩ := lateCall_of_call hp hcall
    obtain ⟨-, hdeeds⟩ := call_eq_ok hcall
    have hothers : ∀ q ∈ others, q.target.matches? e' = true → q ∈ late := fun q hq hmatch =>
      hlate q (hsub hq) (Target.matches?_of_subset hname hattributes hmatch)
    -- The deeds of the processors that are called after this one come in front of this call.
    suffices hlater : ∃ later, t.deeds = later ++ s.deeds ∧
        HasBody ((lastBody? ev later).getD
            ((body? ev (.called p ⟨e, r.context⟩ (.ok directive))).getD body))
          ((lastAnswer? later).getD directive) outcome by
      obtain ⟨later, hlater, hbody⟩ := hlater
      refine ⟨later ++ [.called p ⟨e, r.context⟩ (.ok directive)], ?_, ?_⟩
      · rw [hlater, hdeeds, List.append_cons]
      · rwa [lastBody?_concat, lastAnswer?_concat, Option.getD_or, Option.getD_or]
    cases hset : body? ev (.called p ⟨e, r.context⟩ (.ok directive)) with
    | some set =>
      rw [hset] at hmade
      obtain ⟨rfl, hchildren'⟩ := hmade
      exact ihskip e' hothers hchildren' (.inr rfl) rfl hrest
    | none =>
      rw [hset] at hmade
      obtain rfl | rfl | rfl | ⟨rfl, hsame⟩ := hmade
      · cases hrest
        exact ⟨[], rfl, trivial⟩
      · cases hrest
        exact ⟨[], rfl, children_setChildren e' []⟩
      · cases hrest
        exact ⟨[], rfl, hchildren⟩
      · have hchildren' : e'.children = bodyNodes body := by
          rw [hchildren, keepFirstElement_bodyNodes, or_self] at hsame
          exact hsame
        exact ihproceed e' hothers hchildren' (.inl rfl) rfl hrest

/-- Where a body is set, only the last processors are left that match the element. -/
theorem mem_late_of_next? {pending others : List Entry}
    (hpending : pending.Sublist registry.entries) {e : Element} {p : Entry}
    (hnext : Entry.next? e pending = some (p, others))
    (hname : p.processor.name = "text" ∨ p.processor.name = "utext") :
    p ∈ late ∧ ∀ q ∈ others, q.target.matches? e = true → q ∈ late := by
  obtain ⟨early, hentries, hearly⟩ := entries_eq
  obtain ⟨front, back, rfl, rfl, hfront⟩ := Entry.exists_of_next? hnext
  rw [hentries] at hpending
  obtain ⟨pendingEarly, pendingLate, hsplit, hsubEarly, hsubLate⟩ :=
    List.sublist_append_iff.mp hpending
  have hnot : p ∉ pendingEarly := fun hmem => by
    refine hearly p (hsubEarly.subset hmem) ?_
    obtain hname | hname := hname <;> simp [hname]
  -- What comes from the processor on is all among the last ones.
  have hlate : p :: back ⊆ late := by
    obtain ⟨more, hmore, hback⟩ | ⟨more, -, hmore⟩ := List.append_eq_append_iff.mp hsplit
    · cases more with
      | nil => exact hback ▸ hsubLate.subset
      | cons q more =>
        obtain rfl := (List.cons.inj hback).1
        exact absurd (by simp [hmore]) hnot
    · exact fun q hq => hsubLate.subset (by rw [hmore]; exact List.mem_append_right _ hq)
  refine ⟨hlate List.mem_cons_self, fun q hq hmatch => ?_⟩
  obtain hq | hq := List.mem_append.mp hq
  · rw [hfront q hq] at hmatch
    exact absurd hmatch Bool.false_ne_true
  · exact hlate (List.mem_cons_of_mem _ hq)

/-- If a body is set while the processors of an element are called, the last of the bodies that were
set decides what becomes of the element. -/
theorem decides_of_settle {pending : List Entry} (hpending : pending.Sublist registry.entries)
    {children : Bool} {e : Element} {r t : Run} {outcome : Outcome}
    (h : settle ev pending children e r = .ok outcome t) :
    ∃ new, t.deeds = new ++ r.deeds ∧ Decides ev new outcome := by
  induction pending, children, e using settle.induct generalizing r with
  | case1 pending children e hnext =>
    rw [settle_of_next?_eq_none hnext] at h
    cases h
    exact ⟨[], rfl, .nil⟩
  | case2 pending children e p others hnext ihproceed ihskip =>
    have hothers : others.Sublist registry.entries := by
      obtain ⟨front, back, rfl, rfl, -⟩ := Entry.exists_of_next? hnext
      exact ((List.sublist_cons_self p back).append_left front).trans hpending
    rw [settle_of_next? hnext] at h
    obtain ⟨⟨directive, e'⟩, s, hcall, hrest⟩ := eq_ok_of_bind h
    obtain ⟨-, hdeeds⟩ := call_eq_ok hcall
    suffices hlater : ∃ later, t.deeds = later ++ s.deeds ∧
        Decides ev (later ++ [.called p ⟨e, r.context⟩ (.ok directive)]) outcome by
      obtain ⟨later, hlater, hdecides⟩ := hlater
      exact ⟨_, by rw [hlater, hdeeds, List.append_cons], hdecides⟩
    cases hset : body? ev (.called p ⟨e, r.context⟩ (.ok directive)) with
    | some body =>
      have hname : p.processor.name = "text" ∨ p.processor.name = "utext" := by
        by_contra hneither
        simp_all [body?]
      obtain ⟨hp, hlate⟩ := mem_late_of_next? hpending hnext hname
      obtain ⟨hnames, hattributes, hmade⟩ := lateCall_of_call hp hcall
      rw [hset] at hmade
      obtain ⟨rfl, hchildren⟩ := hmade
      obtain ⟨later, hlater, hbody⟩ := hasBody_of_settle (fun q hq hmatch =>
        hlate q hq (Target.matches?_of_subset hnames hattributes hmatch)) hchildren (.inr rfl) hrest
      exact ⟨later, hlater, .concat_of_some hset rfl hbody⟩
    | none =>
      cases directive with
      | proceed =>
        obtain ⟨later, hlater, hdecides⟩ := ihproceed e' hothers hrest
        exact ⟨later, hlater, hdecides.concat hset⟩
      | skipChildren =>
        obtain ⟨later, hlater, hdecides⟩ := ihskip e' hothers hrest
        exact ⟨later, hlater, hdecides.concat hset⟩
      | _ =>
        cases hrest
        exact ⟨[], rfl, Decides.nil.concat hset⟩

/-! ## What is written -/

/-- What a visit writes for an element whose body was set, by the last answer of its processors, and
what was done `later` than these were called, in a context `c`. -/
def Shows (ev : Evaluator) (body : String) (c : Context) (emitted : Emitted) (later : List Deed) :
    Directive → Prop
  | .removeNode => emitted = {} ∧ later = []
  | .removeBody => (∃ e : Element, e.children = [] ∧ emitted = ⟨[e.toNode], none⟩) ∧ later = []
  | .replace _ =>
    if c.isInlining = true ∧ body ≠ "" then
      ∃ expanded, (Inline.expand? ev body (c.touch Context.inliningName)).1 = .ok expanded ∧
        emitted = ⟨[.ofText (expanded.getD body)], none⟩ ∧ later = [.expanded body]
    else emitted = ⟨bodyNodes body, none⟩ ∧ later = []
  | _ =>
    (∃ e : Element, e.children = bodyNodes body ∧ emitted = ⟨[e.toNode], none⟩) ∧ later = []

/-- Where the body is put in the place of the element, it is text like any other there. -/
theorem shows_bodyNodes {body : String} {visit : Element → Running Emitted} {t s : Run}
    {emitted : Emitted} (h : emitAll ev visit (bodyNodes body) t = .ok emitted s)
    (nodes : List Node) :
    ∃ later, s.deeds = later ++ t.deeds ∧
      Shows ev body t.context emitted later (.replace nodes) := by
  unfold bodyNodes at h
  split at h
  · next hempty =>
    cases h
    refine ⟨[], rfl, ?_⟩
    rw [Shows, if_neg fun hboth => hboth.2 hempty]
    exact ⟨by simp [bodyNodes, hempty], rfl⟩
  · next hne =>
    change Running.andThen (emitText ev body {}) (pure {}) t = _ at h
    rw [Running.andThen_run, emitText_run] at h
    by_cases hinlining : t.context.isInlining = true
    · simp only [hinlining, if_true] at h
      split at h
      · next hexpand =>
        split at hexpand
        · next hexpanded =>
          cases hexpand
          cases h
          refine ⟨[.expanded body], rfl, ?_⟩
          rw [Shows, if_pos ⟨hinlining, hne⟩]
          exact ⟨_, congrArg Prod.fst hexpanded, rfl, rfl⟩
        · cases hexpand
      · cases h
    · simp only [hinlining] at h
      cases h
      refine ⟨[], rfl, ?_⟩
      rw [Shows, if_neg fun hboth => hinlining hboth.1]
      exact ⟨by simp [bodyNodes, hne, Emitted.append, Node.ofText], rfl⟩

/-- The text that is set as the body of an element is written as it is, and no expression in it is
evaluated, whatever other processors are called for the element: but where one of them puts the
body in the place of the element, in a context in which text is expanded. -/
theorem shows_of_visit {entries pending : List Entry}
    (hpending : pending.Sublist registry.entries) {fuel : Nat} {e : Element} {r s : Run}
    {emitted : Emitted} (h : visit ev entries fuel pending e r = .ok emitted s) :
    ∃ outcome t new, settle ev pending true e { r with context := r.context.push } =
        .ok outcome t ∧ t.deeds = new ++ r.deeds ∧
      ∀ body ∈ lastBody? ev new, ∃ answer ∈ lastAnswer? new, ∃ later,
        s.deeds = later ++ t.deeds ∧ Shows ev body t.context emitted later answer := by
  cases fuel with
  | zero => cases h
  | succ fuel =>
    unfold visit Running.inScope at h
    split at h
    · next hrun =>
      cases h
      obtain ⟨outcome, t, hsettle, hrest⟩ := eq_ok_of_bind hrun
      obtain ⟨new, hnew, hdecides⟩ := decides_of_settle hpending hsettle
      refine ⟨outcome, t, new, hsettle, hnew, fun body hbody => ?_⟩
      obtain ⟨answer, hanswer, houtcome⟩ := hdecides body hbody
      refine ⟨answer, hanswer, ?_⟩
      unfold HasBody at houtcome
      split at houtcome
      · cases hrest
        exact ⟨[], rfl, rfl, rfl⟩
      · next e' =>
        cases hrest
        exact ⟨[], rfl, ⟨e', houtcome, rfl⟩, rfl⟩
      · next replaced nodes =>
        subst houtcome
        exact shows_bodyNodes hrest replaced
      · next e' =>
        cases hrest
        exact ⟨[], rfl, ⟨e', houtcome, rfl⟩, rfl⟩
      · next e' =>
        cases hrest
        exact ⟨[], rfl, ⟨e', houtcome, rfl⟩, rfl⟩
      · exact houtcome.elim
    · cases h

/-- Data that looks like an expression stays data, though text is expanded around it. -/
theorem shows_of_visit_text :
    let calling : Attribute := ⟨" ", "th:text", "=", some "${x}", .double, {}⟩
    let e : Element := ⟨{ name := "p", attributes := [calling] }, [], .explicit "</p>"⟩
    let c : Context :=
      { root := [("secret", .value (.string "S")), ("x", .value (.string "[[${secret}]]"))] }
    let run : Run := { context := c.setInlining true }
    ∃ outcome t emitted s answer later,
      settle .standard registry.entries true e { run with context := run.context.push } =
          .ok outcome t ∧
        t.context.isInlining = true ∧
        visit .standard registry.entries 1 registry.entries e run = .ok emitted s ∧
        answer ∈ lastAnswer? t.deeds ∧ s.deeds = later ++ t.deeds ∧
        Shows .standard "[[${secret}]]" t.context emitted later answer ∧
        (Document.mk emitted.nodes).render = "<p>[[${secret}]]</p>" := by
  intro calling e c run
  have hcheck : passes (fun _ t => t.context.isInlining &&
      lastBody? .standard t.deeds == some "[[${secret}]]")
      (settle .standard registry.entries true e { run with context := run.context.push }) =
        true := by
    decide +kernel
  have hvisit : passes (fun emitted _ =>
      (Document.mk emitted.nodes).render == "<p>[[${secret}]]</p>")
      (visit .standard registry.entries 1 registry.entries e run) = true := by
    decide +kernel
  obtain ⟨emitted, s, hrun, hrender⟩ := exists_of_passes hvisit
  obtain ⟨outcome, t, new, hsettle, hnew, hshows⟩ := shows_of_visit (List.Sublist.refl _) hrun
  rw [hsettle] at hcheck
  obtain ⟨hinlining, hlast⟩ := (Bool.and_eq_true _ _).mp hcheck
  obtain rfl : t.deeds = new := by simpa [run] using hnew
  obtain ⟨answer, hanswer, later, hlater, hshown⟩ := hshows _ (eq_of_beq hlast)
  exact ⟨outcome, t, emitted, s, answer, later, hsettle, hinlining, hrun, hanswer, hlater,
    hshown, eq_of_beq hrender⟩

/-- The body of a block is put in the place of the block, and the data is expanded there. -/
theorem processTemplate_text_block :
    let engine : Engine := ⟨{}, registry, .standard⟩
    let c : Context :=
      { root := [("secret", .value (.string "S")), ("x", .value (.string "[[${secret}]]"))] }
    ∃ d left, Registry.ofDialects [dialect] = .ok engine.registry ∧
      engine.parse "<div th:inline=\"text\"><th:block th:text=\"${x}\"></th:block></div>" =
        .ok d ∧
      (engine.evaluator.value c "${x}").bind Value.text = .ok "[[${secret}]]" ∧
      engine.processTemplate d c = (.ok "<div>S</div>", left) := by
  intro engine c
  have hcheck : (engine.parse
      "<div th:inline=\"text\"><th:block th:text=\"${x}\"></th:block></div>").toOption.any
      (fun d => (engine.processTemplate d c).1.toOption.any fun output =>
        output == "<div>S</div>") = true := by
    decide +kernel
  have hvalue : ((engine.evaluator.value c "${x}").bind Value.text).toOption.any
      (fun content => content == "[[${secret}]]") = true := by
    decide +kernel
  obtain ⟨d, hparse, hcheck⟩ := exists_of_any_toOption hcheck
  obtain ⟨output, houtput, hcheck⟩ := exists_of_any_toOption hcheck
  obtain ⟨content, hcontent, hvalue⟩ := exists_of_any_toOption hvalue
  obtain rfl := eq_of_beq hcheck
  obtain rfl := eq_of_beq hvalue
  exact ⟨d, _, ofDialects_dialect, hparse, hcontent, Prod.ext houtput rfl⟩

end Standard
end NaturalTemplate
