import NaturalTemplate.Markup.Element
import NaturalTemplate.Proofs.Markup.Built

/-!
# How elements end

An element that is not void closes itself, or has an end tag with its name, or is closed by what
comes after it. However it is changed, it has children only in the last two cases, and the end tag
that it has then stays as it is.
-/
namespace NaturalTemplate.Markup

/-- A change that is made to an element. -/
inductive Edit where
  | setAttribute (name value : String)
  | removeAttribute (name : String)
  | appendChild (n : Node)
  | setChildren (children : List Node)
  | setText (content : String)

def Edit.apply (e : Element) : Edit → Element
  | setAttribute name value => e.setAttribute name value
  | removeAttribute name => e.removeAttribute name
  | appendChild n => e.appendChild n
  | setChildren children => e.setChildren children
  | setText content => e.setText content

/-- Where an element comes from: it is made, or it stands in a document that was parsed. -/
inductive Element.Arises : Element → Prop where
  | made (name : String) : Arises (.make name)
  | parsed {options : Options} {s : Source} {d : Document} {e : Element}
    (h : parseSource options s = .ok d) (he : e ∈ d.elements) : Arises e

namespace Element

/-- Whether the parts of an element go together that say how it ends. -/
structure EndsWell (e : Element) : Prop where
  selfClosing_iff : e.tag.selfClosing = true ↔ e.endTag = .void
  children_eq_nil (h : e.endTag = .void) : e.children = []
  closesNamed {raw : String} (h : e.endTag = .explicit raw) : ClosesNamed e.name raw

theorem closesNamed_endTag (name : String) : ClosesNamed name ("</" ++ name ++ ">") :=
  ⟨name, ⟨"", by simp⟩, Text.sameName_refl name⟩

theorem EndsWell.make {name : String} (hvoid : isVoid name = false) : (make name).EndsWell := by
  have hend : (Element.make name).endTag = .explicit ("</" ++ name ++ ">") := by
    simp [Element.make, hvoid]
  refine ⟨by simp [Element.make, hvoid], fun h => ?_, fun h => ?_⟩
  · rw [hend] at h
    contradiction
  · rw [hend] at h
    cases h
    exact closesNamed_endTag name

theorem EndsWell.of_isBuilt {mode : Mode} {e : Element} (h : e.toNode.IsBuilt mode)
    (hvoid : isVoid e.name = false) : e.EndsWell := by
  obtain ⟨tag, children, endTag⟩ := e
  have hopen : isVoid tag.name = false := hvoid
  obtain ⟨-, hcloses⟩ := h
  cases hself : tag.selfClosing with
  | true =>
    rw [hself, Bool.true_or, if_pos rfl] at hcloses
    obtain ⟨rfl, rfl⟩ := hcloses
    exact ⟨by simp [hself], fun _ => rfl, by simp⟩
  | false =>
    rw [hself, Bool.false_or, hopen, if_neg Bool.false_ne_true] at hcloses
    cases endTag with
    | explicit raw =>
      refine ⟨by simp [hself], by simp, fun h => ?_⟩
      cases h
      exact hcloses
    | implicit => exact ⟨by simp [hself], by simp, by simp⟩
    | void => exact hcloses.elim

theorem Arises.endsWell {e : Element} (h : e.Arises) (hvoid : isVoid e.name = false) :
    e.EndsWell := by
  cases h with
  | made name => exact .make hvoid
  | parsed hparse he => exact .of_isBuilt (isBuilt_of_parseSource hparse he) hvoid

/-! ## What changes leave -/

/-- What is left when an element is changed: it keeps its name, and the end tag that it has, if it
has one or needs none. -/
structure Continues (e e' : Element) : Prop where
  name : e'.name = e.name
  endTag (h : e.endTag ≠ .void) : e'.endTag = e.endTag
  implicit (h : e'.endTag = .implicit) : e.endTag = .implicit
  endsWell (hvoid : isVoid e.name = false) (h : e.EndsWell) : e'.EndsWell

namespace Continues

variable {e e' e'' : Element}

theorem refl (e : Element) : Continues e e := ⟨rfl, fun _ => rfl, id, fun _ => id⟩

theorem trans (h : Continues e e') (h' : Continues e' e'') : Continues e e'' where
  name := h'.name.trans h.name
  endTag hend := by
    have hsame := h.endTag hend
    rw [h'.endTag (hsame ▸ hend), hsame]
  implicit hend := h.implicit (h'.implicit hend)
  endsWell hvoid he := h'.endsWell (by rwa [h.name]) (h.endsWell hvoid he)

theorem withAttributes (e : Element) (attributes : List Attribute) :
    Continues e (e.withAttributes attributes) :=
  ⟨rfl, fun _ => rfl, id, fun _ h => ⟨h.selfClosing_iff, h.children_eq_nil, h.closesNamed⟩⟩

/-- The children can be exchanged, if none come where there were none. -/
theorem withChildren {children : List Node} (h : e.children = [] → children = []) :
    Continues e { e with children } :=
  ⟨rfl, fun _ => rfl, id, fun _ he =>
    ⟨he.selfClosing_iff, fun hend => h (he.children_eq_nil hend), he.closesNamed⟩⟩

/-- Once there is room for children, there can be any. -/
theorem openBody_with (e : Element) (children : List Node) :
    Continues e { e.openBody with children } := by
  unfold openBody
  split
  · next hopens =>
    refine ⟨rfl, fun hend => absurd hopens.1 hend, by simp, fun _ _ => ⟨by simp, by simp, ?_⟩⟩
    intro raw hraw
    cases hraw
    exact closesNamed_endTag e.name
  · next hstays =>
    refine ⟨rfl, fun _ => rfl, id, fun hvoid he =>
      ⟨he.selfClosing_iff, fun hend => ?_, he.closesNamed⟩⟩
    exact absurd ⟨hend, by simp [hvoid]⟩ hstays

theorem setChildren (e : Element) (children : List Node) :
    Continues e (e.setChildren children) := by
  unfold Element.setChildren
  split
  · next hempty => exact .withChildren fun _ => List.isEmpty_iff.mp hempty
  · exact .openBody_with e children

theorem apply (e : Element) (x : Edit) : Continues e (x.apply e) := by
  cases x with
  | setAttribute | removeAttribute => exact .withAttributes e _
  | appendChild n => exact .openBody_with e (e.openBody.children ++ [n])
  | setChildren | setText => exact .setChildren e _

end Continues

/-- Nothing is written behind a start tag that closes itself. -/
theorem EndsWell.render_eq {e : Element} (h : e.EndsWell) (hself : e.tag.selfClosing = true) :
    e.toNode.render = e.tag.render := by
  have hend := h.selfClosing_iff.mp hself
  simp [toNode, Node.render, Node.renderAll, h.children_eq_nil hend, hend, EndTag.render]

end Element
end NaturalTemplate.Markup
