import NaturalTemplate.Proofs.Markup.Setting
import NaturalTemplate.Proofs.Standard.Body
import NaturalTemplate.Proofs.Standard.Writes
import NaturalTemplate.Proofs.Text.References

/-!
# Text joined to attributes

Text that is added to the value of an attribute stands in front of it or behind it, escaped. What
was there is read and written again. This only respells the references that are known, and it makes
text of every other one.
-/
namespace NaturalTemplate
open Markup

/-! ## Attributes by name -/

namespace Markup

theorem Attribute.isNamed_congr {name other : String} (h : Text.sameName name other = true)
    (a : Attribute) : a.isNamed name = a.isNamed other :=
  Bool.eq_iff_iff.mpr ⟨fun hname => Text.sameName_trans hname h,
    fun hother => Text.sameName_trans hother (Text.sameName_symm h)⟩

theorem Attribute.find?_set_of_sameName_eq_false {name other : String}
    (h : Text.sameName name other = false) (value : String) (attributes : List Attribute) :
    (Attribute.set name value attributes).find? (·.isNamed other) =
      attributes.find? (·.isNamed other) := by
  have hother {a : Attribute} (hname : a.isNamed name = true) : a.isNamed other = false := by
    by_contra hcontra
    rw [Bool.not_eq_false] at hcontra
    rw [Text.sameName_trans (Text.sameName_symm hname) hcontra] at h
    contradiction
  induction attributes with
  | nil => simp [Attribute.set, hother (Attribute.make_isNamed name value)]
  | cons a attributes ih =>
    cases hname : a.isNamed name with
    | true =>
      have hset : (a.setValue value).isNamed other = false := hother hname
      simp [Attribute.set, hname, hset, hother hname]
    | false => simp [Attribute.set, hname, List.find?_cons, ih]

theorem Element.attributeValue?_congr {name other : String} (h : Text.sameName name other = true)
    (e : Element) : e.attributeValue? name = e.attributeValue? other := by
  have hnamed : (fun a : Attribute => a.isNamed name) = (·.isNamed other) :=
    funext (Attribute.isNamed_congr h)
  rw [Element.attributeValue?, Element.attribute?, hnamed]
  rfl

/-- An attribute that is set has the value, and the others have theirs. -/
theorem Element.attributeValue?_setAttribute (e : Element) (name value other : String) :
    (e.setAttribute name value).attributeValue? other =
      if Text.sameName name other = true then some value else e.attributeValue? other := by
  split
  · next h =>
    obtain ⟨a, hfind, hvalue⟩ := Attribute.exists_find?_set name value e.attributes
    rw [← Element.attributeValue?_congr h, Element.attributeValue?, Element.attribute?,
      Element.setAttribute, Element.attributes_withAttributes, hfind, Option.map_some,
      Attribute.rawValue, hvalue, Option.getD_some]
  · next h =>
    rw [Bool.not_eq_true] at h
    rw [Element.attributeValue?, Element.attribute?, Element.setAttribute,
      Element.attributes_withAttributes, Attribute.find?_set_of_sameName_eq_false h]
    rfl

end Markup

namespace Standard

theorem existing_eq (name : String) (e : Element) :
    existing name e = Text.unescape ((e.attributeValue? name).getD "") := by
  rw [existing, Element.attributeValue?]
  cases e.attribute? name <;> rfl

/-! ## Joining -/

/-- Where text is added to a value. -/
inductive Side where
  | front
  | back
deriving DecidableEq, Repr

namespace Side

/-- Adds text to a value. -/
def join : Side → String → String → String
  | front, before, extra => extra ++ before
  | back, before, extra => before ++ extra

/-- The name of the processor that adds text there. -/
def processorName : Side → String
  | front => "attrprepend"
  | back => "attrappend"

theorem join_left_injective (side : Side) {s t : String} (extra : String)
    (h : side.join s extra = side.join t extra) : s = t := by
  cases side with
  | front => exact (String.append_right_inj extra).mp h
  | back => exact (String.append_left_inj extra).mp h

theorem escape_join (side : Side) (s extra : String) :
    Text.escape (side.join s extra) = side.join (Text.escape s) (Text.escape extra) := by
  cases side <;> exact Text.escape_append _ _

/-- Texts may be escaped before they are joined to a value or after. -/
theorem escape_foldl_join (side : Side) (xs : List String) (s : String) :
    Text.escape (xs.foldl side.join s) = (xs.map Text.escape).foldl side.join (Text.escape s) := by
  induction xs generalizing s with
  | nil => rfl
  | cons x xs ih => rw [List.foldl_cons, ih, escape_join, List.map_cons, List.foldl_cons]

theorem foldl_join_injective (side : Side) (xs : List String) {s t : String}
    (h : xs.foldl side.join s = xs.foldl side.join t) : s = t := by
  induction xs generalizing s t with
  | nil => exact h
  | cons x xs ih => exact side.join_left_injective x (ih h)

end Side

theorem run_of_name_join {side : Side} {p : Processor} (hp : p ∈ processors)
    (hname : p.name = side.processorName) : p.run = joinAttributes side.join := by
  cases side with
  | front =>
    have hmem : .forAttribute "attrprepend" 800
        (joinAttributes fun before extra => extra ++ before) ∈ processors := by
      simp [processors]
    exact run_of_name hp hmem hname
  | back =>
    have hmem : .forAttribute "attrappend" 900
        (joinAttributes fun before extra => before ++ extra) ∈ processors := by
      simp [processors]
    exact run_of_name hp hmem hname

/-- The texts that are assigned in a context, expression by expression, and the context left. -/
inductive Assigns (ev : Evaluator) :
    Context → List (String × String) → List (String × String) → Context → Prop
  | nil (c : Context) : Assigns ev c [] [] c
  | cons {c c' : Context} {name expression text : String} {assigned texts : List (String × String)}
      (htext : (ev.value c expression).bind Value.text = .ok text)
      (hrest : Assigns ev (ev.evaluate expression c).2 assigned texts c') :
      Assigns ev c ((name, expression) :: assigned) ((name, text) :: texts) c'

/-- An element with one more text joined to an attribute. -/
def joinTo (side : Side) (e : Element) (added : String × String) : Element :=
  if added.2 ≠ "" then
    e.setAttribute added.1 (Text.escape (side.join (existing added.1 e) added.2))
  else e

theorem evaluate_bind_text {call : Call} {c : Context} {expression text : String}
    (h : (call.evaluator.value c expression).bind Value.text = .ok text) {α : Type}
    (f : String → Work α) (e : Element) :
    (call.evaluate expression >>= fun v => Work.text v >>= f) ⟨e, c⟩ =
      f text ⟨e, (call.evaluator.evaluate expression c).2⟩ := by
  have hevaluate : call.evaluate expression ⟨e, c⟩ =
      Work.ofExcept (call.evaluator.value c expression)
        ⟨e, (call.evaluator.evaluate expression c).2⟩ := rfl
  cases hvalue : call.evaluator.value c expression with
  | error cause =>
    rw [hvalue] at h
    contradiction
  | ok v =>
    have htext : v.text = .ok text := by simpa [hvalue, Except.bind] using h
    rw [hvalue] at hevaluate
    rw [bind_of_eq_ok hevaluate, Work.text, htext]
    rfl

theorem joinAll_eq_ok {side : Side} {call : Call} {c c' : Context}
    {assigned texts : List (String × String)} (h : Assigns call.evaluator c assigned texts c')
    (e : Element) :
    joinAll side.join call assigned ⟨e, c⟩ = .ok () ⟨texts.foldl (joinTo side) e, c'⟩ := by
  induction h generalizing e with
  | nil c => rfl
  | cons htext hrest ih =>
    rw [joinAll, evaluate_bind_text htext, List.foldl_cons, joinTo]
    split
    · exact ih _
    · exact ih e

theorem joinAttributes_eq_ok {side : Side} {call : Call} {w : Workspace} {c' : Context}
    {assigned texts : List (String × String)} (hassigned : assignments call.value = .ok assigned)
    (h : Assigns call.evaluator w.context assigned texts c') :
    joinAttributes side.join call w =
      .ok .proceed ⟨texts.foldl (joinTo side) w.element, c'⟩ := by
  have hread : Work.ofExcept (assignments call.value) w = .ok assigned w := by
    rw [hassigned]
    rfl
  rw [joinAttributes, bind_of_eq_ok hread, bind_of_eq_ok (joinAll_eq_ok h w.element)]
  rfl

/-! ## What is written -/

/-- The texts that are joined to an attribute. -/
def addedTo (name : String) (texts : List (String × String)) : List String :=
  (texts.filter fun t => Text.sameName t.1 name && t.2 != "").map Prod.snd

theorem attributeValue?_joinTo (side : Side) (e : Element) (added : String × String)
    (name : String) :
    (joinTo side e added).attributeValue? name =
      if (Text.sameName added.1 name && added.2 != "") = true then
        some (Text.escape
          (side.join (Text.unescape ((e.attributeValue? name).getD "")) added.2))
      else e.attributeValue? name := by
  rw [joinTo]
  by_cases hempty : added.2 = ""
  · simp [hempty]
  rw [if_pos hempty, Element.attributeValue?_setAttribute, existing_eq]
  cases hname : Text.sameName added.1 name with
  | true => simp [hempty, Element.attributeValue?_congr hname]
  | false => simp

/-- The value of an attribute stays if there is nothing to add. Else it is the text that it stood
for with all the texts joined to it, escaped. -/
theorem attributeValue?_foldl_joinTo (side : Side) (texts : List (String × String)) (e : Element)
    (name : String) :
    (texts.foldl (joinTo side) e).attributeValue? name =
      if addedTo name texts = [] then e.attributeValue? name
      else some (Text.escape ((addedTo name texts).foldl side.join
        (Text.unescape ((e.attributeValue? name).getD "")))) := by
  induction texts generalizing e with
  | nil => rfl
  | cons added texts ih =>
    rw [List.foldl_cons, ih, attributeValue?_joinTo]
    cases hadded : Text.sameName added.1 name && added.2 != "" with
    | false =>
      have hsame : addedTo name (added :: texts) = addedTo name texts := by
        rw [addedTo, List.filter_cons_of_neg (by simp [hadded]), addedTo]
      rw [hsame]
      rfl
    | true =>
      have hmore : addedTo name (added :: texts) = added.2 :: addedTo name texts := by
        simp [addedTo, hadded]
      rw [if_pos rfl, hmore, if_neg (List.cons_ne_nil _ _), Option.getD_some, Text.unescape_escape,
        List.foldl_cons]
      split
      · next hnone => rw [hnone, List.foldl_nil]
      · rfl

/-- Joining text to the attributes of an element leaves those that it adds nothing to. The value of
every other attribute is what it was, read and written again, with the added texts escaped in front
of it or behind it. What the value stood for is still there, but what was written is only respelled
if all references in it are known. -/
theorem run_joins {side : Side} {p : Processor} (hp : p ∈ processors)
    (hname : p.name = side.processorName) {call : Call} {w : Workspace} {c' : Context}
    {assigned texts : List (String × String)} (hassigned : assignments call.value = .ok assigned)
    (htexts : Assigns call.evaluator w.context assigned texts c') :
    ∃ e', p.run call w = .ok .proceed ⟨e', c'⟩ ∧
      ∀ name ps, (∀ q ∈ ps, q.IsProper) →
        w.element.attributeValue? name = some (Text.Glyph.text ps) →
        let added := addedTo name texts
        (added = [] → e'.attributeValue? name = some (Text.Glyph.text ps)) ∧
          (added ≠ [] → ∃ raw, e'.attributeValue? name = some raw ∧
            raw = (added.map Text.escape).foldl side.join
              (String.ofList (ps.flatMap Text.Glyph.rewritten)) ∧
            Text.unescape raw = added.foldl side.join (Text.unescape (Text.Glyph.text ps)) ∧
            ((∃ qs, List.Forall₂ Text.Glyph.Respells ps qs ∧
                raw = (added.map Text.escape).foldl side.join (Text.Glyph.text qs)) ↔
              ∀ q ∈ ps, q.IsKnown)) := by
  rw [run_of_name_join hp hname]
  refine ⟨_, joinAttributes_eq_ok hassigned htexts, ?_⟩
  intro name ps hps hvalue added
  rw [attributeValue?_foldl_joinTo, hvalue, Option.getD_some]
  refine ⟨fun hnone => if_pos hnone, fun hsome => ⟨_, if_neg hsome, ?_, Text.unescape_escape _, ?_⟩⟩
  · rw [Side.escape_foldl_join, Text.Glyph.escape_unescape_text hps]
  · rw [Side.escape_foldl_join, Text.Glyph.escape_unescape_text hps,
      ← Text.Glyph.exists_respells_iff hps]
    refine exists_congr fun qs => and_congr_right fun _ => ⟨fun heq => ?_, fun heq => ?_⟩
    · exact String.ofList_injective (side.foldl_join_injective _ heq)
    · rw [Text.Glyph.text, heq]

/-- A reference that is known is respelled where text is added behind it. -/
theorem run_joins_known :
    let p : Processor :=
      .forAttribute "attrappend" 900 (joinAttributes fun before extra => before ++ extra)
    let call : Call := ⟨.standard, some (.make "th:attrappend" "title=${x}")⟩
    let title : Attribute := .make "title" "a&apos;"
    let e : Element := ⟨{ name := "p", attributes := [title] }, [], .explicit "</p>"⟩
    let c : Context := { root := [("x", .value (.string "<"))] }
    let glyphs : List Text.Glyph := [.plain 'a', .reference "apos".toList]
    p ∈ processors ∧ p.name = Side.back.processorName ∧
      assignments call.value = .ok [("title", "${x}")] ∧
      (∃ c', Assigns .standard c [("title", "${x}")] [("title", "<")] c') ∧
      (∀ q ∈ glyphs, q.IsProper) ∧
      e.attributeValue? "title" = some (Text.Glyph.text glyphs) ∧
      ∃ e' w', p.run call ⟨e, c⟩ = .ok .proceed w' ∧ w'.element = e' ∧
        e'.attributeValue? "title" = some "a&#39;&lt;" := by
  intro p call title e c glyphs
  have hp : p ∈ processors := by simp [p, processors]
  have hname : p.name = Side.back.processorName := rfl
  have hassigned : assignments call.value = .ok [("title", "${x}")] := by decide +kernel
  have hcheck : ((Evaluator.standard.value c "${x}").bind Value.text).toOption.any
      (fun text => text == "<") = true := by
    decide +kernel
  obtain ⟨text, hvalue, hcheck⟩ := exists_of_any_toOption hcheck
  obtain rfl := eq_of_beq hcheck
  have htexts : Assigns .standard c [("title", "${x}")] [("title", "<")] _ :=
    .cons hvalue (.nil _)
  have hglyphs : ∀ q ∈ glyphs, q.IsProper := by decide
  have htitle : e.attributeValue? "title" = some (Text.Glyph.text glyphs) := by decide +kernel
  obtain ⟨e', hrun, hjoined⟩ := run_joins (w := ⟨e, c⟩) hp hname hassigned htexts
  have hadded : addedTo "title" [("title", "<")] ≠ [] := by decide +kernel
  obtain ⟨raw, hraw, hvalue, -, -⟩ := (hjoined "title" glyphs hglyphs htitle).2 hadded
  have hwritten : raw = "a&#39;&lt;" := by
    rw [hvalue]
    decide +kernel
  exact ⟨hp, hname, hassigned, ⟨_, htexts⟩, hglyphs, htitle, e', _, hrun, rfl,
    hraw.trans (congrArg some hwritten)⟩

/-- An attribute with a reference that is not known does not keep it when text is added. -/
theorem processTemplate_join_unknown :
    let engine : Engine := ⟨{}, registry, .standard⟩
    let c : Context := { root := [("x", .value (.string "c"))] }
    let glyphs : List Text.Glyph := [.plain 'a', .reference "nbsp".toList, .plain 'b']
    ∃ d left, Registry.ofDialects [dialect] = .ok engine.registry ∧
      (∀ q ∈ glyphs, q.IsProper) ∧ Text.Glyph.text glyphs = "a&nbsp;b" ∧
      (engine.evaluator.value c "${x}").bind Value.text = .ok "c" ∧
      engine.parse "<p title=\"a&nbsp;b\" th:attrappend=\"title=${x}\"></p>" = .ok d ∧
      engine.processTemplate d c = (.ok "<p title=\"a&amp;nbsp;bc\"></p>", left) ∧
      ¬ ∃ qs, List.Forall₂ Text.Glyph.Respells glyphs qs ∧
        "a&amp;nbsp;bc" = Text.Glyph.text qs ++ Text.escape "c" := by
  intro engine c glyphs
  have hcheck : (engine.parse
      "<p title=\"a&nbsp;b\" th:attrappend=\"title=${x}\"></p>").toOption.any
      (fun d => (engine.processTemplate d c).1.toOption.any fun output =>
        output == "<p title=\"a&amp;nbsp;bc\"></p>") = true := by
    decide +kernel
  have hvalue : ((engine.evaluator.value c "${x}").bind Value.text).toOption.any
      (fun text => text == "c") = true := by
    decide +kernel
  obtain ⟨d, hparse, hcheck⟩ := exists_of_any_toOption hcheck
  obtain ⟨output, houtput, hcheck⟩ := exists_of_any_toOption hcheck
  obtain ⟨text, htext, hvalue⟩ := exists_of_any_toOption hvalue
  obtain rfl := eq_of_beq hcheck
  obtain rfl := eq_of_beq hvalue
  have hglyphs : ∀ q ∈ glyphs, q.IsProper := by decide
  refine ⟨d, _, ofDialects_dialect, hglyphs, rfl, htext, hparse, Prod.ext houtput rfl, ?_⟩
  rintro ⟨qs, hrespells, hraw⟩
  have hrewritten : glyphs.flatMap Text.Glyph.rewritten = qs.flatMap Text.Glyph.written := by
    have hjoined : String.ofList (glyphs.flatMap Text.Glyph.rewritten) ++ Text.escape "c" =
        Text.Glyph.text qs ++ Text.escape "c" := hraw
    exact String.ofList_injective ((String.append_left_inj _).mp hjoined)
  have hknown := (Text.Glyph.exists_respells_iff hglyphs).mp ⟨qs, hrespells, hrewritten⟩
  exact absurd (hknown (.reference "nbsp".toList) (by simp [glyphs])) (by decide)

end Standard
end NaturalTemplate
