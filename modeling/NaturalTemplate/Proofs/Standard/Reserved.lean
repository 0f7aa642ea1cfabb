import NaturalTemplate.Proofs.Context.Agreement
import NaturalTemplate.Proofs.Expression.Evaluation
import NaturalTemplate.Proofs.Standard.Likeness

/-!
# What of the data can matter

The standard processors and the expressions of a template ask for the values of identifiers, and for
what is kept under the reserved names. Whatever else the data holds makes no difference to the
output. What is kept under the reserved names starts as the data has it, which is nothing at all
only where the data leaves these names alone.
-/
namespace NaturalTemplate
open Markup

namespace Standard

/-- The names that templates can ask for, or the engine for them. -/
def readableNames : Set String := { name | isIdentifier name = true ∨ name ∈ reservedNames }

theorem mem_readableNames_of_isReadable {name : String} (h : IsReadable name) :
    name ∈ readableNames := by
  obtain h | rfl := h
  · exact .inl h
  · exact .inr (by decide)

/-- Standard expressions cannot tell contexts apart that agree on the readable names. -/
theorem alikeContexts_agree : AlikeContexts .standard (Context.Agree readableNames) where
  value_eq {c d} h text := by
    have hsame : c.SameReadable d := fun name hname =>
      h.value?_eq (mem_readableNames_of_isReadable hname)
    simp only [Evaluator.standard, Expr.eval_congr hsame]
  evaluate {c d} h text := by
    have hsame : c.SameReadable d := fun name hname =>
      h.value?_eq (mem_readableNames_of_isReadable hname)
    have hreads : Evaluator.standard.reads d text = Evaluator.standard.reads c text :=
      Expr.reads_congr hsame _
    simp only [Evaluator.evaluate, hreads]
    exact h.touchAll fun name hname =>
      mem_readableNames_of_isReadable (Expr.isReadable_of_mem_reads hname)
  reserved h _ hname := h.value?_eq (.inr hname)
  touch h _ hname := h.touch (.inr hname)
  overwrite h _ hname v := h.overwrite (.inr hname) v
  setLocal h name v := h.bindInnermost name (.value v)
  push h := h.push
  pop h := h.pop

/-- The same template, with data that agrees on the readable names. -/
def sameTemplate : Likeness .standard :=
  sameElements (fun _ => Context.Agree readableNames)
    (fun _ => alikeContexts_agree.toAlikeScopes) fun _ => alikeContexts_agree.toAlikeBindings

end Standard

namespace Engine

variable {engine : Engine} {entries entries' : List (String × Value)}

theorem registry_eq (h : Registry.ofDialects [Standard.dialect] = .ok engine.registry) :
    engine.registry = Standard.registry :=
  (Except.ok.inj (Standard.ofDialects_dialect.symm.trans h)).symm

/-- Filling a template gives the same output or error in contexts that agree on the readable
names. -/
theorem processTemplate_of_agree
    (hregistry : Registry.ofDialects [Standard.dialect] = .ok engine.registry)
    (hevaluator : engine.evaluator = .standard) (d : Document) {b c : Context}
    (h : b.Agree Standard.readableNames c) :
    (engine.processTemplate d c).1 = (engine.processTemplate d b).1 := by
  have hemit := Standard.sameTemplate.emit_emit Standard.alikeContexts_agree.toAlikeBindings
    (Standard.forall₂_eq_iff.mpr (Eq.refl d.nodes)) { context := b } { context := c } h
  unfold processTemplate
  rw [registry_eq hregistry, hevaluator]
  generalize Standard.registry.emit .standard d.nodes { context := b } = result at hemit
  generalize Standard.registry.emit .standard d.nodes { context := c } = result' at hemit
  cases hemit with
  | ok h =>
    obtain ⟨⟨hnodes, hhalt⟩, -⟩ := h
    simp only [output, Standard.forall₂_eq_iff.mp hnodes, hhalt]
  | error failure => rfl

theorem find?_root (entries : List (String × Value)) (name : String) :
    Scope.find? name (entries.map fun (name, v) => (name, Binding.value v)) =
      (Value.find? name entries).map Binding.value := by
  induction entries with
  | nil => rfl
  | cons x entries ih =>
    obtain ⟨n, v⟩ := x
    rw [List.map_cons, Scope.find?_cons, ih]
    by_cases h : name = n
    · simp [Value.find?, h]
    · have hbeq : (name == n) = false := beq_false_of_ne h
      simp [Value.find?, List.lookup_cons, hbeq, h]

/-- The data of a context that has nothing but the entries of an object. -/
theorem value?_ofValue (entries : List (String × Value)) :
    ∃ c, Context.ofValue (.object entries) = .ok c ∧ c.scopes = [] ∧
      ∀ name, c.root.find? name = (Value.find? name entries).map Binding.value :=
  ⟨_, rfl, rfl, find?_root entries⟩

/-- Data that agrees on the identifiers and on the reserved names gives the same output or the same
error. What is kept under a reserved name starts as the data binds it, so nothing is selected, no
switch is around and text is not expanded unless the data says so. -/
theorem process_of_agree
    (hregistry : Registry.ofDialects [Standard.dialect] = .ok engine.registry)
    (hevaluator : engine.evaluator = .standard) (template : String)
    (hagree : ∀ name, isIdentifier name = true ∨ name ∈ Standard.reservedNames →
      Value.find? name entries' = Value.find? name entries) :
    (engine.process template (.object entries')).1 =
        (engine.process template (.object entries)).1 ∧
      ∃ c, Context.ofValue (.object entries) = .ok c ∧
        c.selection? = Value.find? Context.selectionName entries ∧
        c.value? Standard.switchName = Value.find? Standard.switchName entries ∧
        c.isInlining = (Value.find? Context.inliningName entries).any Value.isTruthy := by
  obtain ⟨c, hc, hscopes, hroot⟩ := value?_ofValue entries
  obtain ⟨c', hc', hscopes', hroot'⟩ := value?_ofValue entries'
  have hcontexts : c.Agree Standard.readableNames c' := by
    refine ⟨hscopes'.trans hscopes.symm, fun name hname => ?_⟩
    rw [hroot, hroot', hagree name hname]
  have hvalue (name : String) : c.value? name = Value.find? name entries := by
    simp only [Context.value?, Context.binding?, hscopes, List.nil_append, List.findSome?_cons,
      hroot]
    cases Value.find? name entries <;> rfl
  refine ⟨?_, c, hc, hvalue _, hvalue _, ?_⟩
  · unfold process fill
    rw [hc, hc']
    cases engine.parse template with
    | error e => rfl
    | ok d => exact processTemplate_of_agree hregistry hevaluator d hcontexts
  · rw [Context.isInlining, hvalue]
    cases Value.find? Context.inliningName entries <;> rfl

/-- Keys that are neither identifiers nor reserved do not matter. -/
theorem process_of_agree_keys :
    let engine : Engine := ⟨{}, Standard.registry, .standard⟩
    let entries : List (String × Value) := [("x", .string "1")]
    let entries' : List (String × Value) := [("#x", .bool true), ("a b", .null), ("x", .string "1")]
    let template := "<p th:title=\"${x}\">[[${x}]]</p>"
    Registry.ofDialects [Standard.dialect] = .ok engine.registry ∧
      (∀ name, isIdentifier name = true ∨ name ∈ Standard.reservedNames →
        Value.find? name entries' = Value.find? name entries) ∧
      (engine.process template (.object entries)).1 = .ok "<p title=\"1\">[[${x}]]</p>" ∧
      (engine.process template (.object entries')).1 = .ok "<p title=\"1\">[[${x}]]</p>" := by
  intro engine entries entries' template
  have hagree : ∀ name, isIdentifier name = true ∨ name ∈ Standard.reservedNames →
      Value.find? name entries' = Value.find? name entries := by
    intro name hname
    have hkeys : ∀ key ∈ ["#x", "a b"],
        ¬ (isIdentifier key = true ∨ key ∈ Standard.reservedNames) := by
      decide
    have hne : ∀ key ∈ ["#x", "a b"], name ≠ key := by
      rintro key hkey rfl
      exact hkeys _ hkey hname
    have hx := beq_false_of_ne (hne "#x" (by simp))
    have hab := beq_false_of_ne (hne "a b" (by simp))
    simp only [Value.find?, entries, entries', List.lookup_cons, hx, hab]
  have hcheck : (engine.process template (.object entries)).1.toOption.any
      (fun output => output == "<p title=\"1\">[[${x}]]</p>") = true := by
    decide +kernel
  obtain ⟨output, houtput, hcheck⟩ := exists_of_any_toOption hcheck
  obtain rfl := eq_of_beq hcheck
  have hregistry : Registry.ofDialects [Standard.dialect] = .ok engine.registry :=
    Standard.ofDialects_dialect
  have hevaluator : engine.evaluator = .standard := rfl
  obtain ⟨hsame, -⟩ := process_of_agree hregistry hevaluator template hagree
  exact ⟨hregistry, hagree, houtput, hsame.trans houtput⟩

/-- A reserved name in the data turns the expansion of text on. -/
theorem process_inline_key :
    let engine : Engine := ⟨{}, Standard.registry, .standard⟩
    let entries : List (String × Value) := [("x", .string "1")]
    let entries' : List (String × Value) := [("#inline", .bool true), ("x", .string "1")]
    Registry.ofDialects [Standard.dialect] = .ok engine.registry ∧
      (∀ name, isIdentifier name = true → Value.find? name entries' = Value.find? name entries) ∧
      (engine.process "<p>[[${x}]]</p>" (.object entries)).1 = .ok "<p>[[${x}]]</p>" ∧
      (engine.process "<p>[[${x}]]</p>" (.object entries')).1 = .ok "<p>1</p>" := by
  intro engine entries entries'
  have hcheck : (engine.process "<p>[[${x}]]</p>" (.object entries)).1.toOption.any
      (fun output => output == "<p>[[${x}]]</p>") = true := by
    decide +kernel
  have hcheck' : (engine.process "<p>[[${x}]]</p>" (.object entries')).1.toOption.any
      (fun output => output == "<p>1</p>") = true := by
    decide +kernel
  obtain ⟨output, houtput, hcheck⟩ := exists_of_any_toOption hcheck
  obtain ⟨output', houtput', hcheck'⟩ := exists_of_any_toOption hcheck'
  obtain rfl := eq_of_beq hcheck
  obtain rfl := eq_of_beq hcheck'
  refine ⟨Standard.ofDialects_dialect, fun name hname => ?_, houtput, houtput'⟩
  have hne : name ≠ "#inline" := by
    rintro rfl
    exact absurd hname (by decide)
  simp only [Value.find?, entries, entries', List.lookup_cons, beq_false_of_ne hne]

end Engine
end NaturalTemplate
