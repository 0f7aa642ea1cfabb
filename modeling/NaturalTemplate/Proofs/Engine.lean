import NaturalTemplate.Engine
import NaturalTemplate.Proofs.Processing.Output

/-!
# Engines and markup from outside

What a strict engine with the standard dialect makes of a tame template is markup of the same shape
as the nodes that were produced: no value can open, close or change an element or an attribute.
-/
namespace NaturalTemplate.Engine
open Markup

variable {engine : Engine} {template output : String} {d : Document} {c left : Context}

theorem parse_of_strict (hmode : engine.config.mode = .strict) (s : String) :
    engine.parse s =
      match Markup.parse { mode := .strict, comments := engine.config.comments } s with
      | .ok d => .ok d
      | .error e => .error (.parse e) := by
  rw [← hmode]
  rfl

/-- A tame template that was parsed is safe to process. -/
theorem isSafe_of_parse (hmode : engine.config.mode = .strict)
    (hparse : engine.parse template = .ok d)
    (htame : Node.EverywhereIn (Standard.IsTameNode Standard.IsAssignable) d.nodes) :
    Node.EverywhereIn (Standard.IsSafeNode engine.config.comments) d.nodes := by
  rw [parse_of_strict hmode] at hparse
  split at hparse
  · next hok =>
    cases hparse
    intro n hn
    exact (isStrict_of_parse hok n hn).and (htame n hn)
  · cases hparse

theorem exists_of_processTemplate (h : engine.processTemplate d c = (.ok output, left)) :
    ∃ emitted s, engine.registry.emit engine.evaluator d.nodes { context := c } = .ok emitted s ∧
      (emitted.halt = none → output = (Document.mk emitted.nodes).render) := by
  unfold processTemplate at h
  split at h
  · next emitted s hemit =>
    refine ⟨emitted, s, hemit, fun hhalt => ?_⟩
    simp only [Engine.output, hhalt, Prod.mk.injEq, Except.ok.injEq] at h
    exact h.1.symm
  · cases h

/-- The output for a tame template is parsed to the nodes that were produced, with texts joined. -/
theorem parse_output (hregistry : Registry.ofDialects [Standard.dialect] = .ok engine.registry)
    (hmode : engine.config.mode = .strict) (hparse : engine.parse template = .ok d)
    (htame : Node.EverywhereIn (Standard.IsTameNode Standard.IsAssignable) d.nodes)
    (hinlining : c.isInlining = false)
    (hprocess : engine.processTemplate d c = (.ok output, left)) :
    ∃ emitted s again,
      engine.registry.emit engine.evaluator d.nodes { context := c } = .ok emitted s ∧
        output = (Document.mk emitted.nodes).render ∧ engine.parse output = .ok again ∧
        Node.unplacedAll again.nodes = Node.unplacedAll (Node.joinedAll emitted.nodes) := by
  obtain ⟨emitted, s, hemit, houtput⟩ := exists_of_processTemplate hprocess
  have hsafe := isSafe_of_parse hmode hparse htame
  obtain ⟨hlegible, hhalt⟩ := Standard.yields_emit (Standard.mem_entries_of_ofDialects hregistry)
    hsafe { context := c } emitted s hinlining hemit
  obtain ⟨again, hagain, hnodes⟩ := Node.parse_render hlegible
  refine ⟨emitted, s, again, hemit, houtput hhalt, ?_, hnodes⟩
  rw [parse_of_strict hmode, houtput hhalt, hagain]

/-- A value that is full of marks stays text and the value of an attribute. -/
theorem parse_output_marks :
    let engine : Engine := ⟨{ mode := .strict }, Standard.registry, .standard⟩
    let c : Context := { root := [("x", .value (.string "\"</p>"))] }
    ∃ d output left emitted s again,
      Registry.ofDialects [Standard.dialect] = .ok engine.registry ∧
        engine.parse "<p th:text=\"${x}\" th:attr=\"title=${x}\">a<br></p>" = .ok d ∧
        Node.EverywhereIn (Standard.IsTameNode Standard.IsAssignable) d.nodes ∧
        c.isInlining = false ∧ engine.processTemplate d c = (.ok output, left) ∧
        output = "<p title=\"&quot;&lt;/p&gt;\">&quot;&lt;/p&gt;</p>" ∧
        engine.registry.emit engine.evaluator d.nodes { context := c } = .ok emitted s ∧
        engine.parse output = .ok again ∧
        Node.unplacedAll again.nodes = Node.unplacedAll (Node.joinedAll emitted.nodes) := by
  intro engine c
  have hcheck : (engine.parse "<p th:text=\"${x}\" th:attr=\"title=${x}\">a<br></p>").toOption.any
      (fun d => decide (Node.EverywhereIn (Standard.IsTameNode Standard.IsAssignable) d.nodes) &&
        (engine.processTemplate d c).1.toOption.any fun output =>
          output == "<p title=\"&quot;&lt;/p&gt;\">&quot;&lt;/p&gt;</p>") = true := by
    decide +kernel
  obtain ⟨d, hparse, hcheck⟩ := exists_of_any_toOption hcheck
  obtain ⟨htame, hcheck⟩ := (Bool.and_eq_true _ _).mp hcheck
  obtain ⟨output, houtput, hcheck⟩ := exists_of_any_toOption hcheck
  have htame := of_decide_eq_true htame
  have hinlining : c.isInlining = false := rfl
  have hprocess : engine.processTemplate d c = (.ok output, _) := Prod.ext houtput rfl
  obtain ⟨emitted, s, again, hemit, -, hagain, hnodes⟩ :=
    parse_output Standard.ofDialects_dialect rfl hparse htame hinlining hprocess
  exact ⟨d, output, _, emitted, s, again, Standard.ofDialects_dialect, hparse, htame, hinlining,
    hprocess, eq_of_beq hcheck, hemit, hagain, hnodes⟩

/-- Assigning to an attribute that asks for unescaped text lets markup in. -/
theorem parse_output_utext :
    let engine : Engine := ⟨{ mode := .strict }, Standard.registry, .standard⟩
    let c : Context := { root := [("x", .value (.string "'<b>'"))] }
    ∃ d output left,
      Registry.ofDialects [Standard.dialect] = .ok engine.registry ∧
        engine.parse "<p th:attr=\"th:utext=${x}\"></p>" = .ok d ∧
        Node.EverywhereIn (Standard.IsTameNode fun _ name => IsAttributeName name) d.nodes ∧
        c.isInlining = false ∧ engine.processTemplate d c = (.ok output, left) ∧
        ∀ again, engine.parse output ≠ .ok again := by
  intro engine c
  have hcheck : (engine.parse "<p th:attr=\"th:utext=${x}\"></p>").toOption.any
      (fun d =>
        decide
            (Node.EverywhereIn (Standard.IsTameNode fun _ name => IsAttributeName name) d.nodes) &&
          (engine.processTemplate d c).1.toOption.any fun output =>
            (engine.parse output).toOption.isNone) = true := by
    decide +kernel
  obtain ⟨d, hparse, hcheck⟩ := exists_of_any_toOption hcheck
  obtain ⟨htame, hcheck⟩ := (Bool.and_eq_true _ _).mp hcheck
  obtain ⟨output, houtput, hcheck⟩ := exists_of_any_toOption hcheck
  refine ⟨d, output, _, Standard.ofDialects_dialect, hparse, of_decide_eq_true htame, rfl,
    Prod.ext houtput rfl, ?_⟩
  intro again hagain
  rw [hagain] at hcheck
  exact Bool.false_ne_true hcheck

end NaturalTemplate.Engine
