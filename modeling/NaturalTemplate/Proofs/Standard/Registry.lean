import Mathlib.Data.List.Chain
import Mathlib.Data.List.Nodup
import NaturalTemplate.Proofs.Processor.Registry
import NaturalTemplate.Standard.Dialect

/-!
# The registry of the standard dialect

Registering sorts processors by their precedence. Those of the standard dialect are listed in the
order in which they are called already, and no two of them are in conflict.
-/
namespace NaturalTemplate

namespace Registry

/-- Processors that are in order already stay where they are. -/
theorem sort_of_isChain {entries : List Entry}
    (h : entries.IsChain fun a b => a.mayPrecede b = true) : sort entries = entries := by
  induction entries with
  | nil => rfl
  | cons a entries ih =>
    have hrest := ih h.tail
    rw [sort, List.foldr_cons, ← sort, hrest]
    cases entries with
    | nil => rfl
    | cons b entries =>
      rw [insert, if_pos (List.isChain_cons_cons.mp h).1]

end Registry

namespace Standard

/-- The processors of the dialect one by one, by their names, what calls for them and what they do.
Those that write one attribute, or one without a value, are of one kind each. -/
inductive IsStandard : String → Rule → (Call → Work Directive) → Prop where
  | each : IsStandard "each" (.attribute "each") each
  | switch : IsStandard "switch" (.attribute "switch") switch
  | case : IsStandard "case" (.attribute "case") case
  | whenTrue : IsStandard "if" (.attribute "if") (conditional true)
  | whenFalse : IsStandard "unless" (.attribute "unless") (conditional false)
  | object : IsStandard "object" (.attribute "object") selectObject
  | bindings : IsStandard "with" (.attribute "with") bindVariables
  | attr : IsStandard "attr" (.attribute "attr") setAttributes
  | attrprepend : IsStandard "attrprepend" (.attribute "attrprepend")
    (joinAttributes fun before extra => extra ++ before)
  | attrappend : IsStandard "attrappend" (.attribute "attrappend")
    (joinAttributes fun before extra => before ++ extra)
  | value {name : String} (hname : name ∈ valueAttributes) :
    IsStandard name (.attribute name) (setOne name)
  | flag {name : String} (hname : name ∈ flagAttributes) :
    IsStandard name (.attribute name) (setFlag name)
  | inline : IsStandard "inline" (.attribute "inline") inline
  | classappend : IsStandard "classappend" (.attribute "classappend") (appendTo "class" ⟨" ", []⟩)
  | styleappend :
    IsStandard "styleappend" (.attribute "styleappend") (appendTo "style" ⟨"; ", [';']⟩)
  | text : IsStandard "text" (.attribute "text") (setBody true)
  | utext : IsStandard "utext" (.attribute "utext") (setBody false)
  | remove : IsStandard "remove" (.attribute "remove") remove
  | block : IsStandard "block" (.element "block") unwrap

theorem isStandard_of_mem {p : Processor} (hp : p ∈ processors) :
    IsStandard p.name p.rule p.run := by
  simp only [processors, List.mem_append, List.mem_cons, List.mem_map, List.not_mem_nil, or_false]
    at hp
  rcases hp with ((hp | ⟨name, hname, rfl⟩) | ⟨name, hname, rfl⟩) | hp
  · rcases hp with rfl | rfl | rfl | rfl | rfl | rfl | rfl | rfl | rfl | rfl
    all_goals dsimp only [Processor.forAttribute]
    exacts [.each, .switch, .case, .whenTrue, .whenFalse, .object, .bindings, .attr, .attrprepend,
      .attrappend]
  · exact .value hname
  · exact .flag hname
  · rcases hp with rfl | rfl | rfl | rfl | rfl | rfl | rfl
    all_goals dsimp only [Processor.forAttribute, Processor.forElement]
    exacts [.inline, .classappend, .styleappend, .text, .utext, .remove, .block]

/-- No two processors have the same name. -/
theorem eq_of_name {p q : Processor} (hp : p ∈ processors) (hq : q ∈ processors)
    (hname : p.name = q.name) : p = q := by
  have hnodup : (processors.map Processor.name).Nodup := by decide +kernel
  exact List.inj_on_of_nodup_map hnodup hp hq hname

/-- What a processor does is known from its name. -/
theorem run_of_name {p q : Processor} (hp : p ∈ processors) (hq : q ∈ processors)
    (hname : p.name = q.name) : p.run = q.run := by
  rw [eq_of_name hp hq hname]

theorem mem_entries_of_ofDialects {r : Registry} (hr : Registry.ofDialects [dialect] = .ok r) :
    ∀ p ∈ r.entries, p ∈ dialect.entries := by
  intro p hp
  unfold Registry.ofDialects at hr
  extract_lets entries at hr
  split at hr
  · cases hr
  · cases hr
    simpa [entries] using (Registry.sort_perm _).subset hp

/-- The processors of the standard dialect alone. -/
def registry : Registry := ⟨Registry.sort dialect.entries, [dialect.name]⟩

theorem ofDialects_dialect : Registry.ofDialects [dialect] = .ok registry := by
  have hconflict : (Registry.firstConflict? dialect.entries).isNone = true := by
    decide +kernel
  rw [Option.isNone_iff_eq_none] at hconflict
  simp [Registry.ofDialects, hconflict, registry]

/-- The processors of the dialect are listed in the order in which they are called. -/
theorem entries_registry : registry.entries = dialect.entries :=
  Registry.sort_of_isChain (by decide +kernel)

def entry (p : Processor) : Entry :=
  ⟨dialect.name ++ ":" ++ p.name, dialect.precedence, .ofRule dialect.qualifier p.rule, p⟩

theorem run_entry_forAttribute (name : String) (precedence : Int) (work : Call → Work Directive) :
    (entry (.forAttribute name precedence work)).processor.run = work := rfl

/-- The processors that come last, in their order: those for text, and those that can remove the
element or its parts after it. -/
def late : List Entry :=
  [entry (.forAttribute "text" 1300 (setBody true)),
    entry (.forAttribute "utext" 1400 (setBody false)),
    entry (.forAttribute "remove" 1600 remove), entry (.forElement "block" 100000 unwrap)]

theorem entries_eq : ∃ early, registry.entries = early ++ late ∧
    ∀ p ∈ early, p.processor.name ∉ ["text", "utext", "remove"] := by
  refine ⟨dialect.entries.dropLast.dropLast.dropLast.dropLast, ?_, by decide +kernel⟩
  rw [entries_registry]
  rfl

theorem mem_of_mem_late {p : Entry} (hp : p ∈ late) : p ∈ registry.entries := by
  obtain ⟨early, hentries, -⟩ := entries_eq
  rw [hentries]
  exact List.mem_append_right _ hp

end Standard
end NaturalTemplate
