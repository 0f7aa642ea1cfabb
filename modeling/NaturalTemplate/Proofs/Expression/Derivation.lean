import NaturalTemplate.Proofs.Expression.Printed

/-!
# The value of an expression is that of its derivation

A text that is derived from the grammar has the value of the derivation, or its error, as long as no
conditional or default stands without brackets between a question mark and its else part. There the
reader takes the first colon, and not the one that the grammar gives to the question mark.
-/
namespace NaturalTemplate
open Grammar

/-- A derived text, with white space around it, is read as its derivation exactly if no colon stands
outside brackets between a question mark and its else part. Then it has the value of the derivation,
or the error, and asks for the same values. -/
theorem Evaluator.evaluate_derivation (p : Phrase .expression) (before after : Layout)
    (h : p.Sheltered false) :
    (Expr.parse (before.chars ++ (p.chars ++ after.chars)) = p.toExpr ↔ p.Bracketed) ∧
      (p.Bracketed → ∀ c : Context,
        Evaluator.standard.evaluate (String.ofList (before.chars ++ (p.chars ++ after.chars))) c =
          match p.run c with
          | .ok v d => (.ok v, d)
          | .error cause d => (.error (.expression
              (String.ofList (before.chars ++ (p.chars ++ after.chars))) cause), d)) := by
  have hread : Expr.parse (before.chars ++ (p.chars ++ after.chars)) = Expr.parse p.chars := by
    rw [parse_blank_append before.blank, parse_append_blank (Phrase.operand h).solid after.blank]
  refine ⟨by rw [hread, Phrase.parse_chars_iff h], fun hbracketed c => ?_⟩
  refine evaluate_of_parse ?_ c
  rw [String.toList_ofList, hread]
  exact (Phrase.parse_chars_iff h).mpr hbracketed

/-- An atom where any expression may stand. -/
def Grammar.Atom.phrase {l : Level} (a : Atom) : Phrase l := .tighter l.le_atom (.atom a)

/-- What stands where any expression may stand. -/
def Grammar.Phrase.anywhere {l : Level} (p : Phrase l) : Phrase .expression :=
  .tighter (Level.expression_le l) p

/-- `false ? 1 : null ?: |it's|`: a default stands in the else part of a condition. -/
def elseDefault : Phrase .expression :=
  .conditional (Atom.bool false).phrase .space .space (Atom.number (Term.number 1)).phrase .space
    .space (.elvis Atom.null.phrase .space .space
      (Atom.substitution ⟨[.char 'i', .char 't', .char '\'', .char 's'], by simp [Part.Apart],
        by decide, by decide⟩).phrase)

/-- The value of an else part without brackets. -/
theorem Evaluator.evaluate_elseDefault :
    elseDefault.Sheltered false ∧ elseDefault.Bracketed ∧
      String.ofList elseDefault.chars = "false ? 1 : null ?: |it's|" ∧
      (Evaluator.standard.evaluate "false ? 1 : null ?: |it's|" default).1 =
        .ok (.string "it's") := by
  have hsheltered : elseDefault.Sheltered false := by
    refine ⟨trivial, trivial, trivial, ?_⟩
    exact fun hfalse => absurd hfalse (by decide)
  have hbracketed : elseDefault.Bracketed :=
    ⟨trivial, trivial, ⟨trivial, trivial⟩, rfl⟩
  have htext : String.ofList elseDefault.chars = "false ? 1 : null ?: |it's|" := rfl
  refine ⟨hsheltered, hbracketed, htext, ?_⟩
  have hvalue := (evaluate_derivation elseDefault .none .none hsheltered).2 hbracketed default
  simp only [Layout.none, List.nil_append, List.append_nil, htext] at hvalue
  rw [hvalue]
  rfl

/-- `true ? false ? 1 : 2 : 3`: a condition stands between a question mark and its else part. -/
def nestedCondition : Phrase .expression :=
  .conditional (Atom.bool true).phrase .space .space
    (.conditional (Atom.bool false).phrase .space .space (Atom.number (Term.number 1)).phrase .space
      .space (Atom.number (Term.number 2)).phrase)
    .space .space (Atom.number (Term.number 3)).phrase

/-- `false ? 1`: what is read in place of the inner condition. -/
def cutCondition : Phrase .expression :=
  .guarded (Atom.bool false).phrase .space .space (Atom.number (Term.number 1)).phrase

/-- Every else part belongs to the nearest question mark without one, and yet the value is not that
of the derivation: the first question mark takes the colon of the second one. -/
theorem Evaluator.evaluate_nestedCondition :
    nestedCondition.ElseNearest ∧ nestedCondition.Sheltered false ∧
      String.ofList nestedCondition.chars = "true ? false ? 1 : 2 : 3" ∧
      nestedCondition.run default = .ok (.integer 2) default ∧
      (Evaluator.standard.evaluate "true ? false ? 1 : 2 : 3" default).1 = .ok .null := by
  refine ⟨⟨trivial, ⟨trivial, trivial, trivial, rfl⟩, trivial, rfl⟩,
    ⟨trivial, ⟨trivial, trivial, trivial⟩, trivial⟩, rfl, rfl, ?_⟩
  have hsheltered : cutCondition.Sheltered false := ⟨trivial, trivial⟩
  have hbracketed : cutCondition.Bracketed := ⟨trivial, trivial, rfl⟩
  have hinner := (Phrase.parse_chars_iff hsheltered).mpr hbracketed
  have hoperand := Phrase.operand_colonless hsheltered rfl
  have hcondition : Operand [['?']] (Atom.bool true).chars :=
    (Atom.bool true).operand.mono (by decide)
  have hread : Expr.parse "true ? false ? 1 : 2 : 3".toList =
      .conditional (Atom.bool true).toExpr cutCondition.toExpr
        (Expr.parse [' ', '2', ' ', ':', ' ', '3']) := by
    rw [← hinner, ← (Atom.bool true).parse_chars]
    exact parse_colon_at hcondition hoperand Layout.space.blank Layout.space.blank
      Layout.space.blank ⟨⟨'t', rfl, by decide⟩, '3', rfl, by decide⟩
  simp only [evaluate, standard, hread]
  rfl

end NaturalTemplate
