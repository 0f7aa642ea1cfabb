import NaturalTemplate.Proofs.Decimal.Binary64
import NaturalTemplate.Proofs.Expression.Derivation

/-!
# Comparing integers

Equality of two integers is exact, but their order is that of the floating-point numbers nearest to
them. So the operators contradict each other for two integers that are different and have the same
nearest number, and for no others. Up to `2 ^ 53` there are none of these.
-/
namespace NaturalTemplate
open Grammar Decimal

namespace Value

theorem natAbs_toInt_lt (a : Int64) : a.toInt.natAbs < 2 ^ 64 := by
  have hlt := a.toInt_lt
  have hge := a.le_toInt
  omega

/-- The order of two integers is that of their nearest floating-point numbers. -/
theorem order?_integer (a b : Int64) :
    (integer a).order? (integer b) = some (compare (nearest a.toInt) (nearest b.toInt)) := by
  have ha := natAbs_toInt_lt a
  have hb := natAbs_toInt_lt b
  simp only [order?, number?, ofInt_lt_iff ha hb, ofInt_lt_iff hb ha, ofInt_beq_iff ha hb]
  obtain h | h | h := lt_trichotomy (nearest a.toInt) (nearest b.toInt)
  · rw [if_pos h, compare_lt_iff_lt.mpr h]
  · rw [if_neg h.not_lt, if_neg h.not_gt, if_pos h, compare_eq_iff_eq.mpr h]
  · rw [if_neg h.not_gt, if_pos h, compare_gt_iff_gt.mpr h]

end Value

namespace Grammar

/-- The expression that puts an operator between two variables, with their spelling and spaces. -/
def Operator.between (o : Operator) (s t : Segment) (gap : Gap o) : Phrase .expression :=
  (Phrase.binary o (Atom.phrase (.variable ⟨s, []⟩)) gap
    (Atom.phrase (.variable ⟨t, []⟩))).anywhere

end Grammar

namespace Evaluator

variable {c : Context} {s t : Segment} {a b : Int64}

theorem eval_name {v : Value} (h : c.value? s.name.name = some v) :
    Path.eval c [s.name.name] = .ok v := by
  rw [Path.eval, if_pos s.name.valid, h]
  rfl

theorem evaluate_between (o : Operator) (gap : Gap o) {v : Value}
    (h : (o.toExpr (.variable [s.name.name]) (.variable [t.name.name])).eval c = .ok v) :
    (standard.evaluate (String.ofList (o.between s t gap).chars) c).1 = .ok v := by
  have hsheltered : (o.between s t gap).Sheltered false := ⟨trivial, trivial⟩
  have hbracketed : (o.between s t gap).Bracketed := ⟨trivial, trivial⟩
  have hread : Expr.parse (o.between s t gap).chars =
      o.toExpr (.variable [s.name.name]) (.variable [t.name.name]) :=
    (Phrase.parse_chars_iff hsheltered).mpr hbracketed
  simp only [evaluate, standard, String.toList_ofList, hread, h]

section
variable (ha : c.value? s.name.name = some (.integer a))
  (hb : c.value? t.name.name = some (.integer b))
include ha hb

theorem evaluate_equal (word : Bool) (gap : Gap (.equal word)) :
    (standard.evaluate (String.ofList ((Operator.equal word).between s t gap).chars) c).1 =
      .ok (.bool (a == b)) := by
  refine evaluate_between _ gap ?_
  rw [Operator.toExpr, Expr.eval, Expr.eval, eval_name ha, Expr.eval, eval_name hb]
  rfl

theorem evaluate_differ (word : Bool) (gap : Gap (.differ word)) :
    (standard.evaluate (String.ofList ((Operator.differ word).between s t gap).chars) c).1 =
      .ok (.bool (a != b)) := by
  refine evaluate_between _ gap ?_
  rw [Operator.toExpr, Expr.eval, Expr.eval, eval_name ha, Expr.eval, eval_name hb]
  rfl

theorem evaluate_order (relation : Relation) (word : Bool) (gap : Gap (.order relation word)) :
    (standard.evaluate (String.ofList ((Operator.order relation word).between s t gap).chars) c).1 =
      .ok (.bool (relation.holds (compare (nearest a.toInt) (nearest b.toInt)))) := by
  refine evaluate_between _ gap ?_
  have horder := Value.order?_integer a b
  rw [Operator.toExpr, Expr.eval, Expr.eval, eval_name ha, Expr.eval, eval_name hb]
  simp only [bind, Except.bind, horder]
  rfl

/-- Equality is exact. The order is that of the nearest floating-point numbers, so that it is right
exactly if the integers are equal or have different nearest numbers. For integers up to `2 ^ 53` it
is right. -/
theorem evaluate_integers :
    (∀ word gap, (standard.evaluate
      (String.ofList ((Operator.equal word).between s t gap).chars) c).1 = .ok (.bool (a == b))) ∧
    (∀ word gap, (standard.evaluate
      (String.ofList ((Operator.differ word).between s t gap).chars) c).1 = .ok (.bool (a != b))) ∧
    (∀ relation word gap, (standard.evaluate
      (String.ofList ((Operator.order relation word).between s t gap).chars) c).1 =
        .ok (.bool (relation.holds (compare (nearest a.toInt) (nearest b.toInt))))) ∧
    ((∀ relation word gap, (standard.evaluate
      (String.ofList ((Operator.order relation word).between s t gap).chars) c).1 =
        .ok (.bool (relation.holds (compare a.toInt b.toInt)))) ↔
      a = b ∨ nearest a.toInt ≠ nearest b.toInt) ∧
    (a.toInt.natAbs ≤ 2 ^ 53 → b.toInt.natAbs ≤ 2 ^ 53 →
      a = b ∨ nearest a.toInt ≠ nearest b.toInt) := by
  refine ⟨evaluate_equal ha hb, evaluate_differ ha hb, evaluate_order ha hb, ⟨fun h => ?_, ?_⟩,
    fun hsmall hsmall' => ?_⟩
  · by_contra hmerged
    obtain ⟨hne, heq⟩ := not_or.mp hmerged
    rw [not_ne_iff] at heq
    have hholds (relation : Relation) :
        relation.holds .eq = relation.holds (compare a.toInt b.toInt) := by
      have horder := evaluate_order ha hb relation false (.spaces _)
      rw [compare_eq_iff_eq.mpr heq, h relation false] at horder
      simpa using horder.symm
    -- One of the two relations that are not reflexive holds between different integers.
    have hless := hholds .less
    have hgreater := hholds .greater
    cases hcompare : compare a.toInt b.toInt with
    | lt => simp [hcompare, Relation.holds] at hless
    | gt => simp [hcompare, Relation.holds] at hgreater
    | eq => exact hne (Int64.toInt_inj.mp (compare_eq_iff_eq.mp hcompare))
  · rintro (rfl | hne) relation word gap
    · rw [evaluate_order ha hb, compare_eq_iff_eq.mpr rfl, compare_eq_iff_eq.mpr rfl]
    · rw [evaluate_order ha hb, compare_nearest hne]
  · rw [nearest_of_natAbs_le hsmall, nearest_of_natAbs_le hsmall', ne_eq, Int64.toInt_inj]
    exact em _

end

/-- The least and the greatest integer. -/
theorem evaluate_integers_ends :
    let c : Context := { root := [("a", .value (.integer (-9223372036854775808))),
      ("b", .value (.integer 9223372036854775807))] }
    c.value? "a" = some (.integer (-9223372036854775808)) ∧
      c.value? "b" = some (.integer 9223372036854775807) ∧
      (standard.evaluate "${a} < ${b}" c).1 = .ok (.bool true) := by
  intro c
  have ha : c.value? "a" = some (.integer (-9223372036854775808)) := rfl
  have hb : c.value? "b" = some (.integer 9223372036854775807) := rfl
  refine ⟨ha, hb, ?_⟩
  have horder := (evaluate_integers (s := ⟨.none, ⟨"a", by decide⟩, .none⟩)
    (t := ⟨.none, ⟨"b", by decide⟩, .none⟩) ha hb).2.2.1 .less false (.spaces _)
  have hholds : Relation.less.holds (compare (nearest (-9223372036854775808 : Int64).toInt)
      (nearest (9223372036854775807 : Int64).toInt)) = true := by decide +kernel
  rw [hholds] at horder
  exact horder

/-- Two integers are different although none of them is seen to be the greater one. -/
theorem evaluate_integers_merged :
    let c : Context := { root := [("a", .value (.integer 9007199254740993)),
      ("b", .value (.integer 9007199254740992))] }
    (9007199254740992 : Int64) < 9007199254740993 ∧
      (standard.evaluate "${a} < ${b}" c).1 = .ok (.bool false) ∧
      (standard.evaluate "${a} == ${b}" c).1 = .ok (.bool false) ∧
      (standard.evaluate "${a} > ${b}" c).1 = .ok (.bool false) := by
  intro c
  have ha : c.value? (⟨.none, ⟨"a", by decide⟩, .none⟩ : Segment).name.name =
      some (.integer 9007199254740993) := rfl
  have hb : c.value? (⟨.none, ⟨"b", by decide⟩, .none⟩ : Segment).name.name =
      some (.integer 9007199254740992) := rfl
  have hmerged : compare (nearest (9007199254740993 : Int64).toInt)
      (nearest (9007199254740992 : Int64).toInt) = .eq := by decide +kernel
  have hne : ((9007199254740993 : Int64) == 9007199254740992) = false := by decide
  have hless := evaluate_order ha hb .less false (.spaces _)
  have hequal := evaluate_equal ha hb false (.spaces _)
  have hgreater := evaluate_order ha hb .greater false (.spaces _)
  rw [hmerged] at hless hgreater
  rw [hne] at hequal
  exact ⟨by decide, hless, hequal, hgreater⟩

end Evaluator
end NaturalTemplate
