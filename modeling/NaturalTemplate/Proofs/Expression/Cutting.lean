import Mathlib.Tactic.Tauto
import NaturalTemplate.Proofs.Expression.Operands

/-!
# Where an expression is cut

What is read from a text that is made of operands, the operator between them and white space. An
operator that is looked for earlier must not be seen in the operands, and neither must another one
of its own kind on the side that the search comes from.
-/
namespace NaturalTemplate
open Nesting Grammar

namespace Expr

/-- How a text is read, in the order in which operators are looked for. -/
theorem parse_eq (text : List Char) :
    parse text =
      let e := Text.trim text
      if e.isEmpty then .malformed .empty
      else
        match splitFirst? [(['?'], ())] {} none e with
        | some (condition, _, ':' :: default) => .elvis (parse condition) (parse default)
        | some (condition, _, rest) =>
          match splitOnce? ':' {} rest with
          | some (yes, no) => .conditional (parse condition) (parse yes) (parse no)
          | none => .guarded (parse condition) (parse rest)
        | none =>
        match splitFirst? [(['o', 'r'], ())] {} none e with
        | some (left, _, right) => .or (parse left) (parse right)
        | none =>
        match splitFirst? [(['a', 'n', 'd'], ())] {} none e with
        | some (left, _, right) => .and (parse left) (parse right)
        | none =>
        match splitFirst? equalityOperators {} none e with
        | some (left, (_, true), right) => .equal (parse left) (parse right)
        | some (left, (_, false), right) => .differ (parse left) (parse right)
        | none =>
        match splitFirst? relationOperators {} none e with
        | some (left, (operator, relation), right) =>
          .compare relation (String.ofList operator) (parse left) (parse right)
        | none =>
        match splitLast? '+' {} none e with
        | some (left, right) => .add (parse left) (parse right)
        | none =>
        match negated? e with
        | some rest => .not (parse rest)
        | none =>
        match between? ['$', '{'] '}' e with
        | some path => .variable (pathOf path)
        | none =>
        match between? ['*', '{'] '}' e with
        | some path => .selected (pathOf path)
        | none =>
        match bracketed? e with
        | some inner => parse inner
        | none => atom e := by
  rw [parse]
  simp only
  generalize Text.trim text = e
  split
  · rfl
  cases splitFirst? [(['?'], ())] {} none e with
  | some cut =>
    obtain ⟨condition, _, rest⟩ := cut
    by_cases hrest : ∃ default, rest = ':' :: default
    · obtain ⟨default, rfl⟩ := hrest
      rfl
    · cases hcut : splitOnce? ':' {} rest <;> split <;> split <;> simp_all
  | none =>
  cases splitFirst? [(['o', 'r'], ())] {} none e with
  | some cut => rfl
  | none =>
  cases splitFirst? [(['a', 'n', 'd'], ())] {} none e with
  | some cut => rfl
  | none =>
  cases splitFirst? equalityOperators {} none e with
  | some cut => obtain ⟨left, ⟨_, _ | _⟩, right⟩ := cut <;> rfl
  | none =>
  cases splitFirst? relationOperators {} none e with
  | some cut => rfl
  | none =>
  cases splitLast? '+' {} none e with
  | some cut => rfl
  | none =>
  cases negated? e with
  | some rest => rfl
  | none =>
  cases between? ['$', '{'] '}' e with
  | some path => rfl
  | none =>
  cases between? ['*', '{'] '}' e with
  | some path => rfl
  | none => cases bracketed? e <;> rfl

/-- White space around an expression does not matter. -/
theorem parse_congr {cs ds : List Char} (h : Text.trim cs = Text.trim ds) :
    parse cs = parse ds := by
  rw [parse_eq cs, parse_eq ds, h]

end Expr

theorem parse_append_blank {cs gap : List Char} (hcs : Text.Solid cs) (hgap : Text.Blank gap) :
    Expr.parse (cs ++ gap) = Expr.parse cs :=
  Expr.parse_congr (by rw [hcs.trim_append hgap, hcs.trim_eq])

theorem parse_blank_append {gap cs : List Char} (hgap : Text.Blank gap) :
    Expr.parse (gap ++ cs) = Expr.parse cs :=
  Expr.parse_congr (Text.trim_append_of_blank hgap)

/-! ## Two operands -/

/-- The first operator after a text in which none is seen. -/
theorem splitFirst?_found {α : Type} {operators : List (List Char × α)} {o : List Char × α}
    {front cs : List Char} {p : Char} (hquiet : quiet (operators.map Prod.fst) {} none front = true)
    (hcloses : after {} front = {}) (hlast : lastOf none front = some p) (hne : cs ≠ [])
    (hfind : operators.find? (fun o => operatorAt p cs o.1) = some o) :
    splitFirst? operators {} none (front ++ cs) = some (front, o, cs.drop o.1.length) := by
  obtain ⟨c, cs, rfl⟩ := List.exists_cons_of_ne_nil hne
  have hhere : splitFirst? operators {} (some p) (c :: cs) =
      some ([], o, (c :: cs).drop o.1.length) := by
    have htop : atTop {} = true := rfl
    rw [splitFirst?, Option.bind_some, if_pos htop, hfind]
  rw [splitFirst?_append hquiet, hcloses, hlast, hhere]
  simp only [Option.map_some, List.append_nil]

section Binary

variable {o : Operator} {left right : List Char} (gap : Gap o)

/-- The expression for two operands of an operator. -/
def Grammar.Operator.toExpr (o : Operator) (left right : Expr) : Expr :=
  match o with
  | .or => .or left right
  | .and => .and left right
  | .equal _ => .equal left right
  | .differ _ => .differ left right
  | .order relation word =>
    .compare relation (String.ofList (Operator.order relation word).chars) left right
  | .add => .add left right

theorem Grammar.Operator.toExpr_inj {d e f g : Expr} :
    o.toExpr d e = o.toExpr f g ↔ d = f ∧ e = g := by
  cases o <;> simp [Operator.toExpr]

/-- The operators that are looked for together with an operator, with what they are read as. -/
theorem find?_equality {p c : Char} {tail : List Char} {word : Bool}
    (hp : word = true → Text.isAsciiBlank p = true)
    (hc : word = true → Text.isAsciiBlank c = true) :
    Expr.equalityOperators.find?
        (fun x => operatorAt p ((Operator.equal word).chars ++ c :: tail) x.1) =
      some ((Operator.equal word).chars, true) ∧
    Expr.equalityOperators.find?
        (fun x => operatorAt p ((Operator.differ word).chars ++ c :: tail) x.1) =
      some ((Operator.differ word).chars, false) := by
  cases word with
  | true =>
    simp [Expr.equalityOperators, operatorAt, Operator.chars, hp, hc]
  | false => simp [Expr.equalityOperators, operatorAt, Operator.chars]

theorem find?_relation {p c : Char} {tail : List Char} {word : Bool} (relation : Relation)
    (hp : word = true → Text.isAsciiBlank p = true) (hc : word = true → Text.isAsciiBlank c = true)
    (hne : c ≠ '=') :
    Expr.relationOperators.find?
        (fun x => operatorAt p ((Operator.order relation word).chars ++ c :: tail) x.1) =
      some ((Operator.order relation word).chars, relation) := by
  cases word with
  | true =>
    cases relation <;>
      simp [Expr.relationOperators, operatorAt, Operator.chars, Operator.relationWord, hp, hc]
  | false =>
    cases relation <;>
      simp [Expr.relationOperators, operatorAt, Operator.chars, Relation.spelling, Ne.symm hne]

/-- A last operator is the one after which there is none. -/
theorem splitLast?_found {operator : Char} {n : Nesting} {previous : Option Char}
    {front rest : List Char} (htop : (n.after front).atTop = true)
    (hne : previous.isSome = true ∨ front ≠ [])
    (hrest : splitLast? operator ((n.after front).step operator) (some operator) rest = none) :
    splitLast? operator n previous (front ++ operator :: rest) = some (front, rest) := by
  induction front generalizing n previous with
  | nil =>
    have hprevious : previous.isSome = true := hne.resolve_right (by simp)
    rw [List.nil_append, splitLast?, show splitLast? operator (n.step operator) (some operator) rest
      = none from hrest]
    exact if_pos ⟨hprevious, htop, rfl⟩
  | cons c front ih =>
    rw [List.cons_append, splitLast?, ih htop (.inl rfl) hrest]

/-- An expression is cut at an operator before which neither it nor a looser one is seen, and at the
last plus. -/
theorem parse_at {front rest : List Char} {p c : Char}
    (hwhole : Operand o.level.hidden (front ++ (o.chars ++ rest)))
    (hfront : quiet o.leftLevel.hidden {} none front = true) (hcloses : after {} front = {})
    (hlast : lastOf none front = some p) (hp : o.isWord = true → Text.isAsciiBlank p = true)
    (hhead : rest.head? = some c) (hc : o.isWord = true → Text.isAsciiBlank c = true)
    (hne : c ≠ '=') (hright : quiet o.rightLevel.hidden {} (some '+') rest = true) :
    Expr.parse (front ++ (o.chars ++ rest)) = o.toExpr (Expr.parse front) (Expr.parse rest) := by
  obtain ⟨tail, rfl⟩ := List.head?_eq_some_iff.mp hhead
  have hempty := List.isEmpty_eq_false_iff.mpr hwhole.ne_nil
  have hnone : ∀ {α : Type} (operators : List (List Char × α)) (l : Level), o.level = l →
      operators.map Prod.fst ⊆ l.hidden →
        splitFirst? operators {} none (front ++ (o.chars ++ c :: tail)) = none := by
    rintro α operators l rfl hsub
    exact splitFirst?_eq_none (quiet_mono (hwhole.quiet none) hsub)
  have hfound : ∀ {α : Type} (operators : List (List Char × α)) (l : Level) (tag : α),
      o.leftLevel = l → operators.map Prod.fst ⊆ l.hidden →
      operators.find? (fun x => operatorAt p (o.chars ++ c :: tail) x.1) = some (o.chars, tag) →
      splitFirst? operators {} none (front ++ (o.chars ++ c :: tail)) =
        some (front, (o.chars, tag), c :: tail) := by
    rintro α operators l tag rfl hsub hfind
    have hcut := splitFirst?_found (quiet_mono hfront hsub) hcloses hlast (by simp) hfind
    rwa [List.drop_left] at hcut
  rw [Expr.parse_eq]
  simp only [hwhole.solid.trim_eq, hempty, Bool.false_eq_true, if_false]
  cases o with
  | or =>
    have hcut := hfound [(['o', 'r'], ())] .conjunction () rfl (by decide)
      (by simp [operatorAt, Operator.chars, hp rfl, hc rfl])
    rw [hnone [(['?'], ())] .disjunction rfl (by decide), hcut]
    rfl
  | and =>
    have hcut := hfound [(['a', 'n', 'd'], ())] .equality () rfl (by decide)
      (by simp [operatorAt, Operator.chars, hp rfl, hc rfl])
    rw [hnone [(['?'], ())] .conjunction rfl (by decide),
      hnone [(['o', 'r'], ())] .conjunction rfl (by decide), hcut]
    rfl
  | equal word =>
    have hcut := hfound Expr.equalityOperators .relation true rfl (by decide)
      (find?_equality hp hc).1
    rw [hnone [(['?'], ())] .equality rfl (by decide),
      hnone [(['o', 'r'], ())] .equality rfl (by decide),
      hnone [(['a', 'n', 'd'], ())] .equality rfl (by decide), hcut]
    rfl
  | differ word =>
    have hcut := hfound Expr.equalityOperators .relation false rfl (by decide)
      (find?_equality hp hc).2
    rw [hnone [(['?'], ())] .equality rfl (by decide),
      hnone [(['o', 'r'], ())] .equality rfl (by decide),
      hnone [(['a', 'n', 'd'], ())] .equality rfl (by decide), hcut]
    rfl
  | order relation word =>
    have hcut := hfound Expr.relationOperators .sum relation rfl (by decide)
      (find?_relation relation hp hc hne)
    rw [hnone [(['?'], ())] .relation rfl (by decide),
      hnone [(['o', 'r'], ())] .relation rfl (by decide),
      hnone [(['a', 'n', 'd'], ())] .relation rfl (by decide),
      hnone Expr.equalityOperators .relation rfl (by decide), hcut]
    rfl
  | add =>
    have hplus : splitLast? '+' {} (some '+') (c :: tail) = none := by
      have happend := splitLast?_append (by decide)
        (quiet_mono hright (by decide : [['+']] ⊆ Level.hidden .unary)) []
      rwa [List.append_nil] at happend
    have hcut : splitLast? '+' {} none (front ++ (Operator.add.chars ++ c :: tail)) =
        some (front, c :: tail) := by
      refine splitLast?_found ?_ (.inr ?_) ?_
      · rw [hcloses]
        rfl
      · rintro rfl
        cases hlast
      · rw [hcloses]
        exact hplus
    rw [hnone [(['?'], ())] .sum rfl (by decide), hnone [(['o', 'r'], ())] .sum rfl (by decide),
      hnone [(['a', 'n', 'd'], ())] .sum rfl (by decide),
      hnone Expr.equalityOperators .sum rfl (by decide),
      hnone Expr.relationOperators .sum rfl (by decide), hcut]
    rfl

/-- Two operands are read apart. -/
theorem parse_operands (hleft : Operand o.leftLevel.hidden left)
    (hright : Operand o.rightLevel.hidden right)
    (hnext : ∃ c, (gap.after.chars ++ right).head? = some c ∧ c ≠ '=') :
    Expr.parse (left ++ (gap.before.chars ++ (o.chars ++ (gap.after.chars ++ right)))) =
      o.toExpr (Expr.parse left) (Expr.parse right) := by
  have hwhole := operand_binary gap hleft hright hnext
  have hreadLeft := parse_append_blank hleft.solid gap.before.blank
  have hreadRight : Expr.parse (gap.after.chars ++ right) = Expr.parse right :=
    parse_blank_append gap.after.blank
  have hcloses : after {} (left ++ gap.before.chars) = {} := by
    rw [after_append, hleft.closes, after_blank gap.before.blank]
  have hfront : quiet o.leftLevel.hidden {} none (left ++ gap.before.chars) = true := by
    refine quiet_append (hleft.quiet none) ?_
    rw [hleft.closes]
    exact quiet_blank gap.before.blank o.leftLevel.hidden_subset _
  have hback : quiet o.rightLevel.hidden {} (some '+') (gap.after.chars ++ right) = true := by
    refine quiet_append (quiet_blank gap.after.blank o.rightLevel.hidden_subset _) ?_
    rw [after_blank gap.after.blank]
    exact hright.quiet _
  obtain ⟨p, hlast, hp⟩ := lastOf_before gap hleft.ne_nil
  obtain ⟨c, hhead, hne⟩ := hnext
  have hc : o.isWord = true → Text.isAsciiBlank c = true := by
    intro hword
    obtain ⟨-, d, hd, hblank⟩ := gap.apart hword
    rw [List.head?_append, hd, Option.some_or, Option.some.injEq] at hhead
    exact hhead ▸ hblank
  rw [← List.append_assoc] at hwhole ⊢
  rw [parse_at hwhole hfront hcloses hlast hp hhead hc hne hback, hreadLeft, hreadRight]

end Binary

/-! ## Conditions -/

section Conditions

variable {condition gap rest yes no : List Char}

/-- An expression is cut at its first question mark. -/
theorem splitFirst?_question (hcondition : Operand [['?']] condition) (hgap : Text.Blank gap) :
    splitFirst? [(['?'], ())] {} none ((condition ++ gap) ++ '?' :: rest) =
      some (condition ++ gap, (['?'], ()), rest) := by
  have hquiet : quiet [['?']] {} none (condition ++ gap) = true := by
    refine quiet_append (hcondition.quiet none) ?_
    rw [hcondition.closes]
    exact quiet_blank hgap (by decide) _
  have hcloses : after {} (condition ++ gap) = {} := by
    rw [after_append, hcondition.closes, after_blank hgap]
  obtain ⟨p, hlast⟩ := exists_lastOf_of_ne_nil
    (List.append_ne_nil_of_left_ne_nil hcondition.ne_nil gap) none
  exact splitFirst?_found hquiet hcloses hlast (by simp) (by simp [operatorAt])

/-- A colon next to the question mark is part of it. -/
theorem parse_default (hcondition : Operand [['?']] condition) (hgap : Text.Blank gap)
    (hsolid : Text.Solid (condition ++ (gap ++ '?' :: ':' :: rest))) :
    Expr.parse (condition ++ (gap ++ '?' :: ':' :: rest)) =
      .elvis (Expr.parse condition) (Expr.parse rest) := by
  have hempty := List.isEmpty_eq_false_iff.mpr hsolid.ne_nil
  rw [← parse_append_blank hcondition.solid hgap]
  rw [← List.append_assoc] at hsolid hempty ⊢
  rw [Expr.parse_eq]
  simp only [hsolid.trim_eq, hempty, splitFirst?_question hcondition hgap, Bool.false_eq_true,
    if_false]

theorem parse_question_of_ne (hcondition : Operand [['?']] condition) (hgap : Text.Blank gap)
    (hsolid : Text.Solid (condition ++ (gap ++ '?' :: rest))) (hne : rest.head? ≠ some ':') :
    Expr.parse (condition ++ (gap ++ '?' :: rest)) =
      match splitOnce? ':' {} rest with
      | some (yes, no) => .conditional (Expr.parse condition) (Expr.parse yes) (Expr.parse no)
      | none => .guarded (Expr.parse condition) (Expr.parse rest) := by
  have hempty := List.isEmpty_eq_false_iff.mpr hsolid.ne_nil
  rw [← parse_append_blank hcondition.solid hgap]
  rw [← List.append_assoc] at hsolid hempty ⊢
  rw [Expr.parse_eq]
  simp only [hsolid.trim_eq, hempty, splitFirst?_question hcondition hgap, Bool.false_eq_true,
    if_false]
  split
  · next heq =>
    cases heq
    simp at hne
  · next heq =>
    cases heq
    rfl
  · contradiction

theorem head?_ne_colon {p : Char} (h : quiet [[':']] {} (some p) yes = true) :
    yes.head? ≠ some ':' := by
  intro hhead
  obtain ⟨tail, rfl⟩ := List.head?_eq_some_iff.mp hhead
  simp [quiet, mayStand, atTop] at h

/-- The first colon ends what stands if the condition holds. -/
theorem parse_colon (hcondition : Operand [['?']] condition) (hgap : Text.Blank gap)
    (hsolid : Text.Solid (condition ++ (gap ++ '?' :: (yes ++ ':' :: no)))) (hne : yes ≠ [])
    (hquiet : quiet [[':']] {} (some '?') yes = true) (hcloses : after {} yes = {}) :
    Expr.parse (condition ++ (gap ++ '?' :: (yes ++ ':' :: no))) =
      .conditional (Expr.parse condition) (Expr.parse yes) (Expr.parse no) := by
  have hhead : (yes ++ ':' :: no).head? ≠ some ':' := by
    rw [List.head?_append_of_ne_nil _ hne]
    exact head?_ne_colon hquiet
  have hcut := splitOnce?_append (by decide) rfl hquiet (':' :: no)
  have hhere : splitOnce? ':' {} (':' :: no) = some ([], no) := rfl
  rw [hcloses, hhere] at hcut
  rw [parse_question_of_ne hcondition hgap hsolid hhead, hcut]
  simp only [Option.map_some, List.append_nil]

theorem parse_colonless (hcondition : Operand [['?']] condition) (hgap : Text.Blank gap)
    (hsolid : Text.Solid (condition ++ (gap ++ '?' :: yes)))
    (hquiet : quiet [[':']] {} (some '?') yes = true) :
    Expr.parse (condition ++ (gap ++ '?' :: yes)) =
      .guarded (Expr.parse condition) (Expr.parse yes) := by
  have hcut := splitOnce?_append (by decide) rfl hquiet []
  have hend : splitOnce? ':' (after {} yes) [] = none := rfl
  rw [hend, List.append_nil] at hcut
  rw [parse_question_of_ne hcondition hgap hsolid (head?_ne_colon hquiet), hcut]
  rfl

variable {a b c d : List Char}

/-- A colon that is the first one ends what stands if the condition holds. -/
theorem parse_colon_at (hcondition : Operand [['?']] condition) (hyes : Operand [[':']] yes)
    (ha : Text.Blank a) (hb : Text.Blank b) (hc : Text.Blank c)
    (hsolid : Text.Solid (condition ++ (a ++ '?' :: (b ++ (yes ++ (c ++ ':' :: no)))))) :
    Expr.parse (condition ++ (a ++ '?' :: (b ++ (yes ++ (c ++ ':' :: no))))) =
      .conditional (Expr.parse condition) (Expr.parse yes) (Expr.parse no) := by
  have hquiet : quiet [[':']] {} (some '?') ((b ++ yes) ++ c) = true := by
    refine quiet_append (quiet_blank_operand (by decide) hb hyes _) ?_
    rw [after_append, after_blank hb, hyes.closes]
    exact quiet_blank hc (by decide) _
  have hcloses : after {} ((b ++ yes) ++ c) = {} := by
    rw [after_append, after_append, after_blank hb, hyes.closes, after_blank hc]
  have hne : (b ++ yes) ++ c ≠ [] := by simp [hyes.ne_nil]
  have hread : Expr.parse ((b ++ yes) ++ c) = Expr.parse yes := by
    rw [List.append_assoc, parse_blank_append hb, parse_append_blank hyes.solid hc]
  simp only [← List.append_assoc yes, ← List.append_assoc b] at hsolid ⊢
  rw [parse_colon hcondition ha hsolid hne hquiet hcloses, hread]

theorem parse_conditional (hcondition : Operand [['?']] condition) (hyes : Operand [[':']] yes)
    (hno : Text.Solid no) (ha : Text.Blank a) (hb : Text.Blank b) (hc : Text.Blank c)
    (hd : Text.Blank d) :
    Expr.parse (condition ++ (a ++ '?' :: (b ++ (yes ++ (c ++ ':' :: (d ++ no)))))) =
      .conditional (Expr.parse condition) (Expr.parse yes) (Expr.parse no) := by
  have hsolid := hcondition.solid.append_append hno (a ++ '?' :: (b ++ (yes ++ (c ++ ':' :: d))))
  simp only [List.append_assoc, List.cons_append] at hsolid
  rw [parse_colon_at hcondition hyes ha hb hc hsolid, parse_blank_append hd]

theorem parse_guarded (hcondition : Operand [['?']] condition) (hyes : Operand [[':']] yes)
    (ha : Text.Blank a) (hb : Text.Blank b) :
    Expr.parse (condition ++ (a ++ '?' :: (b ++ yes))) =
      .guarded (Expr.parse condition) (Expr.parse yes) := by
  have hsolid := hcondition.solid.append_append hyes.solid (a ++ '?' :: b)
  simp only [List.append_assoc, List.cons_append] at hsolid
  rw [parse_colonless hcondition ha hsolid (quiet_blank_operand (by decide) hb hyes _),
    parse_blank_append hb]

theorem parse_elvis (hcondition : Operand [['?']] condition) (hno : Text.Solid no)
    (ha : Text.Blank a) (hb : Text.Blank b) :
    Expr.parse (condition ++ (a ++ '?' :: ':' :: (b ++ no))) =
      .elvis (Expr.parse condition) (Expr.parse no) := by
  have hsolid := hcondition.solid.append_append hno (a ++ '?' :: ':' :: b)
  simp only [List.append_assoc, List.cons_append] at hsolid
  rw [parse_default hcondition ha hsolid, parse_blank_append hb]

end Conditions

/-! ## What is cut -/

/-- The operators that an expression is cut at. A colon is looked for only behind a question
mark. -/
def cutters : List (List Char) :=
  [['?']] ++ ([['o', 'r']] ++ ([['a', 'n', 'd']] ++ (Expr.equalityOperators.map Prod.fst ++
    (Expr.relationOperators.map Prod.fst ++ [['+']]))))

theorem cutters_subset : cutters ⊆ allOperators := by decide

theorem exists_cutterHead (o : List Char) (ho : o ∈ cutters) :
    ∃ d ∈ operatorHeads, ∃ rest, o = d :: rest :=
  exists_operatorHead o (cutters_subset ho)

theorem stands_head {c : Char} {cs : List Char} {n : Nesting} (hc : c ∉ operatorHeads)
    (previous : Option Char) :
    stands cutters n previous (c :: cs) = stands cutters (n.step c) (some c) cs := by
  have hnone (p : Char) : cutters.any (operatorAt p (c :: cs)) = false := by
    rw [List.any_eq_false]
    intro o ho
    have hat := operatorAt_append [] (mayStand_of_not_mem hc p cs o (cutters_subset ho))
    rw [List.append_nil] at hat
    rw [hat]
    exact Bool.false_ne_true
  rw [stands]
  cases previous <;> simp [hnone]

/-- The operand that is evaluated before anything else. -/
def Expr.first? : Expr → Option Expr
  | not e | add e _ | compare _ _ e _ | equal e _ | differ e _ | and e _ | or e _ | elvis e _
  | conditional e _ _ | guarded e _ => some e
  | literal _ | .variable _ | selected _ | substitution _ | malformed _ => none

/-- Whether a text has an operator behind some operand, wherever it stands. -/
def CutAfter (left cs : List Char) : Prop :=
  left ≠ [] ∧ ∃ o ∈ cutters, ∃ right, cs = left ++ (o ++ right)

theorem cutAfter_of_splitFirst? {α : Type} {operators : List (List Char × α)}
    {left right cs : List Char} {o : List Char × α}
    (h : splitFirst? operators {} none cs = some (left, o, right))
    (hsub : operators.map Prod.fst ⊆ cutters) : CutAfter left cs := by
  obtain ⟨heq, hmem, hne⟩ := splitFirst?_eq_some h
  exact ⟨hne rfl, o.1, hsub (List.mem_map_of_mem hmem), right, by rw [heq, List.append_assoc]⟩

theorem cutAfter_plus {left right cs : List Char}
    (h : splitLast? '+' {} none cs = some (left, right)) : CutAfter left cs := by
  obtain ⟨heq, hne⟩ := splitLast?_eq_some h
  exact ⟨hne rfl, ['+'], by decide, right, heq⟩

/-- A text in which an operator stands is cut at one, and what is before it is evaluated first. -/
theorem exists_cutAfter {cs : List Char} (hsolid : Text.Solid cs)
    (hstands : stands cutters {} none cs = true) :
    ∃ left, CutAfter left cs ∧ (Expr.parse cs).first? = some (Expr.parse left) := by
  have hne := List.isEmpty_eq_false_iff.mpr hsolid.ne_nil
  simp only [cutters, stands_append_operators, Bool.or_eq_true] at hstands
  rw [Expr.parse_eq]
  simp only [hsolid.trim_eq, hne, Bool.false_eq_true, if_false]
  cases hquestion : splitFirst? [(['?'], ())] {} none cs with
  | some cut =>
    refine ⟨cut.1, cutAfter_of_splitFirst? hquestion (by decide), ?_⟩
    split
    · next heq => cases heq; rfl
    · next heq =>
      cases heq
      split <;> rfl
    · contradiction
  | none =>
  cases hor : splitFirst? [(['o', 'r'], ())] {} none cs with
  | some cut => exact ⟨cut.1, cutAfter_of_splitFirst? hor (by decide), rfl⟩
  | none =>
  cases hand : splitFirst? [(['a', 'n', 'd'], ())] {} none cs with
  | some cut => exact ⟨cut.1, cutAfter_of_splitFirst? hand (by decide), rfl⟩
  | none =>
  cases hequality : splitFirst? Expr.equalityOperators {} none cs with
  | some cut =>
    obtain ⟨left, ⟨o, _ | _⟩, right⟩ := cut <;>
      exact ⟨left, cutAfter_of_splitFirst? hequality (by decide), rfl⟩
  | none =>
  cases hrelation : splitFirst? Expr.relationOperators {} none cs with
  | some cut => exact ⟨cut.1, cutAfter_of_splitFirst? hrelation (by decide), rfl⟩
  | none =>
  cases hplus : splitLast? '+' {} none cs with
  | some cut => exact ⟨cut.1, cutAfter_plus hplus, rfl⟩
  | none =>
    rw [splitFirst?_eq_none_iff] at hquestion hor hand hequality hrelation
    rw [splitLast?_eq_none_iff (by decide)] at hplus
    simp only [List.map_cons, List.map_nil] at hquestion hor hand
    simp [hquestion, hor, hand, hequality, hrelation, hplus] at hstands

/-! ## What is not cut -/

theorem uncut_of_quiet {cs : List Char} (h : quiet allOperators {} none cs = true) :
    stands cutters {} none cs = false :=
  stands_of_quiet (quiet_mono h cutters_subset)

/-- How a text is read in which no operator stands. -/
theorem parse_uncut {cs : List Char} (hsolid : Text.Solid cs)
    (hstands : stands cutters {} none cs = false) :
    Expr.parse cs =
      match Expr.negated? cs with
      | some rest => .not (Expr.parse rest)
      | none =>
      match Expr.between? ['$', '{'] '}' cs with
      | some path => .variable (Expr.pathOf path)
      | none =>
      match Expr.between? ['*', '{'] '}' cs with
      | some path => .selected (Expr.pathOf path)
      | none =>
      match Expr.bracketed? cs with
      | some inner => Expr.parse inner
      | none => Expr.atom cs := by
  have hne := List.isEmpty_eq_false_iff.mpr hsolid.ne_nil
  simp only [cutters, stands_append_operators, Bool.or_eq_false_iff] at hstands
  obtain ⟨hquestion, hor, hand, hequality, hrelation, hplus⟩ := hstands
  rw [Expr.parse_eq]
  simp only [hsolid.trim_eq, hne, Bool.false_eq_true, if_false,
    (splitFirst?_eq_none_iff [(['?'], ())]).mpr hquestion,
    (splitFirst?_eq_none_iff [(['o', 'r'], ())]).mpr hor,
    (splitFirst?_eq_none_iff [(['a', 'n', 'd'], ())]).mpr hand,
    (splitFirst?_eq_none_iff Expr.equalityOperators).mpr hequality,
    (splitFirst?_eq_none_iff Expr.relationOperators).mpr hrelation,
    (splitLast?_eq_none_iff (by decide)).mpr hplus]

theorem parse_negation {n : Negation} {operand : List Char} (h : Operand allOperators operand)
    (hnext : ∃ c, operand.head? = some c ∧ c ≠ '=') :
    Expr.parse (n.chars ++ operand) = .not (Expr.parse operand) := by
  have hwhole := operand_negation (n := n) h hnext
  rw [parse_uncut hwhole.solid (uncut_of_quiet (hwhole.quiet none))]
  cases n with
  | sign l =>
    rw [← parse_blank_append l.blank]
    rfl
  | word l =>
    rw [← parse_blank_append l.blank]
    rfl

theorem parse_bracket {cs : List Char} (h : Balanced cs) :
    Expr.parse ('(' :: (cs ++ [')'])) = Expr.parse cs := by
  have hclosed := Closed.bracket h
  have hbetween : Expr.between? ['('] ')' ('(' :: (cs ++ [')'])) = some cs := by
    simp [Expr.between?]
  have hbracketed : Expr.bracketed? ('(' :: (cs ++ [')'])) = some cs := by
    rw [Expr.bracketed?, hbetween, Option.bind_some, if_pos (neverBelow_of_staysAt (h 0).2)]
  rw [parse_uncut hclosed.solid (uncut_of_quiet (hclosed.quiet none)), hbracketed]
  rfl

theorem between?_of_ne {c front back : Char} {fronts cs : List Char} (h : front ≠ c) :
    Expr.between? (front :: fronts) back (c :: cs) = none := by
  simp [Expr.between?, h]

/-- How an operand is read that is no negation, no path and not in brackets. -/
theorem parse_atom {c : Char} {cs : List Char} (h : Operand allOperators (c :: cs))
    (hnot : Expr.negated? (c :: cs) = none) (hc : c ∉ ['$', '*', '(']) :
    Expr.parse (c :: cs) = Expr.atom (c :: cs) := by
  simp only [List.mem_cons, List.not_mem_nil, or_false, not_or] at hc
  obtain ⟨hdollar, hstar, hparen⟩ := hc
  have hbracketed : Expr.bracketed? (c :: cs) = none := by
    rw [Expr.bracketed?, between?_of_ne (Ne.symm hparen), Option.bind_none]
  rw [parse_uncut h.solid (uncut_of_quiet (h.quiet none)), hnot, between?_of_ne (Ne.symm hdollar),
    between?_of_ne (Ne.symm hstar), hbracketed]

end NaturalTemplate
