import NaturalTemplate.Proofs.Expression.Printing

/-!
# Operands

An operand has no white space at its ends and closes what it opens, and some operators are not seen
in it. What is made of operands is one of looser operators: two of them with an operator and white
space between them, a negation, a literal substitution.
-/
namespace NaturalTemplate
open Nesting Grammar

/-! ## White space around an expression -/

namespace Text

variable {cs ds : List Char}

/-- White space only. -/
def Blank (cs : List Char) : Prop := ∀ c ∈ cs, isBlank c = true

theorem trimStart_append_of_blank (h : Blank cs) : trimStart (cs ++ ds) = trimStart ds := by
  rw [trimStart, trimStart, List.dropWhile_append_of_pos h]

theorem trim_append_of_blank (h : Blank cs) : trim (cs ++ ds) = trim ds := by
  rw [trim, trim, trimStart_append_of_blank h]

theorem trimEnd_append_of_blank (h : Blank ds) : trimEnd (cs ++ ds) = trimEnd cs := by
  rw [trimEnd, trimEnd, List.reverse_append, List.dropWhile_append_of_pos]
  intro c hc
  exact h c (List.mem_reverse.mp hc)

theorem Solid.trim_append (h : Solid cs) (hblank : Blank ds) : trim (cs ++ ds) = cs := by
  have hstart : trimStart (cs ++ ds) = cs ++ ds := by
    obtain ⟨⟨c, hhead, hc⟩, -⟩ := h
    obtain ⟨rest, rfl⟩ := List.head?_eq_some_iff.mp hhead
    simp [trimStart, hc]
  rw [trim, hstart, trimEnd_append_of_blank hblank, h.trimEnd_eq]

/-- What is before a solid text does not matter, but for the first character. -/
theorem Solid.cons_append (hds : Solid ds) {c : Char} (cs : List Char) (hc : isBlank c = false) :
    Solid (c :: (cs ++ ds)) := by
  obtain ⟨-, d, hlast, hd⟩ := hds
  obtain ⟨front, rfl⟩ := List.getLast?_eq_some_iff.mp hlast
  refine ⟨⟨c, rfl, hc⟩, d, ?_, hd⟩
  rw [← List.append_assoc, ← List.cons_append, List.getLast?_append]
  rfl

end Text

/-! ## Texts in which operators are not seen -/

/-- What is not seen at the top level of an expression of some level: all looser operators. -/
def Grammar.Level.hidden : Level → List (List Char)
  | .expression => []
  | .disjunction => [['?'], [':']]
  | .conjunction => [['?'], [':'], ['o', 'r']]
  | .equality => [['?'], [':'], ['o', 'r'], ['a', 'n', 'd']]
  | .relation => [['?'], [':'], ['o', 'r'], ['a', 'n', 'd']] ++ Expr.equalityOperators.map Prod.fst
  | .sum =>
    [['?'], [':'], ['o', 'r'], ['a', 'n', 'd']] ++
      (Expr.equalityOperators.map Prod.fst ++ Expr.relationOperators.map Prod.fst)
  | .unary | .atom => allOperators

/-- A text that can be an operand where some operators are looked for. -/
structure Operand (hidden : List (List Char)) (cs : List Char) : Prop where
  solid : Text.Solid cs
  closes : after {} cs = {}
  quiet : ∀ previous, quiet hidden {} previous cs = true

namespace Operand

variable {hidden smaller : List (List Char)} {cs : List Char}

theorem mono (h : Operand hidden cs) (hsub : smaller ⊆ hidden) : Operand smaller cs :=
  ⟨h.solid, h.closes, fun previous => quiet_mono (h.quiet previous) hsub⟩

theorem ne_nil (h : Operand hidden cs) : cs ≠ [] := h.solid.ne_nil

end Operand

theorem Closed.operand {cs : List Char} (h : Closed cs) : Operand allOperators cs :=
  ⟨h.solid, (h.balanced 0).1, h.quiet⟩

/-- At a tighter level more is not seen. -/
theorem Grammar.Level.hidden_mono {l m : Level} (h : l ≤ m) : l.hidden ⊆ m.hidden := by
  cases l <;> cases m <;> first | decide | exact absurd h (by decide)

theorem Grammar.Level.hidden_subset (l : Level) : l.hidden ⊆ allOperators := by
  cases l <;> decide

theorem quiet_cons_of {operators : List (List Char)} {c : Char} {cs : List Char}
    (hplain : c ∉ Balanced.openers) (hmay : ∀ p, ∀ o ∈ operators, mayStand p (c :: cs) o = false)
    (h : quiet operators {} (some c) cs = true) (previous : Option Char) :
    quiet operators {} previous (c :: cs) = true := by
  rw [quiet, Balanced.step_of_not_mem hplain 0, Bool.and_eq_true]
  refine ⟨?_, h⟩
  simp only [Bool.or_eq_true, Option.all_eq_true, List.all_eq_true, Bool.not_eq_true']
  exact .inr fun p _ o ho => hmay p o ho

section Blank

variable {cs ds : List Char} {operators : List (List Char)}

theorem Nesting.Balanced.of_blank (h : Text.Blank cs) : Balanced cs :=
  .of_plain fun c hc => (plain_of_isBlank (h c hc)).2.1

theorem after_blank (h : Text.Blank cs) : after {} cs = {} := (Balanced.of_blank h 0).1

theorem quiet_blank_append (h : Text.Blank cs)
    (hds : ∀ previous, quiet allOperators {} previous ds = true) (previous : Option Char) :
    quiet allOperators {} previous (cs ++ ds) = true := by
  induction cs generalizing previous with
  | nil => exact hds previous
  | cons c cs ih =>
    obtain ⟨hhead, hplain, -⟩ := plain_of_isBlank (h c List.mem_cons_self)
    exact quiet_cons hhead hplain (ih (fun d hd => h d (List.mem_cons_of_mem c hd)) _) previous

theorem quiet_blank (h : Text.Blank cs) (hsub : operators ⊆ allOperators)
    (previous : Option Char) : quiet operators {} previous cs = true := by
  have hquiet : quiet allOperators {} previous (cs ++ []) = true :=
    quiet_blank_append h (fun _ => rfl) previous
  rw [List.append_nil] at hquiet
  exact quiet_mono hquiet hsub

theorem quiet_blank_operand (hsub : operators ⊆ allOperators) (hcs : Text.Blank cs)
    (hds : Operand operators ds) (previous : Option Char) :
    quiet operators {} previous (cs ++ ds) = true := by
  refine quiet_append (quiet_blank hcs hsub previous) ?_
  rw [after_blank hcs]
  exact hds.quiet _

/-- White space is no equals sign. -/
theorem exists_head_append (hcs : Text.Blank cs) (hds : ∃ c, ds.head? = some c ∧ c ≠ '=') :
    ∃ c, (cs ++ ds).head? = some c ∧ c ≠ '=' := by
  cases cs with
  | nil => exact hds
  | cons c cs =>
    refine ⟨c, rfl, ?_⟩
    rintro rfl
    exact (plain_of_isBlank (hcs '=' List.mem_cons_self)).1 (by decide)

end Blank

theorem lastOf_of_getLast? {previous : Option Char} {cs : List Char} {c : Char}
    (h : cs.getLast? = some c) : lastOf previous cs = some c := by
  obtain ⟨front, rfl⟩ := List.getLast?_eq_some_iff.mp h
  rw [lastOf, List.foldl_append]
  rfl

theorem exists_lastOf_of_ne_nil {cs : List Char} (h : cs ≠ []) (previous : Option Char) :
    ∃ p, lastOf previous cs = some p :=
  ⟨_, lastOf_of_getLast? (List.getLast?_eq_some_getLast h)⟩

/-! ## Operators -/

namespace Grammar.Operator

theorem plain_chars (o : Operator) : ∀ c ∈ o.chars, c ∉ Balanced.openers := by
  cases o with
  | or | and | add => exact Text.forall_of_all (by decide)
  | equal word | differ word => cases word <;> exact Text.forall_of_all (by decide)
  | order relation word =>
    cases relation <;> cases word <;> exact Text.forall_of_all (by decide)

theorem after_chars (o : Operator) : after {} o.chars = {} :=
  (Balanced.of_plain o.plain_chars 0).1

/-- No looser operator is seen in the spelling of an operator, if no equals sign follows it. -/
theorem quiet_chars (o : Operator) {previous : Option Char} {rest : List Char}
    (hnext : ∃ c, rest.head? = some c ∧ c ≠ '=')
    (hrest : ∀ previous, quiet o.level.hidden {} previous rest = true) :
    quiet o.level.hidden {} previous (o.chars ++ rest) = true := by
  cases o with
  | or | and | add =>
    refine quiet_append (by cases previous <;> rfl) ?_
    rw [after_chars]
    exact hrest _
  | equal word | differ word =>
    cases word <;> refine quiet_append (by cases previous <;> rfl) ?_ <;> rw [after_chars] <;>
      exact hrest _
  | order relation word =>
    obtain ⟨c, hhead, hc⟩ := hnext
    obtain ⟨tail, rfl⟩ := List.head?_eq_some_iff.mp hhead
    -- Only an equals sign at the end of an operator can be the beginning of another one.
    have hequals (previous : Option Char) :
        quiet (Level.hidden .relation) {} previous ('=' :: c :: tail) = true := by
      have hplain : '=' ∉ Balanced.openers := by decide
      have hmay : ∀ p, ∀ o ∈ Level.hidden .relation, mayStand p ('=' :: c :: tail) o = false := by
        simp [Level.hidden, Expr.equalityOperators, mayStand, hc, Ne.symm hc]
      exact quiet_cons_of hplain hmay (hrest _) previous
    cases word with
    | true =>
      cases relation <;> refine quiet_append (by cases previous <;> rfl) ?_ <;> exact hrest _
    | false =>
      cases relation with
      | greaterEqual =>
        show quiet _ _ _ (['>'] ++ '=' :: c :: tail) = true
        exact quiet_append (by cases previous <;> rfl) (hequals _)
      | lessEqual =>
        show quiet _ _ _ (['<'] ++ '=' :: c :: tail) = true
        exact quiet_append (by cases previous <;> rfl) (hequals _)
      | greater | less =>
        refine quiet_append (by cases previous <;> rfl) ?_
        exact hrest _

end Grammar.Operator

/-! ## What is made of operands -/

section Binary

variable {o : Operator} {left right : List Char} (gap : Gap o)

namespace Grammar

/-- What comes between two operands. -/
def Gap.chars {o : Operator} (gap : Gap o) : List Char :=
  gap.before.chars ++ (o.chars ++ gap.after.chars)

end Grammar

theorem lastOf_before (hne : left ≠ []) :
    ∃ p, lastOf none (left ++ gap.before.chars) = some p ∧
      (o.isWord = true → Text.isAsciiBlank p = true) := by
  cases hword : o.isWord with
  | true =>
    obtain ⟨⟨c, hlast, hc⟩, -⟩ := gap.apart hword
    refine ⟨c, lastOf_of_getLast? ?_, fun _ => hc⟩
    rw [List.getLast?_append, hlast]
    rfl
  | false =>
    obtain ⟨p, hp⟩ := exists_lastOf_of_ne_nil
      (List.append_ne_nil_of_left_ne_nil hne gap.before.chars) none
    exact ⟨p, hp, by simp⟩

/-- Two operands in what is an operand of looser operators. -/
theorem operand_binary (hleft : Operand o.leftLevel.hidden left)
    (hright : Operand o.rightLevel.hidden right)
    (hnext : ∃ c, (gap.after.chars ++ right).head? = some c ∧ c ≠ '=') :
    Operand o.level.hidden
      (left ++ (gap.before.chars ++ (o.chars ++ (gap.after.chars ++ right)))) where
  solid := by
    have hsolid := hleft.solid.append_append hright.solid gap.chars
    simpa [Gap.chars] using hsolid
  closes := by
    simp only [after_append, hleft.closes, after_blank gap.before.blank, o.after_chars,
      after_blank gap.after.blank, hright.closes]
  quiet previous := by
    have hsub : o.level.hidden ⊆ o.leftLevel.hidden := Level.hidden_mono o.level_le_leftLevel
    have hsub' : o.level.hidden ⊆ o.rightLevel.hidden := Level.hidden_mono o.level_le_rightLevel
    refine quiet_append (quiet_mono (hleft.quiet previous) hsub) ?_
    rw [hleft.closes]
    refine quiet_append (quiet_blank gap.before.blank o.level.hidden_subset _) ?_
    rw [after_blank gap.before.blank]
    refine o.quiet_chars hnext fun p => ?_
    refine quiet_append (quiet_blank gap.after.blank o.level.hidden_subset _) ?_
    rw [after_blank gap.after.blank]
    exact quiet_mono (hright.quiet _) hsub'

end Binary

section Negations

variable {n : Negation} {operand : List Char}

theorem Grammar.Negation.plain_chars (n : Negation) : ∀ c ∈ n.chars, c ∉ Balanced.openers := by
  have hblank (l : Layout) : ∀ c ∈ l.chars, c ∉ Balanced.openers := fun c hc =>
    (plain_of_isBlank (l.blank c hc)).2.1
  cases n with
  | sign l => exact List.forall_mem_cons.mpr ⟨by decide, hblank l⟩
  | word l =>
    have hword : ∀ c ∈ ['n', 'o', 't', ' '], c ∉ Balanced.openers := Text.forall_of_all (by decide)
    exact List.forall_mem_append.mpr ⟨hword, hblank l⟩

/-- A negation in which no operator is seen, as no equals sign follows it. -/
theorem operand_negation (h : Operand allOperators operand)
    (hnext : ∃ c, operand.head? = some c ∧ c ≠ '=') :
    Operand allOperators (n.chars ++ operand) where
  solid := by
    cases n with
    | sign l => exact h.solid.cons_append l.chars (by decide)
    | word l => exact h.solid.cons_append ('o' :: 't' :: ' ' :: l.chars) (by decide)
  closes := by
    rw [after_append, (Balanced.of_plain n.plain_chars 0).1, h.closes]
  quiet previous := by
    cases n with
    | sign l =>
      obtain ⟨c, hhead, hc⟩ := exists_head_append l.blank hnext
      obtain ⟨tail, htail⟩ := List.head?_eq_some_iff.mp hhead
      have hplain : '!' ∉ Balanced.openers := by decide
      refine quiet_cons_of hplain (fun p => ?_)
        (quiet_blank_operand (List.Subset.refl _) l.blank h _) previous
      rw [htail]
      simp [allOperators, Expr.equalityOperators, Expr.relationOperators, mayStand, hc, Ne.symm hc]
    | word l =>
      have hword : quiet allOperators {} previous ['n', 'o', 't', ' '] = true := by
        cases previous <;> rfl
      show quiet _ _ _ (['n', 'o', 't', ' '] ++ (l.chars ++ operand)) = true
      exact quiet_append hword (quiet_blank_operand (List.Subset.refl _) l.blank h _)

end Negations

/-! ## Literal substitutions -/

/-- The brackets that a text opens, less those that it closes. -/
def Text.height (cs : List Char) : Int :=
  cs.countP (fun c => c = '{' ∨ c = '(') - cs.countP fun c => c = '}' ∨ c = ')'

theorem Text.height_append (cs ds : List Char) : height (cs ++ ds) = height cs + height ds := by
  simp only [height, List.countP_append]
  push_cast
  ring

theorem Text.height_cons (c : Char) (cs : List Char) : height (c :: cs) = height [c] + height cs :=
  height_append [c] cs

section Substitutions

variable {cs : List Char} {depth : Int}

theorem step_substituting {c : Char} (hc : c ≠ '|') :
    step { substituting := true, depth } c =
      { substituting := true, depth := depth + Text.height [c] } := by
  by_cases hopen : c = '{' ∨ c = '('
  · obtain rfl | rfl := hopen <;> simp [step, Text.height]
  · by_cases hclose : c = '}' ∨ c = ')'
    · obtain rfl | rfl := hclose <;> simp [step, Text.height, Int.sub_eq_add_neg]
    · simp [step, Text.height, hc, hopen, hclose]

/-- Between bars only the brackets are counted. -/
theorem after_substituting (hbarless : '|' ∉ cs) :
    after { substituting := true, depth } cs =
      { substituting := true, depth := depth + Text.height cs } := by
  induction cs generalizing depth with
  | nil => simp [Text.height]
  | cons c cs ih =>
    rw [List.mem_cons, not_or] at hbarless
    rw [after_cons, step_substituting (Ne.symm hbarless.1), ih hbarless.2, Text.height_cons c cs,
      Int.add_assoc]

/-- Between bars no operator is seen. -/
theorem quiet_barless {operators : List (List Char)} (hbarless : '|' ∉ cs)
    (previous : Option Char) :
    quiet operators { substituting := true, depth } previous cs = true := by
  induction cs generalizing depth previous with
  | nil => rfl
  | cons c cs ih =>
    rw [List.mem_cons, not_or] at hbarless
    rw [quiet, step_substituting (Ne.symm hbarless.1), ih hbarless.2]
    simp [atTop]

theorem quiet_substituting {operators : List (List Char)} (hbarless : '|' ∉ cs)
    (previous : Option Char) :
    quiet operators { substituting := true, depth } previous (cs ++ ['|']) = true := by
  refine quiet_append (quiet_barless hbarless previous) ?_
  rw [after_substituting hbarless]
  simp [quiet, atTop]

end Substitutions

theorem Grammar.Substitution.operand (s : Substitution) : Operand allOperators s.chars where
  solid := Text.solid_of_ends _ (by decide) (by decide)
  closes := by
    have hopen : step {} '|' = { substituting := true } := rfl
    have hclose : step { substituting := true } '|' = {} := rfl
    have heven : Text.height s.text = 0 := Int.sub_eq_zero.mpr (congrArg Nat.cast s.even)
    have hbarless : '|' ∉ s.text := s.barless
    have htext : after { substituting := true } s.text = { substituting := true } := by
      rw [after_substituting hbarless, heven, Int.zero_add]
    rw [Substitution.chars, after_cons, hopen, after_append, htext, after_cons, hclose, after_nil]
  quiet previous := by
    have hopen : step {} '|' = { substituting := true } := rfl
    have hbarless : '|' ∉ s.text := s.barless
    rw [Substitution.chars, quiet_head (by decide), hopen, quiet_substituting hbarless]

end NaturalTemplate
