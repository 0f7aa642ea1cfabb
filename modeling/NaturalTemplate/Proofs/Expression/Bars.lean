import Mathlib.Data.List.DropRight
import NaturalTemplate.Proofs.Expression.Derivation
import NaturalTemplate.Proofs.Expression.Substitution

/-!
# Literal substitutions as operands

A bar ends a literal substitution only where no bracket is open. So a text between bars is an
operand if it closes as many brackets as it opens, and otherwise the bar behind it is more of the
text, and so is all that follows. In brackets bars do not count, and the text between them is
searched for operators like any other.
-/
namespace NaturalTemplate
open Nesting Grammar

namespace Grammar.Plain

variable (p : Plain) (cs : List Quoted)

def text : String := String.ofList p.chars

def bars : List Char := '|' :: (p.chars ++ ['|'])

/-- `|text| + 'other'`, or with another operator -/
def binary (o : Operator) : List Char :=
  p.bars ++ ' ' :: (o.chars ++ ' ' :: (Atom.string cs).chars)

/-- `|text| : 'other'` -/
def branches : List Char := p.bars ++ ' ' :: ':' :: ' ' :: (Atom.string cs).chars

/-- `true ? |text| : 'other'` -/
def choice : List Char := (Atom.bool true).chars ++ ' ' :: '?' :: ' ' :: p.branches cs

/-- `(|text|)` -/
def bracketed : List Char := '(' :: (p.bars ++ [')'])

/-- As many brackets are closed in the text as opened. -/
def Even : Prop := Text.height p.chars = 0

/-- No bracket is closed in the text that is not opened in it, and no operator is seen in it from
outside of a bracket in front of it. -/
structure Sheltered : Prop where
  opened : ∀ front, front <+: p.chars → 0 ≤ Text.height front
  uncut : stands cutters { depth := 1 } (some '|') p.chars = false

end Grammar.Plain

/-! ## Texts that close as many brackets as they open -/

namespace Grammar.Plain

variable {p : Plain} {cs : List Quoted}

theorem runAll_parts (p : Plain) : Part.runAll p.parts = pure p.text := by
  have hparts := runAll_chars p.chars []
  rw [List.append_nil] at hparts
  simp [parts, hparts, Part.runAll, text]

def substitution (p : Plain) (h : p.Even) : Substitution where
  parts := p.parts
  apart := p.apart_parts
  barless := by
    rw [p.chars_parts]
    exact p.barless
  even := by
    rw [p.chars_parts]
    exact Int.ofNat_inj.mp (Int.sub_eq_zero.mp h)

theorem chars_substitution (h : p.Even) : (p.substitution h).chars = p.bars := by
  rw [Substitution.chars, Substitution.text, substitution, p.chars_parts, bars]

theorem run_substitution (h : p.Even) :
    (Atom.substitution (p.substitution h)).run = pure (.string p.text) := by
  simp [Atom.run, substitution, p.runAll_parts]

def binaryPhrase (h : p.Even) (o : Operator) (cs : List Quoted) : Phrase .expression :=
  .tighter (Level.expression_le o.level) <|
    .binary o (Atom.substitution (p.substitution h)).phrase (.spaces o) (Atom.string cs).phrase

theorem chars_binaryPhrase (h : p.Even) (o : Operator) :
    (binaryPhrase h o cs).chars = p.binary cs o := by
  simp only [binaryPhrase, Atom.phrase, Phrase.chars, Gap.spaces, Layout.space, binary]
  rw [show (Atom.substitution (p.substitution h)).chars = p.bars from chars_substitution h]
  rfl

def choicePhrase (h : p.Even) (cs : List Quoted) : Phrase .expression :=
  .conditional (Atom.bool true).phrase .space .space
    (Atom.substitution (p.substitution h)).phrase .space .space (Atom.string cs).phrase

theorem chars_choicePhrase (h : p.Even) : (choicePhrase h cs).chars = p.choice cs := by
  simp only [choicePhrase, Atom.phrase, Phrase.chars, Layout.space, choice, branches]
  rw [show (Atom.substitution (p.substitution h)).chars = p.bars from chars_substitution h]
  rfl

end Grammar.Plain

/-- A derivation that has a value, whatever the context is. -/
theorem Evaluator.evaluate_of_run {q : Phrase .expression} {v : Value}
    (hsheltered : q.Sheltered false) (hbracketed : q.Bracketed) (hrun : q.run = pure v)
    (c : Context) : Evaluator.standard.evaluate (String.ofList q.chars) c = (.ok v, c) := by
  have hread : Expr.parse (String.ofList q.chars).toList = q.toExpr := by
    rw [String.toList_ofList]
    exact (Phrase.parse_chars_iff hsheltered).mpr hbracketed
  rw [evaluate_of_parse hread, hrun]
  rfl

namespace Grammar.Plain

variable {p : Plain} {cs : List Quoted}

theorem evaluate_binary (h : p.Even) (cs : List Quoted) {o : Operator} {v : Value}
    (hrun : o.run (pure (.string p.text)) (pure (.string (String.ofList (cs.map Quoted.meant)))) =
      pure v) (c : Context) :
    Evaluator.standard.evaluate (String.ofList (p.binary cs o)) c = (.ok v, c) := by
  rw [← chars_binaryPhrase h o]
  refine Evaluator.evaluate_of_run ?_ ?_ ?_ c
  · exact ⟨fun hfalse => absurd hfalse (by decide), trivial⟩
  · exact ⟨trivial, trivial⟩
  · rw [← hrun, ← run_substitution h]
    rfl

theorem evaluate_choice (h : p.Even) (cs : List Quoted) (c : Context) :
    Evaluator.standard.evaluate (String.ofList (p.choice cs)) c = (.ok (.string p.text), c) := by
  rw [← chars_choicePhrase h]
  refine Evaluator.evaluate_of_run ?_ ?_ ?_ c
  · exact ⟨trivial, fun hfalse => absurd hfalse (by decide), trivial⟩
  · exact ⟨trivial, trivial, trivial, rfl⟩
  · rw [← run_substitution h]
    rfl

end Grammar.Plain

/-! ## Texts with brackets left over -/

/-- An expression of which the evaluation ends where it begins, as something there cannot be
read. -/
def Expr.Stuck (e : Expr) (cause : SyntaxError) : Prop :=
  ∀ c, e.eval c = .error (.malformed cause) ∧ e.reads c = []

theorem Expr.stuck_malformed (cause : SyntaxError) : (malformed cause).Stuck cause :=
  fun _ => ⟨rfl, rfl⟩

theorem Expr.Stuck.of_first {d e : Expr} {cause : SyntaxError} (hd : d.Stuck cause)
    (h : e.first? = some d) : e.Stuck cause := by
  intro c
  obtain ⟨heval, hreads⟩ := hd c
  cases e <;> simp only [first?, Option.some.injEq, reduceCtorEq] at h <;> subst h <;>
    simp [eval, reads, evalsTo, heval, hreads] <;> rfl

theorem Evaluator.evaluate_of_stuck {cs : List Char} {cause : SyntaxError}
    (h : (Expr.parse cs).Stuck cause) (c : Context) :
    Evaluator.standard.evaluate (String.ofList cs) c =
      (.error (.expression (String.ofList cs) (.malformed cause)), c) := by
  obtain ⟨heval, hreads⟩ := h c
  simp only [evaluate, standard, String.toList_ofList, heval, hreads]
  rfl

section Unread

variable {cs : List Char}

/-- What begins with a bar or a bracket is no literal, but for a literal substitution. -/
theorem atom_unrecognized {c : Char} (hc : c ∈ ['|', '('])
    (hbars : Expr.between? ['|'] '|' (c :: cs) = none) :
    Expr.atom (c :: cs) = .malformed (.unrecognized (String.ofList (c :: cs))) := by
  have hno : ∀ d ∈ ['|', '('], Decimal.isNumberChar d = false ∧ d ∉ ['\'', 't', 'f', 'n'] ∧
      (d.isDigit || d == '-') = false := Text.forall_of_all (by decide)
  obtain ⟨hnumber, hmem, hdigit⟩ := hno c hc
  simp only [List.mem_cons, List.not_mem_nil, or_false, not_or] at hmem
  obtain ⟨hquote, ht, hf, hn⟩ := hmem
  have hword {d : Char} {ds : List Char} (hd : c ≠ d) : c :: cs ≠ d :: ds := fun heq =>
    hd (List.cons.inj heq).1
  have hinteger : Decimal.int64? (c :: cs) = none := by
    rw [Option.eq_none_iff_forall_ne_some]
    intro n hread
    have hchar := Decimal.isNumberChar_of_int64? hread c List.mem_cons_self
    rw [hnumber] at hchar
    exact Bool.false_ne_true hchar
  rw [Expr.atom, hbars, between?_of_ne (Ne.symm hquote)]
  simp only [if_neg (hword ht), if_neg (hword hf), if_neg (hword hn), hinteger, List.head?_cons,
    Option.map_some, Option.getD_some, hdigit, Bool.false_eq_true, if_false]

/-- A bar with no bar at the other end. -/
theorem parse_unclosed (hsolid : Text.Solid ('|' :: cs))
    (hquiet : quiet allOperators {} none ('|' :: cs) = true) (hend : cs.getLast? ≠ some '|') :
    Expr.parse ('|' :: cs) = .malformed (.unrecognized (String.ofList ('|' :: cs))) := by
  have hbars : Expr.between? ['|'] '|' ('|' :: cs) = none := by
    simp [Expr.between?, hend]
  rw [parse_uncut hsolid (uncut_of_quiet hquiet)]
  simp only [Expr.negated?, Expr.bracketed?, between?_of_ne (by decide : '$' ≠ '|'),
    between?_of_ne (by decide : '*' ≠ '|'), between?_of_ne (by decide : '(' ≠ '|'),
    Option.bind_none]
  exact atom_unrecognized (by decide) hbars

end Unread

namespace Grammar.Plain

variable {p : Plain} {cs : List Quoted} {rest : List Char}

theorem bars_append (p : Plain) (rest : List Char) :
    p.bars ++ rest = '|' :: (p.chars ++ '|' :: rest) := by
  simp [bars]

/-- A bar behind brackets that are left over does not end the substitution. -/
theorem quiet_uneven (h : ¬ p.Even) (hrest : '|' ∉ rest) (previous : Option Char) :
    quiet allOperators {} previous (p.bars ++ rest) = true := by
  have hopen : step {} '|' = { substituting := true } := rfl
  have hbar : step { substituting := true, depth := 0 + Text.height p.chars } '|' =
      { substituting := true, depth := 0 + Text.height p.chars } := by
    have hheight : Text.height p.chars ≠ 0 := h
    simp [step, hheight]
  rw [bars_append, quiet_head (by decide), hopen]
  refine quiet_append (quiet_barless p.barless _) ?_
  rw [after_substituting p.barless, quiet, hbar, quiet_barless hrest]
  simp [atTop]

theorem parse_uneven {gap last : List Char} (h : ¬ p.Even) (hbarless : '|' ∉ gap ++ last)
    (hlast : Text.Solid last) :
    Expr.parse (p.bars ++ (gap ++ last)) =
      .malformed (.unrecognized (String.ofList (p.bars ++ (gap ++ last)))) := by
  have hquiet := quiet_uneven h hbarless none
  have hsolid := hlast.cons_append (c := '|') (p.chars ++ '|' :: gap) (by decide)
  have hend : (p.chars ++ '|' :: (gap ++ last)).getLast? ≠ some '|' := by
    obtain ⟨-, d, hd, -⟩ := hlast
    have hmem : d ∈ gap ++ last := List.mem_append_right _ (List.mem_of_getLast? hd)
    rw [List.getLast?_append, List.getLast?_cons, List.getLast?_append, hd]
    rintro ⟨⟩
    exact hbarless hmem
  simp only [List.append_assoc, List.cons_append] at hsolid
  rw [bars_append] at hquiet ⊢
  exact parse_unclosed hsolid hquiet hend

theorem evaluate_binary_uneven (h : ¬ p.Even) (hcs : '|' ∉ cs.flatMap Quoted.chars) (o : Operator)
    (c : Context) :
    Evaluator.standard.evaluate (String.ofList (p.binary cs o)) c =
      (.error (.expression (String.ofList (p.binary cs o))
        (.malformed (.unrecognized (String.ofList (p.binary cs o))))), c) := by
  have hoperator : '|' ∉ o.chars := fun hmem => o.plain_chars '|' hmem (by decide)
  have hbarless : '|' ∉ (' ' :: (o.chars ++ [' '])) ++ (Atom.string cs).chars := by
    simp [Atom.chars, hoperator, hcs]
  have hread := parse_uneven h hbarless (closed_string cs).solid
  have hchars : p.bars ++ ((' ' :: (o.chars ++ [' '])) ++ (Atom.string cs).chars) =
      p.binary cs o := by
    simp [binary]
  rw [hchars] at hread
  refine Evaluator.evaluate_of_stuck ?_ c
  rw [hread]
  exact Expr.stuck_malformed _

theorem evaluate_choice_uneven (h : ¬ p.Even) (hcs : '|' ∉ cs.flatMap Quoted.chars)
    (c : Context) :
    Evaluator.standard.evaluate (String.ofList (p.choice cs)) c =
      (.error (.expression (String.ofList (p.choice cs))
        (.malformed (.unrecognized (String.ofList (p.branches cs))))), c) := by
  have hbarless : '|' ∉ [' ', ':', ' '] ++ (Atom.string cs).chars := by
    simp [Atom.chars, hcs]
  have hcases : Expr.parse (p.branches cs) =
      .malformed (.unrecognized (String.ofList (p.branches cs))) :=
    parse_uneven h hbarless (closed_string cs).solid
  have hspace : Text.Blank [' '] := Layout.space.blank
  have hquiet : quiet [[':']] {} (some '?') ([' '] ++ p.branches cs) = true :=
    quiet_mono (quiet_blank_append hspace (quiet_uneven h hbarless) _) (by decide)
  have hsolid : Text.Solid (p.choice cs) := by
    have hends := (Atom.bool true).operand.solid.append_append (Atom.string cs).operand.solid
      (' ' :: '?' :: ' ' :: (p.bars ++ [' ', ':', ' ']))
    simpa [choice, branches] using hends
  have hread : Expr.parse (p.choice cs) = .guarded (.literal (.bool true))
      (.malformed (.unrecognized (String.ofList (p.branches cs)))) := by
    have hcondition : Operand [['?']] (Atom.bool true).chars :=
      (Atom.bool true).operand.mono (by decide)
    have hyes : Expr.parse ([' '] ++ p.branches cs) = Expr.parse (p.branches cs) :=
      parse_blank_append hspace
    rw [← hcases, ← hyes]
    exact (parse_colonless hcondition hspace hsolid hquiet).trans
      (congrArg (Expr.guarded · _) (Atom.bool true).parse_chars)
  refine Evaluator.evaluate_of_stuck ?_ c
  rw [hread]
  exact fun _ => ⟨rfl, rfl⟩

end Grammar.Plain

/-! ## Bars in brackets -/

section Unread

variable {cs : List Char}

/-- White space at the end does not matter. -/
theorem exists_solid {front : List Char} (hfront : Text.Solid front) (cs : List Char) :
    ∃ ds, ds <+: cs ∧ Text.Solid (front ++ ds) ∧
      Expr.parse (front ++ cs) = Expr.parse (front ++ ds) := by
  have hsolid : Text.Solid (front ++ cs.rdropWhile Text.isBlank) := by
    obtain ⟨⟨c, hhead, hc⟩, d, hlast, hd⟩ := hfront
    refine ⟨⟨c, by rw [List.head?_append, hhead]; rfl, hc⟩, ?_⟩
    by_cases hnil : cs.rdropWhile Text.isBlank = []
    · rw [hnil, List.append_nil]
      exact ⟨d, hlast, hd⟩
    · rw [List.getLast?_append, List.getLast?_eq_some_getLast hnil]
      exact ⟨_, rfl, Bool.not_eq_true _ ▸ List.rdropWhile_last_not _ _ hnil⟩
  have hgap : Text.Blank (cs.rtakeWhile Text.isBlank) := fun c hc => List.mem_rtakeWhile_imp hc
  refine ⟨cs.rdropWhile Text.isBlank, List.rdropWhile_prefix _ _, hsolid, ?_⟩
  rw [← parse_append_blank hsolid hgap, List.append_assoc, List.rdropWhile_append_rtakeWhile]

/-- What is behind a bar is not read if there is no other bar. -/
theorem stuck_bar (h : '|' ∉ cs) : ∃ cause, (Expr.parse ('|' :: cs)).Stuck cause := by
  have hbar : Text.Solid ['|'] := ⟨⟨'|', rfl, by decide⟩, '|', rfl, by decide⟩
  obtain ⟨ds, hpre, hsolid, hread⟩ : ∃ ds, ds <+: cs ∧ Text.Solid ('|' :: ds) ∧
      Expr.parse ('|' :: cs) = Expr.parse ('|' :: ds) := exists_solid hbar cs
  have hds : '|' ∉ ds := fun hmem => h (hpre.subset hmem)
  have hopen : step {} '|' = { substituting := true } := rfl
  have hquiet : quiet allOperators {} none ('|' :: ds) = true := by
    rw [quiet_head (by decide), hopen, quiet_barless hds]
  have hend : ds.getLast? ≠ some '|' := fun hlast => hds (List.mem_of_getLast? hlast)
  refine ⟨.unrecognized (String.ofList ('|' :: ds)), ?_⟩
  rw [hread, parse_unclosed hsolid hquiet hend]
  exact Expr.stuck_malformed _

/-- An operator behind a bracket and a bar is behind both. -/
theorem CutAfter.bracket {left : List Char} (h : CutAfter left ('(' :: '|' :: cs)) :
    ∃ front, left = '(' :: '|' :: front ∧
      ∃ o ∈ cutters, ∃ right, cs = front ++ (o ++ right) := by
  obtain ⟨hne, o, ho, right, heq⟩ := h
  obtain ⟨d, hd, rest, rfl⟩ := exists_cutterHead o ho
  match left with
  | [] => exact absurd rfl hne
  | [_] =>
    simp only [List.cons_append, List.nil_append, List.cons.injEq] at heq
    obtain ⟨-, rfl, -⟩ := heq
    exact absurd hd (by decide)
  | _ :: _ :: front =>
    simp only [List.cons_append, List.cons.injEq] at heq
    obtain ⟨rfl, rfl, heq⟩ := heq
    exact ⟨front, rfl, d :: rest, ho, right, heq⟩

theorem exists_of_bracketed? {inner : List Char}
    (h : Expr.bracketed? ('(' :: '|' :: cs) = some inner) :
    ∃ ds, ds <+: cs ∧ inner = '|' :: ds := by
  obtain ⟨i, hi, hif⟩ := Option.bind_eq_some_iff.mp h
  obtain ⟨-, rfl⟩ : neverBelow {} i = true ∧ i = inner := by simpa using hif
  obtain ⟨hlast, rfl⟩ : ('|' :: cs).getLast? = some ')' ∧ ('|' :: cs).dropLast = i := by
    simpa [Expr.between?] using hi
  cases cs with
  | nil => cases hlast
  | cons d ds => exact ⟨(d :: ds).dropLast, List.dropLast_prefix _, rfl⟩

/-- What is behind a bracket and a bar is cut or not, but not read, if there is no other bar. -/
theorem stuck_bracket (h : '|' ∉ cs) : ∃ cause, (Expr.parse ('(' :: '|' :: cs)).Stuck cause := by
  induction hlength : cs.length using Nat.strong_induction_on generalizing cs with
  | _ n ih =>
  subst hlength
  have hfront : Text.Solid ['(', '|'] := ⟨⟨'(', rfl, by decide⟩, '|', rfl, by decide⟩
  obtain ⟨ds, hpre, hsolid, hread⟩ : ∃ ds, ds <+: cs ∧ Text.Solid ('(' :: '|' :: ds) ∧
      Expr.parse ('(' :: '|' :: cs) = Expr.parse ('(' :: '|' :: ds) := exists_solid hfront cs
  have hds : '|' ∉ ds := fun hmem => h (hpre.subset hmem)
  rw [hread]
  cases hstands : stands cutters {} none ('(' :: '|' :: ds) with
  | true =>
    -- What is before the operator is of the same kind and shorter.
    obtain ⟨left, hcut, hfirst⟩ := exists_cutAfter hsolid hstands
    obtain ⟨front, rfl, o, ho, right, rfl⟩ := hcut.bracket
    obtain ⟨d, -, rest, rfl⟩ := exists_cutterHead o ho
    have hshorter : front.length < cs.length := by
      have hle := hpre.length_le
      simp only [List.length_append, List.length_cons] at hle
      omega
    have hbarless : '|' ∉ front := fun hmem => hds (List.mem_append_left _ hmem)
    obtain ⟨cause, hcause⟩ := ih front.length hshorter hbarless rfl
    exact ⟨cause, hcause.of_first hfirst⟩
  | false =>
    rw [parse_uncut hsolid hstands]
    simp only [Expr.negated?, between?_of_ne (by decide : '$' ≠ '('),
      between?_of_ne (by decide : '*' ≠ '(')]
    cases hinner : Expr.bracketed? ('(' :: '|' :: ds) with
    | some inner =>
      obtain ⟨front, hfront, rfl⟩ := exists_of_bracketed? hinner
      exact stuck_bar fun hmem => hds (hfront.subset hmem)
    | none =>
      refine ⟨.unrecognized (String.ofList ('(' :: '|' :: ds)), ?_⟩
      rw [atom_unrecognized (by decide) (between?_of_ne (by decide))]
      exact Expr.stuck_malformed _

/-- A bar is no operator, and no white space behind one. -/
theorem operatorAt_append_bar {p : Char} {o : List Char} (ho : '|' ∉ o) (cs rest : List Char) :
    operatorAt p (cs ++ '|' :: rest) o = operatorAt p cs o := by
  have hiff : o <+: cs ++ '|' :: rest ↔ o <+: cs := by
    refine ⟨fun hpre => ?_, fun hpre => hpre.trans (List.prefix_append cs _)⟩
    obtain hpre' | ⟨more, rfl⟩ :=
      List.prefix_or_prefix_of_prefix hpre (List.prefix_append cs ('|' :: rest))
    · exact hpre'
    · cases more with
      | nil => simp
      | cons d more =>
        obtain ⟨rfl, -⟩ := List.cons_prefix_cons.mp ((List.prefix_append_right_inj cs).mp hpre)
        exact absurd (List.mem_append_right cs List.mem_cons_self) ho
  have hprefix : o.isPrefixOf (cs ++ '|' :: rest) = o.isPrefixOf cs := by
    rw [Bool.eq_iff_iff, List.isPrefixOf_iff_prefix, List.isPrefixOf_iff_prefix, hiff]
  rw [operatorAt, operatorAt, hprefix]
  by_cases hpre : o.isPrefixOf cs = true
  · obtain ⟨more, rfl⟩ := List.isPrefixOf_iff_prefix.mp hpre
    cases more with
    | nil => simp [Text.isAsciiBlank]
    | cons d more => simp
  · simp [hpre]

theorem stands_append_bar (cs : List Char) (n : Nesting) (previous : Option Char) :
    stands cutters n previous (cs ++ ['|', ')']) = stands cutters n previous cs := by
  induction cs generalizing n previous with
  | nil => rw [List.nil_append, stands_head (by decide), stands_head (by decide), stands, stands]
  | cons c cs ih =>
    have hbarless : ∀ o ∈ cutters, '|' ∉ o := by decide
    have hhere (p : Char) : cutters.any (operatorAt p (c :: cs ++ ['|', ')'])) =
        cutters.any (operatorAt p (c :: cs)) := by
      rw [Bool.eq_iff_iff, List.any_eq_true, List.any_eq_true]
      refine exists_congr fun o => and_congr_right fun ho => ?_
      rw [operatorAt_append_bar (hbarless o ho)]
    rw [stands, ← ih]
    simp only [← hhere]
    rfl

end Unread

namespace Grammar.Plain

variable {p : Plain}

theorem chars_bracketed (p : Plain) : p.bracketed = '(' :: '|' :: (p.chars ++ ['|', ')']) := by
  simp [bracketed, bars]

/-- In brackets bars do not count. -/
theorem stands_bracketed (p : Plain) :
    stands cutters {} none p.bracketed = stands cutters { depth := 1 } (some '|') p.chars := by
  have hopen : step {} '(' = { depth := 1 } := rfl
  have hbar : step { depth := 1 } '|' = { depth := 1 } := rfl
  rw [chars_bracketed, stands_head (by decide), hopen, stands_head (by decide), hbar,
    stands_append_bar]

/-- No operator begins with the second bar or stands behind it. -/
theorem exists_of_cutAfter {left : List Char} (h : CutAfter left p.bracketed) :
    ∃ front, left = '(' :: '|' :: front ∧ '|' ∉ front := by
  rw [chars_bracketed] at h
  obtain ⟨front, rfl, o, ho, right, heq⟩ := h.bracket
  obtain ⟨d, hd, rest, rfl⟩ := exists_cutterHead o ho
  refine ⟨front, rfl, ?_⟩
  obtain ⟨more, rfl, hmore⟩ | ⟨more, hmore, -⟩ := List.append_eq_append_iff.mp heq
  · match more with
    | [] => simpa using p.barless
    | [_] =>
      simp only [List.cons_append, List.nil_append, List.cons.injEq] at hmore
      obtain ⟨-, rfl, -⟩ := hmore
      exact absurd hd (by decide)
    | _ :: _ :: more => simp at hmore
  · exact fun hmem => p.barless (hmore ▸ List.mem_append_left more hmem)

/-- Between bars brackets are counted as they stand. -/
theorem neverBelow_barless {cs : List Char} (h : '|' ∉ cs) {depth : Int} (hdepth : 0 ≤ depth) :
    neverBelow { substituting := true, depth } cs = true ↔
      ∀ front, front <+: cs → 0 ≤ depth + Text.height front := by
  induction cs generalizing depth with
  | nil => simp [neverBelow, Text.height, hdepth]
  | cons c cs ih =>
    rw [List.mem_cons, not_or] at h
    rw [neverBelow, step_substituting (Ne.symm h.1), Bool.and_eq_true, decide_eq_true_eq]
    constructor
    · rintro ⟨hnext, hrest⟩ front hpre
      obtain rfl | ⟨more, rfl, hmore⟩ := List.prefix_cons_iff.mp hpre
      · simpa [Text.height] using hdepth
      · have hmore := (ih h.2 hnext).mp hrest more hmore
        rwa [Text.height_cons, ← Int.add_assoc]
    · intro hall
      have hnext := hall [c] (List.prefix_append [c] cs)
      refine ⟨hnext, (ih h.2 hnext).mpr fun more hmore => ?_⟩
      have hfront := hall (c :: more) (List.cons_prefix_cons.mpr ⟨rfl, hmore⟩)
      rwa [Text.height_cons, ← Int.add_assoc] at hfront

theorem neverBelow_bars (p : Plain) :
    neverBelow {} p.bars = true ↔ ∀ front, front <+: p.chars → 0 ≤ Text.height front := by
  have hopen : step {} '|' = { substituting := true } := rfl
  have hbody := neverBelow_barless p.barless (Int.le_refl 0)
  simp only [Int.zero_add] at hbody
  have hlast (hall : ∀ front, front <+: p.chars → 0 ≤ Text.height front) :
      0 ≤ (step { substituting := true, depth := 0 + Text.height p.chars } '|').depth := by
    have hheight := hall p.chars (List.prefix_refl _)
    by_cases hzero : Text.height p.chars = 0 <;> simp [step, hzero, hheight]
  rw [bars, neverBelow, hopen, neverBelow_append, after_substituting p.barless]
  simp only [neverBelow, Bool.and_eq_true, decide_eq_true_eq, and_true, hbody]
  exact ⟨fun h => h.2.1, fun h => ⟨Int.le_refl 0, h, hlast h⟩⟩

/-- How a text is read between bars in brackets, in which no operator is seen. -/
theorem parse_bracketed (hstands : stands cutters { depth := 1 } (some '|') p.chars = false) :
    Expr.parse p.bracketed =
      if neverBelow {} p.bars then .substitution (p.parts.map Part.piece)
      else .malformed (.unrecognized (String.ofList p.bracketed)) := by
  have hsolid : Text.Solid p.bracketed := Text.solid_of_ends p.bars (by decide) (by decide)
  have hbetween : Expr.between? ['('] ')' p.bracketed = some p.bars := by
    simp [Expr.between?, bracketed]
  have hbars : Expr.parse p.bars = .substitution (p.parts.map Part.piece) := by
    rw [bars, parse_bars p.barless, ← p.chars_parts, substitutionPieces_parts p.apart_parts]
  rw [← p.stands_bracketed] at hstands
  have hnot : Expr.negated? p.bracketed = none := rfl
  have hvariable : Expr.between? ['$', '{'] '}' p.bracketed = none := between?_of_ne (by decide)
  have hselected : Expr.between? ['*', '{'] '}' p.bracketed = none := between?_of_ne (by decide)
  rw [parse_uncut hsolid hstands, hnot, hvariable, hselected, Expr.bracketed?, hbetween,
    Option.bind_some]
  by_cases hbelow : neverBelow {} p.bars = true
  · simp only [if_pos hbelow, hbars]
  · simp only [if_neg hbelow]
    exact atom_unrecognized (by decide) (between?_of_ne (by decide))

theorem evaluate_bracketed (h : p.Sheltered) (c : Context) :
    Evaluator.standard.evaluate (String.ofList p.bracketed) c = (.ok (.string p.text), c) := by
  have hread : Expr.parse (String.ofList p.bracketed).toList =
      .substitution (p.parts.map Part.piece) := by
    rw [String.toList_ofList, parse_bracketed h.uncut, if_pos (p.neverBelow_bars.mpr h.opened)]
  rw [Evaluator.evaluate_of_parts hread, p.runAll_parts]
  rfl

theorem evaluate_exposed (h : ¬ p.Sheltered) (c : Context) :
    ∃ cause, Evaluator.standard.evaluate (String.ofList p.bracketed) c =
      (.error (.expression (String.ofList p.bracketed) (.malformed cause)), c) := by
  suffices hstuck : ∃ cause, (Expr.parse p.bracketed).Stuck cause by
    obtain ⟨cause, hcause⟩ := hstuck
    exact ⟨cause, Evaluator.evaluate_of_stuck hcause c⟩
  cases hstands : stands cutters { depth := 1 } (some '|') p.chars with
  | true =>
    have hsolid : Text.Solid p.bracketed := Text.solid_of_ends p.bars (by decide) (by decide)
    obtain ⟨left, hcut, hfirst⟩ := exists_cutAfter hsolid (p.stands_bracketed.trans hstands)
    obtain ⟨front, rfl, hbarless⟩ := exists_of_cutAfter hcut
    obtain ⟨cause, hcause⟩ := stuck_bracket hbarless
    exact ⟨cause, hcause.of_first hfirst⟩
  | false =>
    have hbelow : ¬ neverBelow {} p.bars = true := fun hbelow =>
      h ⟨p.neverBelow_bars.mp hbelow, hstands⟩
    rw [parse_bracketed hstands, if_neg hbelow]
    exact ⟨_, Expr.stuck_malformed _⟩

end Grammar.Plain

/-- A literal substitution of plain text is an operand before an operator, and between a question
mark and its else part, exactly if it closes as many brackets as it opens. In brackets it is one
exactly if no bracket in it is closed that is not opened in it, and no operator is seen in it. Where
it is none, the expression cannot be read; outside of brackets, as long as no other bar follows. -/
theorem Evaluator.evaluate_bars (p : Plain) (c : Context) :
    (p.Even → ∀ cs : List Quoted,
      standard.evaluate (String.ofList (p.binary cs .add)) c =
        (.ok (.string (p.text ++ String.ofList (cs.map Quoted.meant))), c) ∧
      standard.evaluate (String.ofList (p.binary cs (.equal false))) c =
        (.ok (.bool (p.text == String.ofList (cs.map Quoted.meant))), c) ∧
      standard.evaluate (String.ofList (p.choice cs)) c = (.ok (.string p.text), c)) ∧
    (¬ p.Even → ∀ cs : List Quoted, '|' ∉ cs.flatMap Quoted.chars →
      (∀ o, standard.evaluate (String.ofList (p.binary cs o)) c =
        (.error (.expression (String.ofList (p.binary cs o))
          (.malformed (.unrecognized (String.ofList (p.binary cs o))))), c)) ∧
      standard.evaluate (String.ofList (p.choice cs)) c =
        (.error (.expression (String.ofList (p.choice cs))
          (.malformed (.unrecognized (String.ofList (p.branches cs))))), c)) ∧
    (p.Sheltered →
      standard.evaluate (String.ofList p.bracketed) c = (.ok (.string p.text), c)) ∧
    (¬ p.Sheltered → ∃ cause, standard.evaluate (String.ofList p.bracketed) c =
      (.error (.expression (String.ofList p.bracketed) (.malformed cause)), c)) := by
  refine ⟨fun h cs => ⟨?_, ?_, ?_⟩, fun h cs hcs => ⟨?_, ?_⟩, ?_, ?_⟩
  · exact Plain.evaluate_binary h cs rfl c
  · exact Plain.evaluate_binary h cs rfl c
  · exact Plain.evaluate_choice h cs c
  · exact fun o => Plain.evaluate_binary_uneven h hcs o c
  · exact Plain.evaluate_choice_uneven h hcs c
  · exact fun h => Plain.evaluate_bracketed h c
  · exact fun h => Plain.evaluate_exposed h c

/-- `(it's)`: text with a bracket, its closing bracket and a quote -/
def paired : Plain :=
  ⟨['(', 'i', 't', '\'', 's', ')'], by decide, by decide, by decide⟩

theorem Evaluator.evaluate_paired :
    paired.Even ∧ paired.Sheltered ∧
      (standard.evaluate "|(it's)| + 'x'" default).1 = .ok (.string "(it's)x") ∧
      (standard.evaluate "(|(it's)|)" default).1 = .ok (.string "(it's)") := by
  have heven : paired.Even := by
    show Text.height paired.chars = 0
    decide
  have hsheltered : paired.Sheltered := by
    refine ⟨fun front hfront => ?_, by decide⟩
    have hall : ∀ front ∈ paired.chars.inits, 0 ≤ Text.height front := by decide
    exact hall front (List.mem_inits front _ |>.mpr hfront)
  have hsum : String.ofList (paired.binary [.plain 'x' (by decide)] .add) = "|(it's)| + 'x'" := rfl
  have hbracketed : String.ofList paired.bracketed = "(|(it's)|)" := rfl
  have htext : paired.text ++ String.ofList ([.plain 'x' (by decide)].map Quoted.meant) =
      "(it's)x" := by decide
  obtain ⟨hvalue, -, hinside, -⟩ := evaluate_bars paired default
  refine ⟨heven, hsheltered, ?_, ?_⟩
  · rw [← hsum, (hvalue heven _).1, htext]
  · rw [← hbracketed, hinside hsheltered]
    rfl

/-- `(`: a bracket left over -/
def leftOver : Plain := ⟨['('], by decide, by decide, by decide⟩

/-- No operator is seen behind a bracket that is left over between bars. -/
theorem Evaluator.evaluate_leftOver :
    String.ofList (leftOver.binary [.plain 'x' (by decide)] .add) = "|(| + 'x'" ∧
      (standard.evaluate "|(| + 'x'" default).1 =
        .error (.expression "|(| + 'x'" (.malformed (.unrecognized "|(| + 'x'"))) := by
  have hodd : ¬ leftOver.Even := by
    show ¬ Text.height leftOver.chars = 0
    decide
  have hsum : String.ofList (leftOver.binary [.plain 'x' (by decide)] .add) = "|(| + 'x'" := rfl
  refine ⟨hsum, ?_⟩
  rw [← hsum, Plain.evaluate_binary_uneven hodd (by decide)]

end NaturalTemplate
