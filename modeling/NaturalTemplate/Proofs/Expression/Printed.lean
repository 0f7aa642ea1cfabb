import NaturalTemplate.Proofs.Decimal.Printing
import NaturalTemplate.Proofs.Expression.Evaluation

/-!
# Printed terms have the values of the terms

A printed term is a derivation in which every operand that is no atom is in brackets. So it is read
and evaluated like the term itself, and asks for the same values.
-/
namespace NaturalTemplate
open Grammar

/-- The operator that is printed, which is a word only where there is no sign for it. -/
def BinaryOperator.printed : BinaryOperator → Operator
  | or => .or
  | and => .and
  | equal => .equal false
  | differ => .differ false
  | order relation => .order relation false
  | add => .add

theorem BinaryOperator.chars_printed (operator : BinaryOperator) :
    operator.printed.chars = operator.spelling := by
  cases operator <;> rfl

namespace Term

/-- A path that is printed without white space. -/
def names (name : Identifier) (properties : List Identifier) : Names where
  first := ⟨.none, name, .none⟩
  rest := properties.map fun p => ⟨.none, p, .none⟩

def quoted (c : Char) : Quoted :=
  if h : c = '\\' ∨ c = '\'' then .escaped c else .plain c (not_or.mp h)

theorem exists_digits (n : Int) : ∃ c cs, (toString n).toList = c :: cs ∧
    (c.isDigit = true ∨ c = '-') ∧ ∀ d ∈ cs, d.isDigit = true := by
  obtain ⟨d, ds, hdigits⟩ := List.exists_cons_of_ne_nil (@Nat.toDigits_ne_nil n.natAbs 10)
  have hdigit : ∀ c ∈ d :: ds, c.isDigit = true := fun c hc =>
    Decimal.isDigit_of_mem_toDigits (hdigits ▸ hc)
  rw [Decimal.toList_toString, hdigits]
  split
  · exact ⟨'-', d :: ds, rfl, .inr rfl, hdigit⟩
  · exact ⟨d, ds, rfl, .inl (hdigit d List.mem_cons_self),
      fun c hc => hdigit c (List.mem_cons_of_mem d hc)⟩

theorem number?_toString (n : Int64) : number? (toString n.toInt).toList = some (.integer n) := by
  rw [number?, Decimal.int64?_toString]

def number (n : Int64) : Number where
  chars := (toString n.toInt).toList
  starts := by
    obtain ⟨c, cs, hchars, hc, -⟩ := exists_digits n.toInt
    exact ⟨c, by rw [hchars]; rfl, hc⟩
  unsigned := by
    obtain ⟨c, cs, hchars, hc, hcs⟩ := exists_digits n.toInt
    rw [hchars, List.mem_cons, not_or]
    refine ⟨?_, fun hmem => absurd (hcs '+' hmem) (by decide)⟩
    rintro rfl
    contradiction
  isNumber := by rw [number?_toString]; rfl

theorem value_number (n : Int64) : (number n).value = .integer n := by
  have hvalue : number? (number n).chars = some (.integer n) := number?_toString n
  simp [Number.value, hvalue]

/-- The atom that a term is. -/
def atom? : Term → Option Atom
  | .variable name properties => some (.variable (names name properties))
  | selected name properties => some (.selected (names name properties))
  | string s => some (.string (s.toList.map quoted))
  | integer n => some (.number (number n))
  | bool b => some (.bool b)
  | null => some .null
  | not _ | binary .. | conditional .. | guarded .. | elvis .. => none

/-- The derivation of a printed term as an operand, from that of the printed term. -/
def wrap {l : Level} (t : Term) (p : Phrase .expression) : Phrase l :=
  match t.atom? with
  | some a => .tighter l.le_atom (.atom a)
  | none => .tighter l.le_atom (.bracket .none p .none)

/-- The derivation of a printed term. -/
def phrase : Term → Phrase .expression
  | not operand =>
    .tighter (Level.expression_le _) (.not (.sign .none) (operand.wrap operand.phrase))
  | binary operator left right =>
    .tighter (Level.expression_le _) <|
      .binary operator.printed (left.wrap left.phrase) (.spaces _) (right.wrap right.phrase)
  | conditional condition yes no =>
    .conditional (condition.wrap condition.phrase) .space .space (yes.wrap yes.phrase) .space .space
      (no.wrap no.phrase)
  | guarded condition yes =>
    .guarded (condition.wrap condition.phrase) .space .space (yes.wrap yes.phrase)
  | elvis value default =>
    .elvis (value.wrap value.phrase) .space .space (default.wrap default.phrase)
  | .variable name properties =>
    .tighter (Level.expression_le _) (.atom (.variable (names name properties)))
  | selected name properties =>
    .tighter (Level.expression_le _) (.atom (.selected (names name properties)))
  | string s => .tighter (Level.expression_le _) (.atom (.string (s.toList.map quoted)))
  | integer n => .tighter (Level.expression_le _) (.atom (.number (number n)))
  | bool b => .tighter (Level.expression_le _) (.atom (.bool b))
  | null => .tighter (Level.expression_le _) (.atom .null)

theorem chars_names (name : Identifier) (properties : List Identifier) :
    (names name properties).chars = pathChars name properties := by
  simp [names, Names.chars, pathChars, Segment.chars, Layout.none, List.flatMap_map]

theorem chars_quoted (s : List Char) :
    (s.map quoted).flatMap Quoted.chars = s.flatMap quotedChar := by
  rw [List.flatMap_map]
  refine congrArg (List.flatMap · s) (funext fun c => ?_)
  unfold quoted quotedChar
  split <;> rfl

theorem chars_wrap {l : Level} {t : Term} {p : Phrase .expression} (h : p.chars = t.chars) :
    (t.wrap p : Phrase l).chars = t.operand := by
  cases t with
  | not | binary | conditional | guarded | elvis =>
    simp [wrap, atom?, operand, bracketed, isCompound, Phrase.chars, Layout.none, h]
  | «variable» | selected =>
    simp [wrap, atom?, operand, bracketed, isCompound, Phrase.chars, Atom.chars, chars, chars_names]
  | string s =>
    simp [wrap, atom?, operand, bracketed, isCompound, Phrase.chars, Atom.chars, chars,
      chars_quoted]
  | integer | bool | null =>
    simp [wrap, atom?, operand, bracketed, isCompound, Phrase.chars, Atom.chars, chars, number]

theorem chars_phrase (t : Term) : t.phrase.chars = t.chars := by
  induction t with
  | «variable» | selected => simp [phrase, Phrase.chars, Atom.chars, chars, chars_names]
  | string s => simp [phrase, Phrase.chars, Atom.chars, chars, chars_quoted]
  | integer | bool | null => rfl
  | not operand ih =>
    rw [phrase, Phrase.chars, Phrase.chars, chars_wrap ih]
    rfl
  | binary operator left right ihleft ihright =>
    rw [phrase, Phrase.chars, Phrase.chars, chars_wrap ihleft, chars_wrap ihright,
      operator.chars_printed]
    rfl
  | conditional condition yes no ihcondition ihyes ihno =>
    rw [phrase, Phrase.chars, chars_wrap ihcondition, chars_wrap ihyes, chars_wrap ihno]
    rfl
  | guarded condition yes ihcondition ihyes =>
    rw [phrase, Phrase.chars, chars_wrap ihcondition, chars_wrap ihyes]
    rfl
  | elvis value default ihvalue ihdefault =>
    rw [phrase, Phrase.chars, chars_wrap ihvalue, chars_wrap ihdefault]
    rfl

theorem sheltered_wrap {l : Level} {inside : Bool} (t : Term) {p : Phrase .expression}
    (h : p.Sheltered true) : (t.wrap p : Phrase l).Sheltered inside := by
  cases t <;> first | exact h | trivial

/-- Terms have no literal substitutions. -/
theorem sheltered_phrase (t : Term) (inside : Bool) : t.phrase.Sheltered inside := by
  induction t generalizing inside with
  | «variable» | selected | string | integer | bool | null => trivial
  | not operand ih => exact sheltered_wrap operand (ih true)
  | binary operator left right ihleft ihright =>
    exact ⟨sheltered_wrap left (ihleft true), sheltered_wrap right (ihright true)⟩
  | conditional condition yes no ihcondition ihyes ihno =>
    exact ⟨sheltered_wrap condition (ihcondition true), sheltered_wrap yes (ihyes true),
      sheltered_wrap no (ihno true)⟩
  | guarded condition yes ihcondition ihyes =>
    exact ⟨sheltered_wrap condition (ihcondition true), sheltered_wrap yes (ihyes true)⟩
  | elvis value default ihvalue ihdefault =>
    exact ⟨sheltered_wrap value (ihvalue true), sheltered_wrap default (ihdefault true)⟩

theorem hasColon_wrap {l : Level} (t : Term) (p : Phrase .expression) :
    (t.wrap p : Phrase l).hasColon = false := by
  cases t <;> rfl

theorem bracketed_wrap {l : Level} (t : Term) {p : Phrase .expression} (h : p.Bracketed) :
    (t.wrap p : Phrase l).Bracketed := by
  cases t <;> first | exact h | trivial

/-- The operands of a printed term are in brackets if they are not atoms. -/
theorem bracketed_phrase (t : Term) : t.phrase.Bracketed := by
  induction t with
  | «variable» | selected | string | integer | bool | null => trivial
  | not operand ih => exact bracketed_wrap operand ih
  | binary operator left right ihleft ihright =>
    exact ⟨bracketed_wrap left ihleft, bracketed_wrap right ihright⟩
  | conditional condition yes no ihcondition ihyes ihno =>
    exact ⟨bracketed_wrap condition ihcondition, bracketed_wrap yes ihyes, bracketed_wrap no ihno,
      hasColon_wrap yes yes.phrase⟩
  | guarded condition yes ihcondition ihyes =>
    exact ⟨bracketed_wrap condition ihcondition, bracketed_wrap yes ihyes,
      hasColon_wrap yes yes.phrase⟩
  | elvis value default ihvalue ihdefault =>
    exact ⟨bracketed_wrap value ihvalue, bracketed_wrap default ihdefault⟩

/-! ## Values -/

theorem properties_names (name : Identifier) (properties : List Identifier) :
    (names name properties).properties = properties := by
  simp [names, Names.properties, Function.comp_def]

theorem meant_quoted (s : List Char) : (s.map quoted).map Quoted.meant = s := by
  rw [List.map_map]
  refine (List.map_congr_left fun c _ => ?_).trans (List.map_id s)
  simp only [Function.comp, quoted]
  split <;> rfl

theorem run_atom {t : Term} {a : Atom} (h : t.atom? = some a) : a.run = t.run := by
  cases t with
  | not | binary | conditional | guarded | elvis => cases h
  | «variable» name properties =>
    cases h
    show Evaluation.path name (names name properties).properties = _
    rw [properties_names]
    rfl
  | selected name properties =>
    cases h
    show (Term.selected name (names name properties).properties).run = _
    rw [properties_names]
  | string s =>
    cases h
    show pure (Value.string (String.ofList ((s.toList.map quoted).map Quoted.meant))) = _
    rw [meant_quoted, String.ofList_toList]
    rfl
  | integer n =>
    cases h
    show pure (number n).value = _
    rw [value_number]
    rfl
  | bool | null =>
    cases h
    rfl

theorem run_wrap {l : Level} {t : Term} {p : Phrase .expression} (h : p.run = t.run) :
    (t.wrap p : Phrase l).run = t.run := by
  cases hatom : t.atom? with
  | some a => simpa [wrap, hatom, Phrase.run] using run_atom hatom
  | none => simpa [wrap, hatom, Phrase.run] using h

theorem run_printed (operator : BinaryOperator) : operator.printed.run = operator.run := by
  cases operator <;> rfl

/-- A printed term is evaluated like the term. -/
theorem run_phrase (t : Term) : t.phrase.run = t.run := by
  induction t with
  | «variable» | selected | string | integer | bool | null =>
    rw [phrase, Phrase.run, Phrase.run]
    exact run_atom rfl
  | not operand ih =>
    rw [phrase, Phrase.run, Phrase.run, run_wrap ih]
    rfl
  | binary operator left right ihleft ihright =>
    rw [phrase, Phrase.run, Phrase.run, run_wrap ihleft, run_wrap ihright, run_printed]
    rfl
  | conditional condition yes no ihcondition ihyes ihno =>
    rw [phrase, Phrase.run, run_wrap ihcondition, run_wrap ihyes, run_wrap ihno]
    rfl
  | guarded condition yes ihcondition ihyes =>
    rw [phrase, Phrase.run, run_wrap ihcondition, run_wrap ihyes]
    rfl
  | elvis value default ihvalue ihdefault =>
    rw [phrase, Phrase.run, run_wrap ihvalue, run_wrap ihdefault]
    rfl

end Term

/-- A printed term has the value of the term, or the error, and leaves the context with the same
values asked for. -/
theorem Evaluator.evaluate_print (t : Term) (c : Context) :
    Evaluator.standard.evaluate t.print c =
      match t.run c with
      | .ok v d => (.ok v, d)
      | .error cause d => (.error (.expression t.print cause), d) := by
  have hread : Expr.parse t.print.toList = t.phrase.toExpr := by
    rw [Term.print, String.toList_ofList, ← t.chars_phrase]
    exact (Phrase.parse_chars_iff (t.sheltered_phrase false)).mpr t.bracketed_phrase
  have hvalue := evaluate_of_parse hread c
  rw [t.run_phrase] at hvalue
  refine hvalue.trans ?_
  cases t.run c <;> rfl

end NaturalTemplate
