import NaturalTemplate.Proofs.Expression.Printed

/-!
# Literal substitutions

A literal substitution is text with paths in it. Whatever the text has in it, quotes and brackets
included, it is written as it stands, and each path as the text of its value, from left to right up
to the first that has none.
-/
namespace NaturalTemplate
open Nesting Grammar

namespace Grammar

/-- Text between the paths of a literal substitution. It looks nowhere like the beginning of one. -/
structure Plain where
  chars : List Char
  barless : '|' ∉ chars
  noVariable : ¬ ['$', '{'] <:+: chars
  noSelected : ¬ ['*', '{'] <:+: chars

/-- A path in a literal substitution, from a variable or from the selected object. -/
structure Inset where
  selected : Bool
  name : Identifier
  properties : List Identifier

def Inset.term (i : Inset) : Term :=
  if i.selected then .selected i.name i.properties else .variable i.name i.properties

/-- Texts and paths in turn. -/
structure Template where
  insets : List (Plain × Inset)
  last : Plain

namespace Template

def text (t : Template) : List Char :=
  t.insets.flatMap (fun (plain, inset) => plain.chars ++ inset.term.chars) ++ t.last.chars

def chars (t : Template) : List Char := '|' :: (t.text ++ ['|'])

/-- What a value is written as; null is written as nothing. -/
def written : Value → Evaluation String
  | .null => return ""
  | v =>
    match v.text? with
    | some s => return s
    | none => throw (.operands "|" .string v.type)

/-- What is written: every text, and the values of the paths from left to right. -/
def runAll : List (Plain × Inset) → Plain → Evaluation String
  | [], last => return String.ofList last.chars
  | (plain, inset) :: insets, last => do
    let s ← written (← inset.term.run)
    return String.ofList plain.chars ++ (s ++ (← runAll insets last))

def run (t : Template) : Evaluation String := runAll t.insets t.last

end Template

/-! ## Parts -/

def Plain.parts (p : Plain) : List Part := p.chars.map .char

def Inset.part (i : Inset) : Part :=
  if i.selected then .selected (Term.names i.name i.properties)
  else .variable (Term.names i.name i.properties)

def Template.parts (t : Template) : List Part :=
  t.insets.flatMap (fun (plain, inset) => plain.parts ++ [inset.part]) ++ t.last.parts

theorem Plain.chars_parts (p : Plain) : p.parts.flatMap Part.chars = p.chars := by
  rw [parts, List.flatMap_map]
  exact List.flatMap_singleton' p.chars

theorem Inset.chars_part (i : Inset) : i.part.chars = i.term.chars := by
  unfold part term
  split <;> simp [Part.chars, Term.chars, Term.chars_names]

theorem Template.chars_parts (t : Template) : t.parts.flatMap Part.chars = t.text := by
  simp only [parts, text, List.flatMap_append, List.flatMap_assoc, List.flatMap_cons,
    List.flatMap_nil, List.append_nil, Plain.chars_parts, Inset.chars_part]

/-- Text that looks nowhere like the beginning of a path is apart from what follows. -/
theorem apart_append {cs : List Char} (hvariable : ¬ ['$', '{'] <:+: cs)
    (hselected : ¬ ['*', '{'] <:+: cs) {ps : List Part} (hps : Part.Apart ps)
    (hnext : ∀ d ∈ ps.head?, d.chars.head? ≠ some '{') :
    Part.Apart (cs.map Part.char ++ ps) := by
  induction cs with
  | nil => exact hps
  | cons c cs ih =>
    have htail {o : List Char} (h : ¬ o <:+: c :: cs) : ¬ o <:+: cs := fun hin =>
      h (hin.trans (List.suffix_cons c cs).isInfix)
    refine ⟨fun hc d hd => ?_, ih (htail hvariable) (htail hselected)⟩
    cases cs with
    | nil => exact hnext d hd
    | cons e cs =>
      cases hd
      rintro hbrace
      obtain rfl : e = '{' := Option.some.inj hbrace
      obtain rfl | rfl := hc
      · exact hvariable (List.prefix_append ['$', '{'] cs).isInfix
      · exact hselected (List.prefix_append ['*', '{'] cs).isInfix

theorem Plain.apart (p : Plain) {ps : List Part} (hps : Part.Apart ps)
    (hnext : ∀ d ∈ ps.head?, d.chars.head? ≠ some '{') : Part.Apart (p.parts ++ ps) :=
  apart_append p.noVariable p.noSelected hps hnext

theorem Plain.apart_parts (p : Plain) : Part.Apart p.parts := by
  have happend : Part.Apart (p.parts ++ []) := p.apart trivial (by simp)
  rwa [List.append_nil] at happend

theorem Template.apart (t : Template) : Part.Apart t.parts := by
  obtain ⟨insets, last⟩ := t
  induction insets with
  | nil =>
    simpa [parts] using last.apart_parts
  | cons i insets ih =>
    obtain ⟨plain, inset⟩ := i
    have hrest : Part.Apart (inset.part :: parts ⟨insets, last⟩) := by
      unfold Inset.part
      split <;> exact ih
    have hplain := plain.apart hrest (by
      rintro d hd
      cases hd
      unfold Inset.part
      split <;> simp [Part.chars])
    simpa [parts] using hplain

theorem Inset.barless (i : Inset) : '|' ∉ i.term.chars := by
  have hnames : '|' ∉ (Term.names i.name i.properties).chars := fun hin =>
    (Term.names i.name i.properties).plain '|' hin (by decide)
  rw [← chars_part]
  unfold part
  split <;> simp [Part.chars, hnames]

theorem Template.barless (t : Template) : '|' ∉ t.text := by
  simp only [text, List.mem_append, List.mem_flatMap, not_or, not_exists, not_and]
  exact ⟨fun i _ => ⟨i.1.barless, i.2.barless⟩, t.last.barless⟩

/-! ## Reading -/

/-- Text between two bars with no bar in it is read as a literal substitution, whatever brackets are
open in it. -/
theorem parse_bars {cs : List Char} (hbarless : '|' ∉ cs) :
    Expr.parse ('|' :: (cs ++ ['|'])) = .substitution (Expr.substitutionPieces cs) := by
  have hquiet : quiet allOperators {} none ('|' :: (cs ++ ['|'])) = true := by
    have hopen : step {} '|' = { substituting := true } := rfl
    rw [quiet_head (by decide), hopen, quiet_substituting hbarless]
  have hbody : Expr.between? ['|'] '|' ('|' :: (cs ++ ['|'])) = some cs := by
    simp [Expr.between?]
  have hnot : Expr.negated? ('|' :: (cs ++ ['|'])) = none := rfl
  rw [parse_uncut (Text.solid_of_ends _ (by decide) (by decide)) (uncut_of_quiet hquiet)]
  simp only [hnot, Expr.bracketed?, between?_of_ne (by decide : '$' ≠ '|'),
    between?_of_ne (by decide : '*' ≠ '|'), between?_of_ne (by decide : '(' ≠ '|'),
    Option.bind_none, Expr.atom, hbody]

/-! ## Values -/

theorem runAll_chars (cs : List Char) (ps : List Part) :
    Part.runAll (cs.map Part.char ++ ps) = do return String.ofList cs ++ (← Part.runAll ps) := by
  induction cs with
  | nil => simp
  | cons c cs ih =>
    have happend (s : String) :
        String.singleton c ++ (String.ofList cs ++ s) = String.ofList (c :: cs) ++ s := by
      simp [← String.toList_inj]
    simp [Part.runAll, Part.run, ih, happend]

theorem Template.written_eq (v : Value) :
    written v = Evaluation.ofExcept (Piece.text.written v) := by
  cases v <;> rfl

theorem Inset.run_part (i : Inset) : i.part.run = i.term.run >>= Template.written := by
  rw [funext Template.written_eq]
  unfold part term
  split <;> rw [Part.run] <;>
    simp only [Names.run, Names.runSelected, Term.properties_names, Term.run] <;> rfl

/-- What a template says that is written, its parts say. -/
theorem Template.run_parts (t : Template) : t.run = Part.runAll t.parts := by
  obtain ⟨insets, last⟩ := t
  rw [run]
  induction insets with
  | nil =>
    have hlast := runAll_chars last.chars []
    simp only [List.append_nil] at hlast
    simp [parts, Plain.parts, runAll, hlast, Part.runAll]
  | cons i insets ih =>
    obtain ⟨plain, inset⟩ := i
    have hparts : parts ⟨(plain, inset) :: insets, last⟩ =
        plain.chars.map Part.char ++ (inset.part :: parts ⟨insets, last⟩) := by
      simp [parts, Plain.parts]
    rw [hparts, runAll_chars, runAll, Part.runAll, inset.run_part, ih]
    simp

end Grammar

/-- What is read as a literal substitution has the texts of its parts as its value. -/
theorem Evaluator.evaluate_of_parts {text : String} {ps : List Part}
    (h : Expr.parse text.toList = .substitution (ps.map Part.piece)) (c : Context) :
    Evaluator.standard.evaluate text c =
      match Part.runAll ps c with
      | .ok s d => (.ok (.string s), d)
      | .error cause d => (.error (.expression text cause), d) := by
  have hrun : Part.runAll ps c = Evaluation.ended (Piece.textAll c (ps.map Part.piece))
      (c.touchAll (Piece.readsAll c (ps.map Part.piece))) :=
    Evaluation.comes_parts ps c []
  simp only [evaluate, standard, h, hrun, Expr.eval, Expr.reads]
  cases Piece.textAll c (ps.map Part.piece) <;> rfl

/-- A literal substitution writes its text as it stands and the values of its paths from left to
right, up to the first that has no value or no text. -/
theorem Evaluator.evaluate_template (t : Template) (c : Context) :
    Evaluator.standard.evaluate (String.ofList t.chars) c =
      match t.run c with
      | .ok s d => (.ok (.string s), d)
      | .error cause d => (.error (.expression (String.ofList t.chars) cause), d) := by
  have hread : Expr.parse (String.ofList t.chars).toList =
      .substitution (t.parts.map Part.piece) := by
    rw [String.toList_ofList, Template.chars, parse_bars t.barless, ← t.chars_parts,
      substitutionPieces_parts t.apart]
  rw [t.run_parts]
  exact evaluate_of_parts hread c

end NaturalTemplate
