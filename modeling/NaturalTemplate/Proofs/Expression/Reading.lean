import NaturalTemplate.Proofs.Expression.Cutting

/-!
# How derivations are read

A derivation is cut at its own operators, as no looser one is seen in its operands. With one
exception: a question mark takes the first colon after it, which is not always its own. So the text
of a derivation is read as the derivation exactly if there is no colon, outside brackets, in what
stands between a question mark and its else part.
-/
namespace NaturalTemplate
open Nesting Grammar

/-! ## Atoms -/

theorem pieces_append {separator : Char} {w cs : List Char} (hw : ∀ c ∈ w, c ≠ separator) :
    Text.pieces separator (w ++ separator :: cs) = w :: Text.pieces separator cs := by
  induction w with
  | nil => simp [Text.pieces]
  | cons c w ih =>
    have hc := hw c List.mem_cons_self
    rw [List.cons_append, Text.pieces, if_neg hc, ih fun d hd => hw d (List.mem_cons_of_mem c hd)]

theorem pieces_self {separator : Char} {w : List Char} (hw : ∀ c ∈ w, c ≠ separator) :
    Text.pieces separator w = [w] := by
  induction w with
  | nil => rfl
  | cons c w ih =>
    have hc := hw c List.mem_cons_self
    rw [Text.pieces, if_neg hc, ih fun d hd => hw d (List.mem_cons_of_mem c hd)]

namespace Grammar

theorem Segment.trim_chars (s : Segment) : Text.trim s.chars = s.name.name.toList := by
  rw [Segment.chars, Text.trim_append_of_blank s.before.blank,
    s.name.solid.trim_append s.after.blank]

/-- The names of a path are read without the white space around them. -/
theorem Names.pathOf_chars (p : Names) : Expr.pathOf p.chars = p.path := by
  obtain ⟨first, rest⟩ := p
  induction rest generalizing first with
  | nil =>
    simp only [chars, path, properties, List.flatMap_nil, List.append_nil, Expr.pathOf,
      pieces_self fun c hc => (first.plain c hc).2, List.map_cons, List.map_nil, first.trim_chars,
      String.ofList_toList]
  | cons s rest ih =>
    have hrest := ih s
    have hchars : chars ⟨first, s :: rest⟩ = first.chars ++ '.' :: chars ⟨s, rest⟩ := by
      simp [chars]
    simp only [Expr.pathOf] at hrest ⊢
    rw [hchars, pieces_append fun c hc => (first.plain c hc).2, List.map_cons, hrest,
      first.trim_chars, String.ofList_toList]
    rfl

/-- What a part of a literal substitution is read as. -/
def Part.piece : Part → Piece
  | char c => .char c
  | .variable p => .variable p.path
  | selected p => .selected p.path

def Atom.toExpr : Atom → Expr
  | .variable p => .variable p.path
  | selected p => .selected p.path
  | string cs => .literal (.string (String.ofList (cs.map Quoted.meant)))
  | number n => .literal n.value
  | bool b => .literal (.bool b)
  | null => .literal .null
  | substitution s => .substitution (s.parts.map Part.piece)

end Grammar

theorem stringLiteral_quoted (cs : List Quoted) :
    Expr.stringLiteral (cs.flatMap Quoted.chars) = .ok (cs.map Quoted.meant) := by
  induction cs with
  | nil => rfl
  | cons c cs ih =>
    rw [List.flatMap_cons]
    cases c with
    | plain c h =>
      rw [Quoted.chars, List.singleton_append, Expr.stringLiteral, ih]
      all_goals simp_all [Except.map, Quoted.meant]
    | escaped c => simp [Quoted.chars, Expr.stringLiteral, ih, Except.map, Quoted.meant]

/-- The first closing brace is the one after a text without one. -/
theorem splitAt?_brace {cs rest : List Char} (h : '}' ∉ cs) :
    Text.splitAt? ['}'] (cs ++ '}' :: rest) = some (cs, rest) := by
  induction cs with
  | nil => simp [Text.splitAt?]
  | cons c cs ih =>
    rw [List.mem_cons, not_or] at h
    rw [List.cons_append, Text.splitAt?, if_neg, ih h.2]
    · rfl
    · simp [h.1]

theorem Grammar.Names.braceless (p : Names) : '}' ∉ p.chars := fun h =>
  p.plain '}' h (by decide)

theorem Grammar.Part.head_chars (p : Part) : ∃ c cs, p.chars = c :: cs := by
  cases p <;> exact ⟨_, _, rfl⟩

/-- A path in braces is one part of a literal substitution. -/
theorem substitutionPieces_braced (p : Names) (rest : List Char) :
    Expr.substitutionPieces ('$' :: '{' :: (p.chars ++ '}' :: rest)) =
        .variable p.path :: Expr.substitutionPieces rest ∧
      Expr.substitutionPieces ('*' :: '{' :: (p.chars ++ '}' :: rest)) =
        .selected p.path :: Expr.substitutionPieces rest := by
  have hcut : Text.splitAt? ['}'] (p.chars ++ '}' :: rest) = some (p.chars, rest) :=
    splitAt?_brace p.braceless
  constructor
  all_goals
    rw [Expr.substitutionPieces]
    split
    · next hnone => cases hcut.symm.trans hnone
    · next hsome =>
      cases hcut.symm.trans hsome
      rw [p.pathOf_chars]

/-- The parts of a literal substitution are read as they are. -/
theorem substitutionPieces_parts {ps : List Part} (h : Part.Apart ps) :
    Expr.substitutionPieces (ps.flatMap Part.chars) = ps.map Part.piece := by
  induction ps with
  | nil => rw [List.flatMap_nil, Expr.substitutionPieces]; rfl
  | cons p ps ih =>
    rw [List.flatMap_cons]
    cases p with
    | char c =>
      obtain ⟨hapart, hrest⟩ := h
      have hnext : c = '$' ∨ c = '*' → ∀ rest, ps.flatMap Part.chars ≠ '{' :: rest := by
        intro hc rest heq
        cases ps with
        | nil => cases heq
        | cons d ps =>
          obtain ⟨e, es, hd⟩ := d.head_chars
          have hne := hapart hc d rfl
          rw [List.flatMap_cons, hd, List.cons_append, List.cons.injEq] at heq
          rw [hd, heq.1] at hne
          exact hne rfl
      rw [Part.chars, List.singleton_append, Expr.substitutionPieces, ih hrest]
      · rfl
      · exact fun rest hc heq => hnext (.inl hc) rest heq
      · exact fun rest hc heq => hnext (.inr hc) rest heq
    | «variable» p =>
      have hchars : (Part.variable p).chars ++ ps.flatMap Part.chars =
          '$' :: '{' :: (p.chars ++ '}' :: ps.flatMap Part.chars) := by simp [Part.chars]
      rw [hchars, (substitutionPieces_braced p _).1, ih h]
      rfl
    | selected p =>
      have hchars : (Part.selected p).chars ++ ps.flatMap Part.chars =
          '*' :: '{' :: (p.chars ++ '}' :: ps.flatMap Part.chars) := by simp [Part.chars]
      rw [hchars, (substitutionPieces_braced p _).2, ih h]
      rfl

/-! ## What is read from an atom -/

theorem Grammar.Number.parse_chars (n : Number) : Expr.parse n.chars = .literal n.value := by
  obtain ⟨c, hhead, hc⟩ := n.starts
  obtain ⟨cs, hchars⟩ := List.head?_eq_some_iff.mp hhead
  have hoperand := n.closed.operand
  have hvalue : number? n.chars = some n.value := (Option.some_get n.isNumber).symm
  rw [hchars] at hoperand hvalue ⊢
  have hne : ∀ d ∈ ['$', '*', '(', '|', '\'', 't', 'f', 'n', '!'], d ≠ c := by
    rintro d hd rfl
    have hno : ∀ d ∈ ['$', '*', '(', '|', '\'', 't', 'f', 'n', '!'],
        ¬ (d.isDigit = true ∨ d = '-') := Text.forall_of_all (by decide)
    exact hno d hd hc
  have hnot : Expr.negated? (c :: cs) = none := by
    unfold Expr.negated?
    split
    · next heq => exact absurd (List.cons.inj heq).1.symm (hne 'n' (by decide))
    · next heq => exact absurd (List.cons.inj heq).1.symm (hne '!' (by decide))
    · rfl
  have hword : ∀ d ds, d ∈ ['t', 'f', 'n'] → c :: cs ≠ d :: ds := by
    intro d ds hd heq
    refine hne d ?_ (List.cons.inj heq).1.symm
    simp only [List.mem_cons, List.not_mem_nil, or_false] at hd ⊢
    tauto
  have hmark : c ∉ ['$', '*', '('] := by
    intro hmem
    refine hne c ?_ rfl
    simp only [List.mem_cons, List.not_mem_nil, or_false] at hmem ⊢
    tauto
  rw [parse_atom hoperand hnot hmark, Expr.atom, between?_of_ne (hne '|' (by decide)),
    between?_of_ne (hne '\'' (by decide))]
  simp only [if_neg (hword 't' _ (by decide)), if_neg (hword 'f' _ (by decide)),
    if_neg (hword 'n' _ (by decide))]
  unfold number? at hvalue
  cases hwhole : Decimal.int64? (c :: cs) with
  | some m =>
    rw [hwhole] at hvalue
    exact congrArg Expr.literal (Option.some.inj hvalue)
  | none =>
    rw [hwhole] at hvalue
    obtain ⟨x, hfloat, hx⟩ := Option.map_eq_some_iff.mp hvalue
    have hfirst : ((some c).map fun c => c.isDigit || c == '-').getD false = true := by
      simpa using hc
    simp only [List.head?_cons, hfirst, if_true, hfloat]
    rw [hx]

theorem Grammar.Atom.operand (a : Atom) : Operand allOperators a.chars := by
  cases a with
  | substitution s => exact s.operand
  | _ => exact (closed_atom (by simp)).operand

/-- An atom is read as what it is. -/
theorem Grammar.Atom.parse_chars (a : Atom) : Expr.parse a.chars = a.toExpr := by
  have hoperand := a.operand
  cases a with
  | «variable» p =>
    have hpath : Expr.between? ['$', '{'] '}' (Atom.variable p).chars = some p.chars := by
      simp [Expr.between?, Atom.chars]
    rw [parse_uncut hoperand.solid (uncut_of_quiet (hoperand.quiet none)), hpath, Atom.toExpr,
      ← p.pathOf_chars]
    rfl
  | selected p =>
    have hpath : Expr.between? ['*', '{'] '}' (Atom.selected p).chars = some p.chars := by
      simp [Expr.between?, Atom.chars]
    rw [parse_uncut hoperand.solid (uncut_of_quiet (hoperand.quiet none)), hpath, Atom.toExpr,
      ← p.pathOf_chars]
    rfl
  | string cs =>
    have hbody : Expr.between? ['\''] '\'' (Atom.string cs).chars =
        some (cs.flatMap Quoted.chars) := by
      simp [Expr.between?, Atom.chars]
    have hbar : Expr.between? ['|'] '|' (Atom.string cs).chars = none := between?_of_ne (by decide)
    have hatom : Expr.parse (Atom.string cs).chars = Expr.atom (Atom.string cs).chars :=
      parse_atom hoperand rfl (by decide)
    rw [hatom, Expr.atom, hbar, hbody]
    simp only [stringLiteral_quoted]
    rfl
  | number n => exact n.parse_chars
  | bool b => cases b <;> exact parse_atom hoperand rfl (by decide)
  | null => exact parse_atom hoperand rfl (by decide)
  | substitution s =>
    have hbody : Expr.between? ['|'] '|' (Atom.substitution s).chars = some s.text := by
      simp [Expr.between?, Atom.chars, Substitution.chars]
    have hatom : Expr.parse (Atom.substitution s).chars = Expr.atom (Atom.substitution s).chars :=
      parse_atom hoperand rfl (by decide)
    rw [hatom, Expr.atom, hbody, Atom.toExpr, ← substitutionPieces_parts s.apart]
    rfl

namespace Grammar.Phrase

/-- The expression that a derivation is. -/
def toExpr {l : Level} : Phrase l → Expr
  | tighter _ p => p.toExpr
  | atom a => a.toExpr
  | bracket _ p _ => p.toExpr
  | not _ p => .not p.toExpr
  | binary o left _ right => o.toExpr left.toExpr right.toExpr
  | conditional condition _ _ yes _ _ no => .conditional condition.toExpr yes.toExpr no.toExpr
  | guarded condition _ _ yes => .guarded condition.toExpr yes.toExpr
  | elvis value _ _ default => .elvis value.toExpr default.toExpr

/-! ## Derivations as operands -/

variable {l : Level}

theorem exists_head (p : Phrase l) : ∃ c, p.chars.head? = some c ∧ c ≠ '=' := by
  induction p with
  | tighter _ p ih => exact ih
  | atom a =>
    cases a with
    | number n =>
      obtain ⟨c, hhead, hc⟩ := n.starts
      refine ⟨c, hhead, ?_⟩
      rintro rfl
      contradiction
    | bool b => cases b <;> exact ⟨_, rfl, by decide⟩
    | _ => exact ⟨_, rfl, by decide⟩
  | bracket => exact ⟨'(', rfl, by decide⟩
  | not n p => cases n <;> exact ⟨_, rfl, by decide⟩
  | binary _ _ _ _ ih | conditional _ _ _ _ _ _ _ ih | guarded _ _ _ _ ih | elvis _ _ _ _ ih =>
    obtain ⟨c, hhead, hc⟩ := ih
    exact ⟨c, by rw [chars, List.head?_append, hhead]; rfl, hc⟩

/-- What is sheltered closes what it opens. -/
theorem balanced {p : Phrase l} (h : p.Sheltered true) : Balanced p.chars := by
  have hmark : Balanced ['?'] := .of_plain (Text.forall_of_all (by decide))
  have hcolon : Balanced [':'] := .of_plain (Text.forall_of_all (by decide))
  induction p with
  | tighter _ p ih => exact ih h
  | atom a =>
    cases a with
    | substitution s => exact h rfl
    | _ => exact (closed_atom (by simp)).balanced
  | bracket before p after ih =>
    have hinside := (Balanced.of_blank before.blank).append ((ih h).append (.of_blank after.blank))
    simpa [chars] using hinside.bracket (.inl rfl) (.inl rfl)
  | not n p ih => exact (Balanced.of_plain n.plain_chars).append (ih h)
  | binary o left gap right ihleft ihright =>
    exact (ihleft h.1).append <| (Balanced.of_blank gap.before.blank).append <|
      (Balanced.of_plain o.plain_chars).append <|
        (Balanced.of_blank gap.after.blank).append (ihright h.2)
  | conditional condition a b yes c d no ihcondition ihyes ihno =>
    exact (ihcondition h.1).append <| (Balanced.of_blank a.blank).append <|
      hmark.append <| (Balanced.of_blank b.blank).append <| (ihyes h.2.1).append <|
        (Balanced.of_blank c.blank).append <| hcolon.append <|
          (Balanced.of_blank d.blank).append (ihno h.2.2)
  | guarded condition a b yes ihcondition ihyes =>
    exact (ihcondition h.1).append <| (Balanced.of_blank a.blank).append <|
      hmark.append <| (Balanced.of_blank b.blank).append (ihyes h.2)
  | elvis value a b default ihvalue ihdefault =>
    exact (ihvalue h.1).append <| (Balanced.of_blank a.blank).append <|
      hmark.append <| hcolon.append <| (Balanced.of_blank b.blank).append (ihdefault h.2)

/-- What is sheltered in brackets is sheltered outside them. -/
theorem Sheltered.outside {p : Phrase l} (h : p.Sheltered true) : p.Sheltered false := by
  induction p with
  | tighter _ p ih => exact ih h
  | atom a =>
    cases a with
    | substitution s => exact fun hfalse => absurd hfalse (by decide)
    | _ => trivial
  | bracket => exact h
  | not n p ih => exact ih h
  | binary _ _ _ _ ihleft ihright => exact ⟨ihleft h.1, ihright h.2⟩
  | conditional _ _ _ _ _ _ _ ihcondition ihyes ihno =>
    exact ⟨ihcondition h.1, ihyes h.2.1, ihno h.2.2⟩
  | guarded _ _ _ _ ihcondition ihyes => exact ⟨ihcondition h.1, ihyes h.2⟩
  | elvis _ _ _ _ ihvalue ihdefault => exact ⟨ihvalue h.1, ihdefault h.2⟩

theorem quiet_nil (n : Nesting) (previous : Option Char) (cs : List Char) :
    quiet [] n previous cs = true := by
  induction cs generalizing n previous with
  | nil => rfl
  | cons c cs ih => cases previous <;> simp [quiet, ih]

/-- A question mark and what stands after it, behind a condition. -/
theorem operand_question {condition a b yes : List Char} {hidden : List (List Char)}
    (hcondition : Operand (Level.hidden .disjunction) condition) (ha : Text.Blank a)
    (hb : Text.Blank b) (hyes : Operand hidden yes) (hsub : hidden ⊆ [[':']]) :
    Operand hidden (condition ++ (a ++ '?' :: (b ++ yes))) where
  solid := by
    have hsolid := hcondition.solid.append_append hyes.solid (a ++ '?' :: b)
    simpa using hsolid
  closes := by
    have hmark : step {} '?' = {} := rfl
    rw [after_append, hcondition.closes, after_append, after_blank ha, after_cons, hmark,
      after_append, after_blank hb, hyes.closes]
  quiet previous := by
    have hall : hidden ⊆ allOperators := fun o ho => (by decide : [[':']] ⊆ allOperators) (hsub ho)
    have hmark : quiet [[':']] {} (lastOf (lastOf previous condition) a) ['?'] = true := by
      cases lastOf (lastOf previous condition) a <;> rfl
    refine quiet_append (quiet_mono (hcondition.quiet previous) fun o ho =>
      (by decide : [[':']] ⊆ Level.hidden .disjunction) (hsub ho)) ?_
    rw [hcondition.closes]
    refine quiet_append (quiet_blank ha hall _) ?_
    rw [after_blank ha]
    show quiet _ _ _ (['?'] ++ (b ++ yes)) = true
    exact quiet_append (quiet_mono hmark hsub) (quiet_blank_operand hall hb hyes _)

/-- In a derivation no looser operator is seen than those of its level. -/
theorem operand {p : Phrase l} (h : p.Sheltered false) : Operand l.hidden p.chars := by
  induction p with
  | tighter hle p ih => exact (ih h).mono (Level.hidden_mono hle)
  | atom a => exact a.operand
  | bracket before p after ih =>
    have hinside := (Balanced.of_blank before.blank).append
      ((balanced h).append (.of_blank after.blank))
    have hclosed := Closed.bracket hinside
    have hoperand := hclosed.operand
    simp only [List.append_assoc] at hoperand
    exact hoperand
  | not n p ih => exact operand_negation (ih h) p.exists_head
  | binary o left gap right ihleft ihright =>
    exact operand_binary gap (ihleft h.1) (ihright h.2)
      (exists_head_append gap.after.blank right.exists_head)
  | conditional condition a b yes c d no ihcondition ihyes ihno =>
    have hyes := ihyes h.2.1
    have hno := ihno h.2.2
    have hrest : Operand [] (yes.chars ++ (c.chars ++ ':' :: (d.chars ++ no.chars))) := by
      refine ⟨?_, ?_, fun previous => quiet_nil _ previous _⟩
      · have hsolid := hyes.solid.append_append hno.solid (c.chars ++ ':' :: d.chars)
        simpa using hsolid
      · have hcolon : step {} ':' = {} := rfl
        simp only [after_append, after_cons, hcolon, hyes.closes, after_blank c.blank,
          after_blank d.blank, hno.closes]
    exact operand_question (ihcondition h.1) a.blank b.blank hrest (List.nil_subset _)
  | guarded condition a b yes ihcondition ihyes =>
    exact operand_question (ihcondition h.1) a.blank b.blank (ihyes h.2) (List.nil_subset _)
  | elvis value a b default ihvalue ihdefault =>
    have hvalue := ihvalue h.1
    have hdefault := ihdefault h.2
    refine ⟨?_, ?_, fun previous => quiet_nil _ previous _⟩
    · have hsolid := hvalue.solid.append_append hdefault.solid (a.chars ++ '?' :: ':' :: b.chars)
      simpa [chars] using hsolid
    · have hmark : step {} '?' = {} := rfl
      have hcolon : step {} ':' = {} := rfl
      simp only [chars, after_append, after_cons, hmark, hcolon, hvalue.closes,
        after_blank a.blank, after_blank b.blank, hdefault.closes]

/-! ## Colons -/

/-- Where a derivation has no colon, none is seen. -/
theorem operand_colonless {p : Phrase l} (h : p.Sheltered false) (hcolon : p.hasColon = false) :
    Operand [[':']] p.chars := by
  induction p with
  | tighter hle p ih => exact ih h hcolon
  | conditional | elvis => contradiction
  | guarded condition a b yes ihcondition ihyes =>
    exact operand_question (operand h.1) a.blank b.blank (ihyes h.2 hcolon) (List.Subset.refl _)
  | atom a => exact a.operand.mono (by decide)
  | bracket before p after => exact (operand (p := .bracket before p after) h).mono (by decide)
  | not n p => exact (operand (p := .not n p) h).mono (by decide)
  | binary o left gap right =>
    exact (operand (p := .binary o left gap right) h).mono <|
      List.Subset.trans (by decide) (Level.hidden_mono o.disjunction_le_level)

/-- A derivation with a colon has another reading before the first one. -/
theorem exists_cut {p : Phrase l} (h : p.Sheltered false) (hcolon : p.hasColon = true) :
    ∃ front gap back, p.chars = front ++ (gap ++ ':' :: back) ∧ Text.Blank gap ∧
      Operand [[':']] front ∧ Expr.parse front ≠ p.toExpr := by
  induction p with
  | tighter hle p ih => exact ih h hcolon
  | atom | bracket | not | binary => contradiction
  | conditional condition a b yes c d no ihcondition ihyes ihno =>
    have hcondition := operand h.1
    by_cases hyes : yes.hasColon = true
    · obtain ⟨front, gap, back, heq, hgap, hfront, -⟩ := ihyes h.2.1 hyes
      refine ⟨condition.chars ++ (a.chars ++ '?' :: (b.chars ++ front)), gap,
        back ++ (c.chars ++ ':' :: (d.chars ++ no.chars)), by simp [chars, heq], hgap,
        operand_question hcondition a.blank b.blank hfront (List.Subset.refl _), ?_⟩
      rw [parse_guarded (hcondition.mono (by decide)) hfront a.blank b.blank]
      exact Expr.noConfusion
    · have hfront := operand_colonless h.2.1 (Bool.not_eq_true _ ▸ hyes)
      refine ⟨condition.chars ++ (a.chars ++ '?' :: (b.chars ++ yes.chars)), c.chars,
        d.chars ++ no.chars, by simp [chars], c.blank,
        operand_question hcondition a.blank b.blank hfront (List.Subset.refl _), ?_⟩
      rw [parse_guarded (hcondition.mono (by decide)) hfront a.blank b.blank]
      exact Expr.noConfusion
  | guarded condition a b yes ihcondition ihyes =>
    have hcondition := operand h.1
    obtain ⟨front, gap, back, heq, hgap, hfront, hne⟩ := ihyes h.2 hcolon
    refine ⟨condition.chars ++ (a.chars ++ '?' :: (b.chars ++ front)), gap, back,
      by simp [chars, heq], hgap,
      operand_question hcondition a.blank b.blank hfront (List.Subset.refl _), ?_⟩
    rw [parse_guarded (hcondition.mono (by decide)) hfront a.blank b.blank]
    intro hread
    exact hne (Expr.guarded.inj hread).2
  | elvis value a b default ihvalue ihdefault =>
    have hvalue : Operand (Level.hidden .disjunction) value.chars := operand h.1
    have hmark : step {} '?' = {} := rfl
    have hend : Text.Solid ['?'] := ⟨⟨'?', rfl, by decide⟩, '?', rfl, by decide⟩
    have hsolid := hvalue.solid.append_append hend a.chars
    have hcloses : after {} (value.chars ++ (a.chars ++ ['?'])) = {} := by
      rw [after_append, hvalue.closes, after_append, after_blank a.blank, after_cons, hmark,
        after_nil]
    have hquiet (previous : Option Char) :
        quiet [[':']] {} previous (value.chars ++ (a.chars ++ ['?'])) = true := by
      refine quiet_append (quiet_mono (hvalue.quiet previous) (by decide)) ?_
      rw [hvalue.closes]
      refine quiet_append (quiet_blank a.blank (by decide) _) ?_
      rw [after_blank a.blank]
      cases lastOf (lastOf previous value.chars) a.chars <;> rfl
    refine ⟨value.chars ++ (a.chars ++ ['?']), [], b.chars ++ default.chars, by simp [chars],
      by simp [Text.Blank], ⟨hsolid, hcloses, hquiet⟩, ?_⟩
    rw [parse_colonless (hvalue.mono (by decide)) a.blank hsolid rfl]
    exact Expr.noConfusion

/-! ## Reading -/

/-- A derivation is read as it is exactly if no question mark takes a colon of another one. -/
theorem parse_chars_iff {p : Phrase l} (h : p.Sheltered false) :
    Expr.parse p.chars = p.toExpr ↔ p.Bracketed := by
  induction p with
  | tighter hle p ih => exact ih h
  | atom a => exact iff_of_true a.parse_chars trivial
  | bracket before p after ih =>
    have hinside := (Balanced.of_blank before.blank).append
      ((balanced h).append (.of_blank after.blank))
    have hread := parse_bracket hinside
    simp only [List.append_assoc] at hread
    rw [chars, hread, parse_blank_append before.blank,
      parse_append_blank (operand h.outside).solid after.blank]
    exact ih h.outside
  | not n p ih =>
    have hoperand : Operand allOperators p.chars := operand (p := p) h
    rw [chars, parse_negation hoperand p.exists_head, toExpr, Expr.not.injEq]
    exact ih h
  | binary o left gap right ihleft ihright =>
    rw [chars, parse_operands gap (operand h.1) (operand h.2)
      (exists_head_append gap.after.blank right.exists_head), toExpr, Operator.toExpr_inj,
      ihleft h.1, ihright h.2]
    rfl
  | conditional condition a b yes c d no ihcondition ihyes ihno =>
    have hcondition : Operand [['?']] condition.chars := (operand h.1).mono (by decide)
    by_cases hcolon : yes.hasColon = true
    · refine iff_of_false ?_ fun hbracketed => ?_
      · obtain ⟨front, gap, back, heq, hgap, hfront, hne⟩ := exists_cut h.2.1 hcolon
        have hsolid := (operand h).solid
        simp only [chars, heq, List.append_assoc, List.cons_append] at hsolid ⊢
        rw [parse_colon_at hcondition hfront a.blank b.blank hgap hsolid]
        intro hread
        exact hne (Expr.conditional.inj hread).2.1
      · exact absurd hcolon (by simp [hbracketed.2.2.2])
    · have hyes := operand_colonless h.2.1 (Bool.not_eq_true _ ▸ hcolon)
      rw [chars, parse_conditional hcondition hyes (operand h.2.2).solid a.blank b.blank c.blank
        d.blank, toExpr, Expr.conditional.injEq, ihcondition h.1, ihyes h.2.1, ihno h.2.2]
      simp only [Bracketed, hcolon, and_true]
  | guarded condition a b yes ihcondition ihyes =>
    have hcondition : Operand [['?']] condition.chars := (operand h.1).mono (by decide)
    by_cases hcolon : yes.hasColon = true
    · refine iff_of_false ?_ fun hbracketed => ?_
      · obtain ⟨front, gap, back, heq, hgap, hfront, hne⟩ := exists_cut h.2 hcolon
        have hsolid := (operand h).solid
        simp only [chars, heq] at hsolid ⊢
        rw [parse_colon_at hcondition hfront a.blank b.blank hgap hsolid]
        exact Expr.noConfusion
      · exact absurd hcolon (by simp [hbracketed.2.2])
    · have hyes := operand_colonless h.2 (Bool.not_eq_true _ ▸ hcolon)
      rw [chars, parse_guarded hcondition hyes a.blank b.blank, toExpr, Expr.guarded.injEq,
        ihcondition h.1, ihyes h.2]
      simp only [Bracketed, hcolon, and_true]
  | elvis value a b default ihvalue ihdefault =>
    have hvalue : Operand [['?']] value.chars := (operand h.1).mono (by decide)
    rw [chars, parse_elvis hvalue (operand h.2).solid a.blank b.blank, toExpr, Expr.elvis.injEq,
      ihvalue h.1, ihdefault h.2]
    rfl

end Grammar.Phrase

end NaturalTemplate
