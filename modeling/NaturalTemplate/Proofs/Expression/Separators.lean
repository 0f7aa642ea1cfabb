import NaturalTemplate.Proofs.Expression.Reading

/-!
# Lists of expressions

A list is cut where its separator stands at the top level. Expressions of which none has a separator
there can be told apart if each one that another one follows closes what it opens. A derived
expression is such a one for every separator that the grammar does not use, whatever stands in its
brackets, strings and substitutions: but in brackets the bars of a substitution are not passed over,
and what is between them has to close what it opens.
-/
namespace NaturalTemplate
open Grammar

namespace Nesting

variable {separator : Char} {n : Nesting} {cs ds : List Char}

/-- Whether a text is in one piece: no separator stands at its top level. -/
def whole (separator : Char) (n : Nesting) : List Char → Bool
  | [] => true
  | c :: cs => !decide (c = separator ∧ n.atTop = true) && whole separator (n.step c) cs

@[simp] theorem whole_append :
    whole separator n (cs ++ ds) = (whole separator n cs && whole separator (n.after cs) ds) := by
  induction cs generalizing n with
  | nil => rfl
  | cons c cs ih => rw [List.cons_append, whole, whole, ih, after_cons, Bool.and_assoc]

theorem whole_of_ne (h : ∀ c ∈ cs, c ≠ separator) : whole separator n cs = true := by
  induction cs generalizing n with
  | nil => rfl
  | cons c cs ih =>
    obtain ⟨hc, hcs⟩ := List.forall_mem_cons.mp h
    simp [whole, hc, ih hcs]

/-- A text in which no operator is seen that is spelled as the separator. -/
theorem whole_of_quiet (hletter : separator.isAlpha = false) {p : Char}
    (h : quiet [[separator]] n (some p) cs = true) : whole separator n cs = true := by
  induction cs generalizing n p with
  | nil => rfl
  | cons c cs ih =>
    rw [quiet, Bool.and_eq_true] at h
    obtain ⟨hhere, hrest⟩ := h
    rw [whole, ih hrest, Bool.and_true]
    by_cases hc : c = separator
    · subst hc
      simpa [mayStand, hletter] using hhere
    · simp [hc]

/-! ## Cutting -/

theorem exists_splitAll (separator : Char) (n : Nesting) (cs : List Char) :
    ∃ part parts, splitAll separator n cs = part :: parts := by
  cases cs with
  | nil => exact ⟨_, _, rfl⟩
  | cons c cs =>
    rw [splitAll]
    split
    · exact ⟨_, _, rfl⟩
    · cases splitAll separator (n.step c) cs <;> exact ⟨_, _, rfl⟩

/-- The parts of a list are those between its separators. -/
theorem intercalate_splitAll (separator : Char) (n : Nesting) (cs : List Char) :
    [separator].intercalate (splitAll separator n cs) = cs := by
  induction cs generalizing n with
  | nil => rfl
  | cons c cs ih =>
    have hrest := ih (n.step c)
    obtain ⟨part, parts, hparts⟩ := exists_splitAll separator (n.step c) cs
    rw [splitAll]
    rw [hparts] at hrest ⊢
    split
    · next hc => rw [List.intercalate_cons_cons, hrest, hc.1]; rfl
    · rw [← hrest]
      cases parts <;> simp [List.intercalate_cons_cons]

theorem splitAll_eq_singleton_iff :
    splitAll separator n cs = [cs] ↔ whole separator n cs = true := by
  induction cs generalizing n with
  | nil => simp [splitAll, whole]
  | cons c cs ih =>
    obtain ⟨part, parts, hparts⟩ := exists_splitAll separator (n.step c) cs
    rw [splitAll, whole, Bool.and_eq_true, ← ih, hparts]
    by_cases hc : c = separator ∧ n.atTop = true
    · simp [hc]
    · rw [if_neg hc, decide_eq_false hc]
      simp

/-- The first part of a list ends where the first separator at the top level stands. -/
theorem splitAll_append_cons_iff {parts : List (List Char)} :
    splitAll separator n (cs ++ separator :: ds) = cs :: parts ↔
      whole separator n cs = true ∧ (n.after cs).atTop = true ∧
        splitAll separator ((n.after cs).step separator) ds = parts := by
  induction cs generalizing n with
  | nil =>
    obtain ⟨part, others, hothers⟩ := exists_splitAll separator (n.step separator) ds
    rw [List.nil_append, splitAll, after_nil, whole, hothers]
    by_cases htop : n.atTop = true <;> simp [htop]
  | cons c cs ih =>
    obtain ⟨part, others, hothers⟩ :=
      exists_splitAll separator (n.step c) (cs ++ separator :: ds)
    rw [List.cons_append, splitAll, after_cons, whole, Bool.and_eq_true, and_assoc, ← ih, hothers]
    by_cases hc : c = separator ∧ n.atTop = true
    · simp [hc]
    · rw [if_neg hc, decide_eq_false hc]
      simp

/-! ## The end of a text -/

theorem escaped_step (h : n.escaped = true → n.quoted = true) (c : Char) :
    (n.step c).escaped = true → (n.step c).quoted = true := by
  grind [step]

/-- Only some characters take a place from the top level or bring it there. -/
theorem atTop_after_of_plain (h : ∀ c ∈ cs, c ∉ Balanced.openers) :
    (n.after cs).atTop = n.atTop := by
  have hstep {c : Char} (hc : c ∉ Balanced.openers) (n : Nesting) : (n.step c).atTop = n.atTop := by
    simp only [Balanced.openers, List.mem_cons, not_or, List.not_mem_nil, not_false_iff,
      and_true] at hc
    grind [step, atTop]
  induction cs generalizing n with
  | nil => rfl
  | cons c cs ih =>
    obtain ⟨hc, hcs⟩ := List.forall_mem_cons.mp h
    rw [after_cons, ih hcs, hstep hc]

/-- Nothing is open at the top level after a text. -/
theorem atTop_after_iff : (after {} cs).atTop = true ↔ after {} cs = {} := by
  have hinvariant (n : Nesting) (h : n.escaped = true → n.quoted = true) :
      (n.after cs).escaped = true → (n.after cs).quoted = true := by
    induction cs generalizing n with
    | nil => exact h
    | cons c cs ih => exact ih _ (escaped_step h c)
  constructor
  · intro htop
    have hescaped := hinvariant {} nofun
    generalize after {} cs = n at *
    obtain ⟨quoted, escaped, substituting, depth⟩ := n
    simp only [atTop, Bool.and_eq_true, Bool.not_eq_true', beq_iff_eq] at htop
    obtain ⟨⟨rfl, rfl⟩, rfl⟩ := htop
    cases escaped with
    | true => exact absurd (hescaped rfl) Bool.false_ne_true
    | false => rfl
  · intro h
    rw [h]
    rfl

/-! ## Lists -/

/-- Whether the parts of a list can be told apart: none has a separator at its top level, and each
one that another one follows closes what it opens. -/
def Apart (separator : Char) (texts : List (List Char)) : Prop :=
  (∀ t ∈ texts, whole separator {} t = true) ∧ ∀ t ∈ texts.dropLast, after {} t = {}

/-- A list is cut in its parts exactly if these can be told apart. -/
theorem splitAll_intercalate_iff (hplain : separator ∉ Balanced.openers)
    {texts : List (List Char)} (hne : texts ≠ []) :
    splitAll separator {} ([separator].intercalate texts) = texts ↔ Apart separator texts := by
  induction texts with
  | nil => exact absurd rfl hne
  | cons t texts ih =>
    cases texts with
    | nil => simp [splitAll_eq_singleton_iff, Apart]
    | cons u texts =>
      have hrest := ih (List.cons_ne_nil u texts)
      rw [List.intercalate_cons_cons, List.append_assoc, List.singleton_append,
        splitAll_append_cons_iff, atTop_after_iff, Apart, List.dropLast_cons_cons]
      constructor
      · rintro ⟨hwhole, hcloses, hparts⟩
        rw [hcloses, Balanced.step_of_not_mem hplain 0, hrest] at hparts
        exact ⟨List.forall_mem_cons.mpr ⟨hwhole, hparts.1⟩,
          List.forall_mem_cons.mpr ⟨hcloses, hparts.2⟩⟩
      · rintro ⟨hwholes, hclosed⟩
        obtain ⟨hwhole, hwholes⟩ := List.forall_mem_cons.mp hwholes
        obtain ⟨hcloses, hclosed⟩ := List.forall_mem_cons.mp hclosed
        rw [hcloses, Balanced.step_of_not_mem hplain 0, hrest]
        exact ⟨hwhole, rfl, hwholes, hclosed⟩

/-- Two lists with the same text are the same if their parts have the same numbers of separators. -/
theorem eq_of_intercalate_eq {ps ts : List (List Char)}
    (hcount : List.Forall₂ (fun p t => p.count separator = t.count separator) ps ts)
    (h : [separator].intercalate ps = [separator].intercalate ts) : ps = ts := by
  have hnot {x cs ds : List Char} (hx : x.count separator = 0)
      (heq : x ++ cs = separator :: ds) : x = [] := by
    cases x with
    | nil => rfl
    | cons c x =>
      obtain ⟨rfl, -⟩ := List.cons.inj heq
      simp at hx
  induction hcount with
  | nil => rfl
  | @cons p t ps ts hpt hrest ih =>
    cases hrest with
    | nil => simpa using h
    | @cons q u ps ts hqu hrest =>
      simp only [List.intercalate_cons_cons, List.append_assoc, List.singleton_append] at h
      obtain ⟨x, rfl, hx⟩ | ⟨x, rfl, hx⟩ := List.append_eq_append_iff.mp h
      all_goals
        rw [List.count_append] at hpt
        obtain rfl := hnot (by omega) hx.symm
        rw [List.nil_append, List.cons.injEq] at hx
        rw [List.append_nil]
      · rw [ih hx.2]
      · rw [ih hx.2.symm]

end Nesting

/-! ## Expressions in a list -/

namespace Nesting

/-- A text that closes what it opens and has no separator at its top level. -/
structure Separable (separator : Char) (cs : List Char) : Prop where
  whole : whole separator {} cs = true
  closes : after {} cs = {}

namespace Separable

variable {separator : Char} {cs ds : List Char}

theorem append (hcs : Separable separator cs) (hds : Separable separator ds) :
    Separable separator (cs ++ ds) where
  whole := by rw [whole_append, hcs.whole, hcs.closes, hds.whole]; rfl
  closes := by rw [after_append, hcs.closes, hds.closes]

theorem of_plain (hplain : ∀ c ∈ cs, c ∉ Balanced.openers) (hne : ∀ c ∈ cs, c ≠ separator) :
    Separable separator cs :=
  ⟨whole_of_ne hne, (Balanced.of_plain hplain 0).1⟩

theorem bracket {front back : Char} (hfront : front = '(' ∨ front = '{')
    (hback : back = ')' ∨ back = '}') (hletter : separator.isAlpha = false)
    (hne : separator ≠ front) (h : Balanced cs) :
    Separable separator (front :: (cs ++ [back])) where
  whole := by
    have hhead : ∀ p, ∀ o ∈ [[separator]], mayStand p (front :: (cs ++ [back])) o = false := by
      intro p o ho
      obtain rfl := List.mem_singleton.mp ho
      simp [mayStand, hne, Ne.symm hne]
    have hquiet : quiet [[separator]] {} (some ' ') (front :: (cs ++ [back])) = true :=
      quiet_bracket hfront h hhead
    exact whole_of_quiet hletter hquiet
  closes := by
    obtain ⟨hcloses, -⟩ := h.bracket hfront hback 0
    exact hcloses

end Separable
end Nesting

open Nesting

theorem separable_blank {cs : List Char} (h : Text.Blank cs) : Separable ',' cs :=
  .of_plain (fun c hc => (plain_of_isBlank (h c hc)).2.1) fun c hc => by
    rintro rfl
    exact absurd (h ',' hc) (by decide)

namespace Grammar

theorem Number.separable (n : Number) : Separable ',' n.chars where
  whole := whole_of_ne fun c hc => by
    rintro rfl
    exact absurd (n.isNumberChar ',' hc) (by decide)
  closes := n.closed.operand.closes

/-- A path in braces, after the mark that says where it starts from. -/
theorem Names.separable (p : Names) {mark : Char} (hplain : mark ∉ Balanced.openers)
    (hne : mark ≠ ',') : Separable ',' (mark :: '{' :: (p.chars ++ ['}'])) := by
  have hmark : Separable ',' [mark] :=
    .of_plain (List.forall_mem_singleton.mpr hplain) (List.forall_mem_singleton.mpr hne)
  have hbraces : Separable ',' ('{' :: (p.chars ++ ['}'])) :=
    .bracket (.inr rfl) (.inr rfl) (by decide) (by decide) p.balanced
  exact hmark.append hbraces

theorem Atom.separable (a : Atom) : Separable ',' a.chars := by
  have hopened {c : Char} {cs : List Char} (hne : c ≠ ',')
      (h : whole ',' (step {} c) cs = true) : whole ',' {} (c :: cs) = true := by
    rw [whole, h]
    simp [hne]
  cases a with
  | «variable» p | selected p => exact p.separable (by decide) (by decide)
  | string cs =>
    refine ⟨hopened (by decide) ?_, (Atom.string cs).operand.closes⟩
    exact whole_of_quiet (by decide) (quiet_quoted cs (some '\''))
  | number n => exact n.separable
  | bool b => exact ⟨by cases b <;> rfl, (Atom.bool b).operand.closes⟩
  | null => exact ⟨rfl, rfl⟩
  | substitution s =>
    refine ⟨hopened (by decide) ?_, s.operand.closes⟩
    exact whole_of_quiet (by decide) (quiet_substituting s.barless (some '|'))

theorem Negation.separable (n : Negation) : Separable ',' n.chars := by
  cases n with
  | sign after =>
    have hsign : Separable ',' ['!'] := ⟨rfl, rfl⟩
    exact hsign.append (separable_blank after.blank)
  | word after =>
    exact (show Separable ',' ['n', 'o', 't', ' '] from ⟨rfl, rfl⟩).append
      (separable_blank after.blank)

theorem Operator.separable (o : Operator) : Separable ',' o.chars := by
  refine ⟨?_, o.after_chars⟩
  cases o with
  | or | and | add => rfl
  | equal word | differ word => cases word <;> rfl
  | order relation word => cases relation <;> cases word <;> rfl

/-- No comma of a derived expression is seen from outside, and nothing of it stays open. -/
theorem Phrase.separable {l : Level} {p : Phrase l} (h : p.Sheltered false) :
    Separable ',' p.chars := by
  have hmark : Separable ',' ['?'] := ⟨rfl, rfl⟩
  have hcolon : Separable ',' [':'] := ⟨rfl, rfl⟩
  induction p with
  | tighter _ p ih => exact ih h
  | atom a => exact a.separable
  | bracket before p after =>
    have hinside := (Balanced.of_blank before.blank).append
      ((balanced h).append (.of_blank after.blank))
    have hbracket : Separable ',' _ :=
      .bracket (.inl rfl) (.inl rfl) (by decide) (by decide) hinside
    simpa [chars] using hbracket
  | not n p ih => exact n.separable.append (ih h)
  | binary o left gap right ihleft ihright =>
    exact (ihleft h.1).append <| (separable_blank gap.before.blank).append <|
      o.separable.append <| (separable_blank gap.after.blank).append (ihright h.2)
  | conditional condition a b yes c d no ihcondition ihyes ihno =>
    exact (ihcondition h.1).append <| (separable_blank a.blank).append <|
      hmark.append <| (separable_blank b.blank).append <| (ihyes h.2.1).append <|
        (separable_blank c.blank).append <| hcolon.append <|
          (separable_blank d.blank).append (ihno h.2.2)
  | guarded condition a b yes ihcondition ihyes =>
    exact (ihcondition h.1).append <| (separable_blank a.blank).append <|
      hmark.append <| (separable_blank b.blank).append (ihyes h.2)
  | elvis value a b default ihvalue ihdefault =>
    exact (ihvalue h.1).append <| (separable_blank a.blank).append <|
      hmark.append <| hcolon.append <| (separable_blank b.blank).append (ihdefault h.2)

/-- A derived expression has no white space at its ends. -/
theorem Phrase.solid {l : Level} (p : Phrase l) : Text.Solid p.chars := by
  induction p with
  | tighter _ p ih => exact ih
  | atom a => exact a.operand.solid
  | bracket before p after =>
    have hends := Text.solid_of_ends (before.chars ++ (p.chars ++ after.chars))
      (by decide : Text.isBlank '(' = false) (by decide : Text.isBlank ')' = false)
    simpa [chars] using hends
  | not n p ih =>
    cases n with
    | sign after => exact ih.cons_append after.chars (by decide)
    | word after => exact ih.cons_append ('o' :: 't' :: ' ' :: after.chars) (by decide)
  | binary o left gap right ihleft ihright =>
    simpa [chars] using
      ihleft.append_append ihright (gap.before.chars ++ (o.chars ++ gap.after.chars))
  | conditional condition a b yes c d no ihcondition ihyes ihno =>
    simpa [chars] using ihcondition.append_append ihno
      (a.chars ++ '?' :: (b.chars ++ (yes.chars ++ (c.chars ++ ':' :: d.chars))))
  | guarded condition a b yes ihcondition ihyes =>
    simpa [chars] using ihcondition.append_append ihyes (a.chars ++ '?' :: b.chars)
  | elvis value a b default ihvalue ihdefault =>
    simpa [chars] using ihvalue.append_append ihdefault (a.chars ++ '?' :: ':' :: b.chars)

end Grammar
end NaturalTemplate
