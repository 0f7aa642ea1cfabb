import Mathlib.Data.List.Forall2
import NaturalTemplate.Proofs.Text.Escape

/-!
# Text with references in it

What becomes of references that are read and written again. The six that are known are spelled in
the usual way. The ampersand of every other one is taken for text, so the reference is gone.
-/
namespace NaturalTemplate.Text

/-- Two texts that a mark ends are the same if they begin the same way. -/
theorem eq_of_append_cons {α : Type} {mark : α} {xs ys xs' ys' : List α} (hxs : mark ∉ xs)
    (hys : mark ∉ ys) (h : xs ++ mark :: xs' = ys ++ mark :: ys') : xs = ys ∧ xs' = ys' := by
  induction xs generalizing ys with
  | nil =>
    cases ys with
    | nil => exact ⟨rfl, (List.cons.inj h).2⟩
    | cons y ys => exact absurd (by simp [(List.cons.inj h).1]) hys
  | cons x xs ih =>
    cases ys with
    | nil => exact absurd (by simp [(List.cons.inj h).1]) hxs
    | cons y ys =>
      obtain ⟨rfl, hrest⟩ := List.cons.inj h
      obtain ⟨rfl, htail⟩ := ih (fun hx => hxs (List.mem_cons_of_mem _ hx))
        (fun hy => hys (List.mem_cons_of_mem _ hy)) hrest
      exact ⟨rfl, htail⟩

/-! ## The references that are known -/

/-- A reference with a name or a number. -/
def reference (body : List Char) : List Char := '&' :: body ++ [';']

/-- The references that are read, and the characters that they stand for. -/
def knownReferences : List (List Char × Char) :=
  [(['a', 'm', 'p'], '&'), (['l', 't'], '<'), (['g', 't'], '>'), (['q', 'u', 'o', 't'], '"'),
    (['#', '3', '9'], '\''), (['a', 'p', 'o', 's'], '\'')]

/-- The character that a reference is read as. -/
def character? (body : List Char) : Option Char := knownReferences.lookup body

theorem mem_of_character? {body : List Char} {c : Char} (h : character? body = some c) :
    (body, c) ∈ knownReferences := by
  obtain ⟨before, after, hsplit, -⟩ := List.lookup_eq_some_iff.mp h
  rw [hsplit]
  exact List.mem_append_right _ List.mem_cons_self

/-- No reference that is known has a semicolon in it but the last character. -/
theorem not_mem_of_character? {body : List Char} {c : Char} (h : character? body = some c) :
    ';' ∉ body := by
  have hall : ∀ known ∈ knownReferences, ';' ∉ known.1 := by decide
  exact hall _ (mem_of_character? h)

/-- Among the references for a character is the one that it is written as. -/
theorem exists_escapeChar_eq {body : List Char} {c : Char} (h : character? body = some c) :
    ∃ body', character? body' = some c ∧ escapeChar c = reference body' := by
  have hall : ∀ known ∈ knownReferences, ∃ other ∈ knownReferences,
      character? other.1 = some known.2 ∧ escapeChar known.2 = reference other.1 := by
    decide
  obtain ⟨other, -, hcharacter, hwritten⟩ := hall _ (mem_of_character? h)
  exact ⟨other.1, hcharacter, hwritten⟩

theorem decodeReferences_of_character? {body : List Char} {c : Char}
    (h : character? body = some c) (rest : List Char) :
    decodeReferences (reference body ++ rest) = c :: decodeReferences rest := by
  have hmem := mem_of_character? h
  simp only [knownReferences, List.mem_cons, Prod.mk.injEq, List.not_mem_nil, or_false] at hmem
  rcases hmem with ⟨rfl, rfl⟩ | ⟨rfl, rfl⟩ | ⟨rfl, rfl⟩ | ⟨rfl, rfl⟩ | ⟨rfl, rfl⟩ | ⟨rfl, rfl⟩
  all_goals simp [reference, decodeReferences]

/-- The ampersand of a reference that is not known is read as itself. -/
theorem decodeReferences_of_character?_eq_none {body : List Char} (hbody : ';' ∉ body)
    (h : character? body = none) (rest : List Char) :
    decodeReferences (reference body ++ rest) =
      '&' :: decodeReferences (body ++ ';' :: rest) := by
  have hunknown (known more : List Char) (hsome : (character? known).isSome) :
      body ++ ';' :: rest ≠ known ++ ';' :: more := by
    obtain ⟨c, hknown⟩ := Option.isSome_iff_exists.mp hsome
    intro heq
    rw [(eq_of_append_cons hbody (not_mem_of_character? hknown) heq).1, hknown] at h
    contradiction
  have hstart : reference body ++ rest = '&' :: (body ++ ';' :: rest) := by simp [reference]
  rw [hstart, decodeReferences]
  · exact fun more _ => hunknown ['a', 'm', 'p'] more rfl
  · exact fun more _ => hunknown ['l', 't'] more rfl
  · exact fun more _ => hunknown ['g', 't'] more rfl
  · exact fun more _ => hunknown ['q', 'u', 'o', 't'] more rfl
  · exact fun more _ => hunknown ['#', '3', '9'] more rfl
  · exact fun more _ => hunknown ['a', 'p', 'o', 's'] more rfl

theorem decodeReferences_append_of_forall {front : List Char}
    (h : ∀ c ∈ front, needsEscape c = false) (rest : List Char) :
    decodeReferences (front ++ rest) = front ++ decodeReferences rest := by
  induction front with
  | nil => rfl
  | cons c front ih =>
    have hamp : c ≠ '&' := by
      rintro rfl
      exact absurd (h _ List.mem_cons_self) (by decide)
    rw [List.cons_append, decodeReferences_cons hamp,
      ih fun d hd => h d (List.mem_cons_of_mem _ hd), List.cons_append]

/-! ## Glyphs of text -/

/-- What a text is made of: characters that stand for themselves, and references. -/
inductive Glyph where
  | plain (c : Char)
  | reference (body : List Char)
deriving DecidableEq, Repr

namespace Glyph

def written : Glyph → List Char
  | plain c => [c]
  | reference body => Text.reference body

/-- The text that glyphs are written as. -/
def text (ps : List Glyph) : String := String.ofList (ps.flatMap written)

/-- Nothing that is to be written as a reference stands by itself, and no reference ends early. -/
def IsProper : Glyph → Prop
  | plain c => needsEscape c = false
  | reference body => ∀ c ∈ body, needsEscape c = false ∧ c ≠ ';'

instance (p : Glyph) : Decidable p.IsProper :=
  match p with
  | plain c => inferInstanceAs (Decidable (needsEscape c = false))
  | reference body => List.decidableBAll (fun c => needsEscape c = false ∧ c ≠ ';') body

/-- Whether a glyph is a character or one of the references that are known. -/
def IsKnown : Glyph → Prop
  | plain _ => True
  | reference body => (character? body).isSome

instance (p : Glyph) : Decidable p.IsKnown :=
  match p with
  | plain _ => inferInstanceAs (Decidable True)
  | reference body => inferInstanceAs (Decidable ((character? body).isSome = true))

/-- The same glyph, or another of the known references for the same character. -/
inductive Respells : Glyph → Glyph → Prop
  | same (p : Glyph) : Respells p p
  | other {body body' : List Char} {c : Char} (h : character? body = some c)
      (h' : character? body' = some c) : Respells (reference body) (reference body')

/-- What a glyph is written as when it has been read. -/
def rewritten : Glyph → List Char
  | plain c => [c]
  | reference body =>
    match character? body with
    | some c => escapeChar c
    | none => escapeChar '&' ++ body ++ [';']

/-- One glyph is read and written apart from those behind it. -/
theorem decodeReferences_written {p : Glyph} (hp : p.IsProper) (rest : List Char) :
    (decodeReferences (p.written ++ rest)).flatMap escapeChar =
      p.rewritten ++ (decodeReferences rest).flatMap escapeChar := by
  cases p with
  | plain c =>
    have hplain : ∀ d ∈ [c], needsEscape d = false := by
      intro d hd
      rw [List.mem_singleton.mp hd]
      exact hp
    rw [written, decodeReferences_append_of_forall hplain, List.flatMap_append,
      flatMap_escapeChar_of_forall hplain, rewritten]
  | reference body =>
    have hbody : ';' ∉ body := fun hmem => (hp _ hmem).2 rfl
    have hplain : ∀ c ∈ body ++ [';'], needsEscape c = false := by
      intro c hc
      obtain hc | hc := List.mem_append.mp hc
      · exact (hp c hc).1
      · rw [List.mem_singleton.mp hc]
        rfl
    cases hcharacter : character? body with
    | some c =>
      rw [written, decodeReferences_of_character? hcharacter, List.flatMap_cons, rewritten,
        hcharacter]
    | none =>
      have hend : body ++ ';' :: rest = (body ++ [';']) ++ rest := by simp
      rw [written, decodeReferences_of_character?_eq_none hbody hcharacter, hend,
        decodeReferences_append_of_forall hplain, List.flatMap_cons, List.flatMap_append,
        flatMap_escapeChar_of_forall hplain, rewritten, hcharacter]
      simp

/-- What is read and written again is rewritten glyph by glyph. -/
theorem escape_unescape_text {ps : List Glyph} (hps : ∀ p ∈ ps, p.IsProper) :
    escape (unescape (text ps)) = String.ofList (ps.flatMap rewritten) := by
  have hlist : (decodeReferences (ps.flatMap written)).flatMap escapeChar =
      ps.flatMap rewritten := by
    induction ps with
    | nil => rfl
    | cons p ps ih =>
      rw [List.flatMap_cons, decodeReferences_written (hps p List.mem_cons_self),
        ih fun q hq => hps q (List.mem_cons_of_mem _ hq), List.flatMap_cons]
  simp [escape, unescape, text, hlist]

/-! ## Respelling -/

theorem exists_respells {p : Glyph} (h : p.IsKnown) :
    ∃ q, p.Respells q ∧ p.rewritten = q.written := by
  cases p with
  | plain c => exact ⟨plain c, .same _, rfl⟩
  | reference body =>
    obtain ⟨c, hcharacter⟩ := Option.isSome_iff_exists.mp h
    obtain ⟨body', hcharacter', hwritten⟩ := exists_escapeChar_eq hcharacter
    refine ⟨reference body', .other hcharacter hcharacter', ?_⟩
    rw [rewritten, hcharacter]
    exact hwritten

/-- A glyph that was read and written again can only be one that respells it if it is known. The
texts behind are then the same. -/
theorem Respells.isKnown_of_append {p q : Glyph} (hpq : p.Respells q) (hp : p.IsProper)
    {rest rest' : List Char} (h : p.rewritten ++ rest = q.written ++ rest') :
    p.IsKnown ∧ rest = rest' := by
  have hknown {body body' : List Char} {c : Char} (hcharacter : character? body = some c)
      (hcharacter' : character? body' = some c)
      (heq : escapeChar c ++ rest = Text.reference body' ++ rest') :
      (reference body).IsKnown ∧ rest = rest' := by
    obtain ⟨usual, husual, hwritten⟩ := exists_escapeChar_eq hcharacter
    rw [hwritten] at heq
    simp only [Text.reference, List.cons_append, List.append_assoc, List.nil_append,
      List.cons.injEq, true_and] at heq
    exact ⟨by simp [IsKnown, hcharacter],
      (eq_of_append_cons (not_mem_of_character? husual) (not_mem_of_character? hcharacter') heq).2⟩
  cases hpq with
  | same =>
    cases p with
    | plain c => exact ⟨trivial, (List.cons.inj h).2⟩
    | reference body =>
      cases hcharacter : character? body with
      | some c =>
        rw [rewritten, hcharacter] at h
        exact hknown hcharacter hcharacter h
      | none =>
        have hbody : ';' ∉ body := fun hmem => (hp _ hmem).2 rfl
        have hamp : character? ['a', 'm', 'p'] = some '&' := rfl
        rw [rewritten, hcharacter] at h
        simp only [written, Text.reference, escapeChar, List.cons_append, List.append_assoc,
          List.nil_append, List.cons.injEq, true_and] at h
        have hsame : ['a', 'm', 'p'] = body :=
          (eq_of_append_cons (not_mem_of_character? hamp) hbody h).1
        rw [← hsame, hamp] at hcharacter
        contradiction
  | other hcharacter hcharacter' =>
    rw [rewritten, hcharacter] at h
    exact hknown hcharacter hcharacter' h

/-- Reading and writing again does no more than respell references exactly if all of them are known.
-/
theorem exists_respells_iff {ps : List Glyph} (hps : ∀ p ∈ ps, p.IsProper) :
    (∃ qs, List.Forall₂ Respells ps qs ∧ ps.flatMap rewritten = qs.flatMap written) ↔
      ∀ p ∈ ps, p.IsKnown := by
  induction ps with
  | nil => exact iff_of_true ⟨[], .nil, rfl⟩ (by simp)
  | cons p ps ih =>
    have ih := ih fun q hq => hps q (List.mem_cons_of_mem _ hq)
    rw [List.forall_mem_cons, ← ih]
    constructor
    · rintro ⟨_, hrespells, heq⟩
      cases hrespells with
      | cons hfirst hrest =>
        rw [List.flatMap_cons, List.flatMap_cons] at heq
        obtain ⟨hknown, htail⟩ := hfirst.isKnown_of_append (hps p List.mem_cons_self) heq
        exact ⟨hknown, _, hrest, htail⟩
    · rintro ⟨hknown, qs, hrest, htail⟩
      obtain ⟨q, hfirst, hwritten⟩ := exists_respells hknown
      refine ⟨q :: qs, .cons hfirst hrest, ?_⟩
      rw [List.flatMap_cons, List.flatMap_cons, hwritten, htail]

end Glyph
end NaturalTemplate.Text
