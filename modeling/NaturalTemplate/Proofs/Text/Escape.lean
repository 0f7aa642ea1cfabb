import Mathlib.Data.List.TakeWhile
import NaturalTemplate.Markup.Element
import NaturalTemplate.Proofs.Text.Characters

/-!
# Escaped text

No mark that could end a text or a quoted value is left in escaped text, and an ampersand stands in
it only where a reference begins. Texts can be escaped one after the other or together, and a text
in which nothing needs a reference is left as it is.
-/
namespace NaturalTemplate.Text

theorem not_mem_escapeChar (c : Char) : ∀ mark ∈ ['<', '>', '"', '\''], mark ∉ escapeChar c := by
  unfold escapeChar
  split
  case h_6 hlt hgt hdouble hsingle =>
    intro mark hmark hc
    rw [List.mem_singleton] at hc
    subst hc
    simp only [List.mem_cons, List.not_mem_nil, or_false] at hmark
    obtain h | h | h | h := hmark
    · exact hlt h
    · exact hgt h
    · exact hdouble h
    · exact hsingle h
  all_goals exact forall_of_all (by decide)

theorem not_mem_escape {mark : Char} (hmark : mark ∈ ['<', '>', '"', '\'']) (s : String) :
    mark ∉ (escape s).toList := by
  intro hmem
  rw [escape, String.toList_ofList] at hmem
  obtain ⟨c, -, hc⟩ := List.mem_flatMap.mp hmem
  exact not_mem_escapeChar c mark hmark hc

/-- A character is written as itself or as a reference, and a reference has no ampersand but the one
that it starts with. -/
theorem escapeChar_cases (c : Char) :
    (needsEscape c = false ∧ escapeChar c = [c]) ∨
      (c ∈ ['&', '<', '>', '"', '\''] ∧ ∃ body, escapeChar c = '&' :: body ∧ '&' ∉ body) := by
  unfold escapeChar
  split
  case h_6 hamp hlt hgt hdouble hsingle =>
    refine .inl ⟨?_, rfl⟩
    simp only [needsEscape, Bool.or_eq_false_iff, beq_eq_false_iff_ne]
    exact ⟨⟨⟨⟨hamp, hlt⟩, hgt⟩, hdouble⟩, hsingle⟩
  all_goals exact .inr ⟨by decide, _, rfl, by decide⟩

theorem escapeChar_of_needsEscape_eq_false {c : Char} (h : needsEscape c = false) :
    escapeChar c = [c] := by
  obtain ⟨-, heq⟩ | ⟨hmem, -⟩ := escapeChar_cases c
  · exact heq
  · have hneeds : ∀ d ∈ ['&', '<', '>', '"', '\''], needsEscape d = true :=
      forall_of_all (by decide)
    rw [hneeds c hmem] at h
    contradiction

/-- An ampersand in escaped text starts one of the references that are written. -/
theorem exists_escapeChar_isPrefix {cs front back : List Char}
    (h : cs.flatMap escapeChar = front ++ '&' :: back) :
    ∃ c ∈ ['&', '<', '>', '"', '\''], escapeChar c <+: '&' :: back := by
  induction cs generalizing front with
  | nil => simp at h
  | cons c cs ih =>
    rw [List.flatMap_cons, List.append_eq_append_iff] at h
    obtain ⟨skipped, -, hrest⟩ | ⟨more, hchar, hback⟩ := h
    · exact ih hrest
    cases more with
    | nil =>
      have hhead : cs.flatMap escapeChar = [] ++ '&' :: back := hback.symm
      exact ih hhead
    | cons d more =>
      rw [List.cons_append, List.cons.injEq] at hback
      obtain ⟨rfl, rfl⟩ := hback
      obtain ⟨hplain, hself⟩ | ⟨hmem, body, hbody, hnot⟩ := escapeChar_cases c
      · have hc : '&' ∈ [c] := by
          rw [← hself, hchar]
          exact List.mem_append_right _ List.mem_cons_self
        rw [← List.mem_singleton.mp hc] at hplain
        contradiction
      · cases front with
        | nil =>
          refine ⟨c, hmem, ?_⟩
          rw [hchar, List.nil_append, ← List.cons_append]
          exact List.prefix_append _ _
        | cons e front =>
          rw [hbody, List.cons_append, List.cons.injEq] at hchar
          rw [hchar.2] at hnot
          exact absurd (List.mem_append_right _ List.mem_cons_self) hnot

theorem escape_append (s t : String) : escape (s ++ t) = escape s ++ escape t := by
  simp [escape]

theorem flatMap_escapeChar_of_forall {cs : List Char} (h : ∀ c ∈ cs, needsEscape c = false) :
    cs.flatMap escapeChar = cs := by
  rw [List.flatMap_congr (g := fun c => [c])
    (fun c hc => escapeChar_of_needsEscape_eq_false (h c hc)), List.flatMap_singleton']

/-- A text is used as it stands where nothing in it needs a reference. -/
theorem escaped?_eq_none_iff (s : String) :
    escaped? s = none ↔ ∀ c ∈ s.toList, needsEscape c = false := by
  rw [escaped?]
  split
  · next h => simpa [List.dropWhile_eq_nil_iff] using h
  · next h => simpa [List.dropWhile_eq_nil_iff] using h

/-- What is made only where it differs is the same text. -/
theorem getD_escaped? (s : String) : (escaped? s).getD s = escape s := by
  have hplain : (s.toList.takeWhile (!needsEscape ·)).flatMap escapeChar =
      s.toList.takeWhile (!needsEscape ·) :=
    flatMap_escapeChar_of_forall fun c hc => by simpa using List.mem_takeWhile_imp hc
  have hsplit : escape s = String.ofList (s.toList.takeWhile (!needsEscape ·) ++
      (s.toList.dropWhile (!needsEscape ·)).flatMap escapeChar) := by
    rw [escape, ← hplain, ← List.flatMap_append, List.takeWhile_append_dropWhile]
  rw [escaped?, hsplit]
  split
  · next h =>
    have hall : s.toList.takeWhile (!needsEscape ·) = s.toList := by
      conv_rhs => rw [← List.takeWhile_append_dropWhile (p := (!needsEscape ·)) (l := s.toList), h]
      rw [List.append_nil]
    rw [h, hall, List.flatMap_nil, List.append_nil, String.ofList_toList, Option.getD_none]
  · rfl

/-- Escaped text, as the value of an attribute, stands for the text that it was made from. It has no
angle bracket and no quote, each ampersand in it starts one of the references that are written, and
texts may be escaped apart or together. All this holds of text that is used as it stands too, which
is the text where nothing needs a reference. -/
theorem decodedValue_make_escape (name s t : String) :
    (Markup.Attribute.make name (escape s)).decodedValue = s ∧
      (∀ mark ∈ ['<', '>', '"', '\''], mark ∉ (escape s).toList) ∧
      (∀ front back, (escape s).toList = front ++ '&' :: back →
        ∃ c ∈ ['&', '<', '>', '"', '\''], escapeChar c <+: '&' :: back) ∧
      escape (s ++ t) = escape s ++ escape t ∧
      ∀ u, (escaped? u).getD u = escape u ∧
        (escaped? u = none ↔ ∀ c ∈ u.toList, needsEscape c = false) := by
  refine ⟨unescape_escape s, fun mark hmark => not_mem_escape hmark s, ?_, escape_append s t,
    fun u => ⟨getD_escaped? u, escaped?_eq_none_iff u⟩⟩
  intro front back h
  rw [escape, String.toList_ofList] at h
  exact exists_escapeChar_isPrefix h

end NaturalTemplate.Text
