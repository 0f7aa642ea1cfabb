import NaturalTemplate.Decimal.Parse
import NaturalTemplate.Proofs.Text.Characters

/-!
# What numbers are written with

Whatever is read as a number consists of digits, letters, signs and points.
-/
namespace NaturalTemplate.Decimal

/-- The characters of numbers, and of the words that stand for some. -/
def isNumberChar (c : Char) : Bool := c.isAlphanum || c == '-' || c == '+' || c == '.'

variable {text : List Char}

theorem isNumberChar_of_isDigit {c : Char} (h : c.isDigit = true) : isNumberChar c = true := by
  simp [isNumberChar, Char.isAlphanum, h]

theorem isNumberChar_of_takeSign (h : ∀ c ∈ (takeSign text).2, isNumberChar c = true) :
    ∀ c ∈ text, isNumberChar c = true := by
  unfold takeSign at h
  split at h
  · exact List.forall_mem_cons.mpr ⟨rfl, h⟩
  · exact List.forall_mem_cons.mpr ⟨rfl, h⟩
  · exact h

theorem isNumberChar_of_whole? {n : Int} (h : whole? text = some n) :
    ∀ c ∈ text, isNumberChar c = true := by
  refine isNumberChar_of_takeSign ?_
  unfold whole? at h
  split at h
  · cases h
  · next digits _ hsign =>
    rw [hsign]
    split at h
    · next hall =>
      exact fun c hc => isNumberChar_of_isDigit (List.all_eq_true.mp hall c hc)
    · cases h

/-- A letter of a word in lower case is a letter. -/
theorem isNumberChar_of_toLower {c d : Char} (h : c.toLower = d) (hd : d.isAlpha = true) :
    isNumberChar c = true := by
  have halpha : c.isAlpha = true := Text.isAlpha_of_toLower (h ▸ hd)
  simp [isNumberChar, Char.isAlphanum, halpha]

theorem isNumberChar_of_word {word : List Char} (h : text.map Char.toLower = word)
    (hword : ∀ d ∈ word, d.isAlpha = true) : ∀ c ∈ text, isNumberChar c = true := by
  intro c hc
  exact isNumberChar_of_toLower rfl (hword _ (h ▸ List.mem_map_of_mem hc))

theorem isNumberChar_of_exponent? {n : Int} (h : exponent? text = some n) :
    ∀ c ∈ text, isNumberChar c = true := by
  unfold exponent? at h
  split at h
  · simp
  · split at h
    · next hc =>
      refine List.forall_mem_cons.mpr ⟨?_, isNumberChar_of_whole? h⟩
      obtain rfl | rfl := hc <;> rfl
    · cases h

theorem isNumberChar_of_takeWhile (h : ∀ c ∈ text.dropWhile Char.isDigit, isNumberChar c = true) :
    ∀ c ∈ text, isNumberChar c = true := by
  intro c hc
  rw [← List.takeWhile_append_dropWhile (p := Char.isDigit) (l := text)] at hc
  obtain hc | hc := List.mem_append.mp hc
  · exact isNumberChar_of_isDigit (List.all_eq_true.mp List.all_takeWhile c hc)
  · exact h c hc

theorem isNumberChar_of_unsigned? {x : Float} (h : unsigned? text = some x) :
    ∀ c ∈ text, isNumberChar c = true := by
  simp only [unsigned?] at h
  split at h
  · next hword =>
    obtain hword | hword := hword
    · exact isNumberChar_of_word hword (Text.forall_of_all (by decide))
    · exact isNumberChar_of_word hword (Text.forall_of_all (by decide))
  split at h
  · next hword => exact isNumberChar_of_word hword (Text.forall_of_all (by decide))
  have hexponent {front back rest : List Char} {f : Int → Float}
      (h : (if front = [] ∧ back = [] then none else (exponent? rest).map f) = some x) :
      ∀ c ∈ rest, isNumberChar c = true := by
    split at h
    · cases h
    · obtain ⟨n, hn, -⟩ := Option.map_eq_some_iff.mp h
      exact isNumberChar_of_exponent? hn
  refine isNumberChar_of_takeWhile ?_
  split at h
  · next after hafter =>
    rw [hafter]
    exact List.forall_mem_cons.mpr ⟨rfl, isNumberChar_of_takeWhile (hexponent h)⟩
  · exact hexponent h

theorem isNumberChar_of_int64? {n : Int64} (h : int64? text = some n) :
    ∀ c ∈ text, isNumberChar c = true := by
  obtain ⟨i, hi, -⟩ := Option.bind_eq_some_iff.mp h
  exact isNumberChar_of_whole? hi

theorem isNumberChar_of_float? {x : Float} (h : float? text = some x) :
    ∀ c ∈ text, isNumberChar c = true := by
  obtain ⟨y, hy, -⟩ := Option.map_eq_some_iff.mp h
  exact isNumberChar_of_takeSign (isNumberChar_of_unsigned? hy)

/-- A character of a number is not white space. -/
theorem isBlank_of_isNumberChar {c : Char} (h : isNumberChar c = true) :
    Text.isBlank c = false := by
  simp only [isNumberChar, Bool.or_eq_true, beq_iff_eq] at h
  obtain ((h | rfl) | rfl) | rfl := h
  · exact Text.isBlank_of_isNameChar (Text.isNameChar_of_isAlphanum h)
  all_goals decide

end NaturalTemplate.Decimal
