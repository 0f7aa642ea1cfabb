import Mathlib.Tactic
import NaturalTemplate.Text.Blank
import NaturalTemplate.Text.Case
import NaturalTemplate.Text.Numeric

/-!
# Facts about characters

Which characters the classes of the lexer and of expressions keep apart.
-/
namespace NaturalTemplate.Text

/-- Only letters change when they are put in lower case. -/
theorem eq_of_toLower_eq {c d : Char} (hd : d.isLower = false) (h : c.toLower = d) : c = d := by
  by_cases hup : c.val ≥ 'A'.val ∧ c.val ≤ 'Z'.val
  · have hval : d.val = c.val + ('a'.val - 'A'.val) := by
      rw [← h]
      exact congrArg Char.val (dif_pos hup)
    have hnat : d.val.toNat = (c.val.toNat + 32) % 2 ^ 32 := by
      rw [hval, UInt32.toNat_add]
      rfl
    obtain ⟨hlow, hhigh⟩ := hup
    have hd : (decide (d.val ≥ 'a'.val) && decide (d.val ≤ 'z'.val)) = false := hd
    simp only [UInt32.le_iff_toNat_le, ge_iff_le, Bool.and_eq_false_iff,
      decide_eq_false_iff_not] at hd hlow hhigh
    simp only [Char.reduceVal, UInt32.reduceToNat] at hd hlow hhigh
    omega
  · have hlower : c.toLower = c := dif_neg hup
    rw [← h, hlower]

/-- A character is a letter if it is one in lower case. -/
theorem isAlpha_of_toLower {c : Char} (h : c.toLower.isAlpha = true) : c.isAlpha = true := by
  by_cases hup : c.val ≥ 'A'.val ∧ c.val ≤ 'Z'.val
  · have hupper : c.isUpper = true := decide_eq_true hup
    exact Bool.or_eq_true_iff.mpr (.inl hupper)
  · have hlower : c.toLower = c := dif_neg hup
    rwa [← hlower]

/-- The characters with the property White_Space, by code point. -/
def blankCodes : List Nat :=
  [0x9, 0xA, 0xB, 0xC, 0xD, 0x20, 0x85, 0xA0, 0x1680, 0x2000, 0x2001, 0x2002, 0x2003, 0x2004,
   0x2005, 0x2006, 0x2007, 0x2008, 0x2009, 0x200A, 0x2028, 0x2029, 0x202F, 0x205F, 0x3000]

theorem toNat_mem_blankCodes {c : Char} (h : isBlank c = true) : c.toNat ∈ blankCodes := by
  simp only [isBlank, Bool.or_eq_true, Bool.and_eq_true, decide_eq_true_eq, beq_iff_eq] at h
  simp only [blankCodes, List.mem_cons, List.not_mem_nil, or_false]
  omega

/-- What a test has found to hold of every character in a list. -/
theorem forall_of_all {p : Char → Prop} [DecidablePred p] {cs : List Char}
    (h : cs.all (fun c => decide (p c)) = true) : ∀ c ∈ cs, p c := by
  intro c hc
  exact of_decide_eq_true (List.all_eq_true.mp h c hc)

/-- The characters that a name has after its first one. -/
def isNameChar (c : Char) : Bool := isAlphanumeric c || c == '_'

theorem isNameChar_of_isAlphanum {c : Char} (h : c.isAlphanum = true) : isNameChar c = true := by
  rw [Char.isAlphanum, Bool.or_eq_true] at h
  obtain h | h := h
  · simp [isNameChar, isAlphanumeric, isAlphabetic_of_isAlpha h]
  · have hlt : c.toNat < 0x80 := by
      simp only [Char.isDigit, Bool.and_eq_true, decide_eq_true_eq, UInt32.le_iff_toNat_le] at h
      have hval : c.toNat = c.val.toNat := rfl
      have hnine : '9'.val.toNat = 57 := rfl
      omega
    simp [isNameChar, isAlphanumeric, isNumeric, hlt, h]

theorem isBlank_of_isNameChar {c : Char} (h : isNameChar c = true) : isBlank c = false := by
  by_contra hblank
  rw [Bool.not_eq_false] at hblank
  have hcodes : ∀ code ∈ blankCodes, isNameChar (Char.ofNat code) = false := by decide +kernel
  have hname := hcodes _ (toNat_mem_blankCodes hblank)
  rw [Char.ofNat_toNat, h] at hname
  contradiction

theorem isBlank_of_isAlphabetic {c : Char} (h : isAlphabetic c = true) : isBlank c = false :=
  isBlank_of_isNameChar (by simp [isNameChar, isAlphanumeric, h])

end NaturalTemplate.Text
