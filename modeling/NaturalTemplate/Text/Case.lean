/-!
# Names without regard to case

Names of elements and attributes are compared with their ASCII letters in lower case; all other
characters stand for themselves.
-/
namespace NaturalTemplate.Text

def fold (cs : List Char) : List Char :=
  cs.map Char.toLower

/-- A name with its ASCII letters in lower case. -/
def lower (s : String) : String :=
  String.ofList (fold s.toList)

def sameName (a b : String) : Bool :=
  fold a.toList == fold b.toList

@[simp]
theorem sameName_iff {a b : String} : sameName a b = true ↔ fold a.toList = fold b.toList := by
  simp [sameName]

theorem sameName_refl (a : String) : sameName a a = true := by simp

theorem sameName_symm {a b : String} (h : sameName a b = true) : sameName b a = true := by
  simpa using (sameName_iff.mp h).symm

theorem sameName_trans {a b c : String} (hab : sameName a b = true) (hbc : sameName b c = true) :
    sameName a c = true := by
  simpa using (sameName_iff.mp hab).trans (sameName_iff.mp hbc)

end NaturalTemplate.Text
