import NaturalTemplate.Decimal.Parse

/-!
# Whole numbers are read as they are printed
-/
namespace NaturalTemplate.Decimal

theorem toList_toString (i : Int) :
    (toString i).toList =
      if i < 0 then '-' :: Nat.toDigits 10 i.natAbs else Nat.toDigits 10 i.natAbs := by
  cases i with
  | ofNat m =>
    show (Nat.repr m).toList = _
    simp
  | negSucc m =>
    show ("-" ++ Nat.repr (m + 1)).toList = _
    simp

theorem digitsValue_toDigits (n : Nat) : digitsValue 0 (Nat.toDigits 10 n) = n := by
  have hfold : ∀ (cs : List Char) (m : Nat), digitsValue m cs = Nat.ofDigitChars 10 cs m := by
    intro cs
    induction cs with
    | nil => intro m; rfl
    | cons c cs ih =>
      intro m
      rw [Nat.ofDigitChars_cons, ← ih, Nat.mul_comm]
      rfl
  rw [hfold, Nat.ofDigitChars_ten_toDigits]

theorem isDigit_of_mem_toDigits {n : Nat} {c : Char} (h : c ∈ Nat.toDigits 10 n) :
    c.isDigit = true :=
  Nat.isDigit_of_mem_toDigits (by decide) (by decide) h

theorem whole?_toString (i : Int) : whole? (toString i).toList = some i := by
  obtain ⟨d, ds, hdigits⟩ := List.exists_cons_of_ne_nil (@Nat.toDigits_ne_nil i.natAbs 10)
  have hall : (d :: ds).all Char.isDigit = true :=
    List.all_eq_true.mpr fun c hc => isDigit_of_mem_toDigits (hdigits ▸ hc)
  have hvalue : digitsValue 0 (d :: ds) = i.natAbs := hdigits ▸ digitsValue_toDigits _
  rw [toList_toString, hdigits]
  split
  · next hneg =>
    simp only [whole?, takeSign, hall, hvalue, if_true, Option.some.injEq]
    omega
  · next hneg =>
    have hd : d.isDigit = true := by simp_all
    have hminus : d ≠ '-' := by rintro rfl; contradiction
    have hplus : d ≠ '+' := by rintro rfl; contradiction
    have hsign : takeSign (d :: ds) = (false, d :: ds) := by
      unfold takeSign
      split <;> simp_all
    simp only [whole?, hsign, hall, hvalue, if_true, Bool.false_eq_true, if_false,
      Option.some.injEq]
    omega

/-- An integer of 64 bits is read as it is printed. -/
theorem int64?_toString (n : Int64) : int64? (toString n.toInt).toList = some n := by
  have hrange : Int64.minValue.toInt ≤ n.toInt ∧ n.toInt ≤ Int64.maxValue.toInt :=
    ⟨n.minValue_le_toInt, n.toInt_le⟩
  rw [int64?, whole?_toString, Option.bind_some, toInt64?, if_pos hrange, Int64.ofInt_toInt]

end NaturalTemplate.Decimal
