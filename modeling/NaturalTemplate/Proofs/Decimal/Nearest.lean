import Mathlib.Algebra.Order.Group.Int
import Mathlib.Tactic.Ring

/-!
# Integers to 53 binary digits

A floating-point number has room for 53 binary digits. An integer with more of them is rounded to
one that ends in zeros instead, and of two that are equally near it is the even one. Rounding keeps
the order, but it makes some integers equal.
-/
namespace NaturalTemplate.Decimal

/-- The integer that is nearest to `n / 2 ^ k`; of two it is the even one. -/
def halfEven (n k : ℕ) : ℕ :=
  if 2 * (n % 2 ^ k) < 2 ^ k then n / 2 ^ k
  else if 2 * (n % 2 ^ k) = 2 ^ k then n / 2 ^ k + n / 2 ^ k % 2
  else n / 2 ^ k + 1

theorem div_le_halfEven (n k : ℕ) : n / 2 ^ k ≤ halfEven n k := by
  unfold halfEven
  split_ifs <;> omega

theorem halfEven_le_div (n k : ℕ) : halfEven n k ≤ n / 2 ^ k + 1 := by
  unfold halfEven
  split_ifs <;> omega

@[simp]
theorem halfEven_zero (n : ℕ) : halfEven n 0 = n := by simp [halfEven, Nat.mod_one]

/-- Zeros at the end of a number can be cut off. -/
theorem halfEven_mul_two_pow (n j k : ℕ) : halfEven (n * 2 ^ j) (k + j) = halfEven n k := by
  have hj : 0 < 2 ^ j := Nat.two_pow_pos j
  have hdiv : n * 2 ^ j / 2 ^ (k + j) = n / 2 ^ k := by
    rw [pow_add, Nat.mul_div_mul_right _ _ hj]
  have hmod : n * 2 ^ j % 2 ^ (k + j) = n % 2 ^ k * 2 ^ j := by
    rw [pow_add, Nat.mul_mod_mul_right]
  have hlt : 2 * (n % 2 ^ k * 2 ^ j) < 2 ^ (k + j) ↔ 2 * (n % 2 ^ k) < 2 ^ k := by
    rw [pow_add, ← mul_assoc, Nat.mul_lt_mul_right hj]
  have heq : 2 * (n % 2 ^ k * 2 ^ j) = 2 ^ (k + j) ↔ 2 * (n % 2 ^ k) = 2 ^ k := by
    rw [pow_add, ← mul_assoc, Nat.mul_left_inj hj.ne']
  simp only [halfEven, hdiv, hmod, hlt, heq]

@[simp]
theorem halfEven_mul_self (n k : ℕ) : halfEven (n * 2 ^ k) k = n := by
  simpa using halfEven_mul_two_pow n k 0

theorem halfEven_mono {m n : ℕ} (h : m ≤ n) (k : ℕ) : halfEven m k ≤ halfEven n k := by
  have hdiv : m / 2 ^ k ≤ n / 2 ^ k := Nat.div_le_div_right h
  obtain heq | hlt := hdiv.eq_or_lt
  · have hm := Nat.div_add_mod m (2 ^ k)
    have hn := Nat.div_add_mod n (2 ^ k)
    rw [heq] at hm
    unfold halfEven
    rw [heq]
    split_ifs <;> omega
  · have := halfEven_le_div m k
    have := div_le_halfEven n k
    omega

/-! ## With as few zeros as possible -/

/-- How many binary digits of a number are too many. -/
def excess (n : ℕ) : ℕ := n.log2 - 52

/-- The natural number with at most 53 binary digits in front of its zeros that is nearest. -/
def nearestNat (n : ℕ) : ℕ := halfEven n (excess n) * 2 ^ excess n

theorem excess_of_lt {n : ℕ} (h : n < 2 ^ 53) : excess n = 0 := by
  obtain rfl | hn := eq_or_ne n 0
  · decide
  · have := (Nat.log2_lt hn).mpr h
    unfold excess
    omega

theorem nearestNat_of_le {n : ℕ} (h : n ≤ 2 ^ 53) : nearestNat n = n := by
  obtain rfl | hlt := h.eq_or_lt
  · decide
  · rw [nearestNat, excess_of_lt hlt, halfEven_zero, pow_zero, mul_one]

theorem lt_two_pow_excess (n : ℕ) : n < 2 ^ 53 * 2 ^ excess n := by
  rw [← pow_add]
  refine Nat.lt_log2_self.trans_le (Nat.pow_le_pow_right two_pos ?_)
  unfold excess
  omega

theorem two_pow_le_div {n : ℕ} (h : 52 ≤ n.log2) : 2 ^ 52 ≤ n / 2 ^ excess n := by
  have hn : n ≠ 0 := by
    rintro rfl
    simp at h
  rw [Nat.le_div_iff_mul_le (Nat.two_pow_pos _), ← pow_add, excess, Nat.add_sub_of_le h]
  exact Nat.log2_self_le hn

theorem halfEven_excess_le (n : ℕ) : halfEven n (excess n) ≤ 2 ^ 53 := by
  have hdiv : n / 2 ^ excess n < 2 ^ 53 :=
    (Nat.div_lt_iff_lt_mul (Nat.two_pow_pos _)).mpr (lt_two_pow_excess n)
  exact (halfEven_le_div n _).trans hdiv

theorem nearestNat_mono {m n : ℕ} (h : m ≤ n) : nearestNat m ≤ nearestNat n := by
  have hlog : m.log2 ≤ n.log2 := by
    obtain rfl | hm := eq_or_ne m 0
    · simp
    · exact (Nat.le_log2 (by omega)).mpr ((Nat.log2_self_le hm).trans h)
  have hexcess : excess m ≤ excess n := Nat.sub_le_sub_right hlog 52
  obtain heq | hlt := hexcess.eq_or_lt
  · rw [nearestNat, nearestNat, heq]
    exact Nat.mul_le_mul_right _ (halfEven_mono h _)
  · -- The number with fewer digits is rounded to a power of two at most, and the other one to no
    -- less than that.
    have hn : 2 ^ 52 ≤ halfEven n (excess n) := by
      refine (two_pow_le_div ?_).trans (div_le_halfEven n _)
      unfold excess at hlt
      omega
    calc nearestNat m ≤ 2 ^ 53 * 2 ^ excess m := Nat.mul_le_mul_right _ (halfEven_excess_le m)
      _ = 2 ^ 52 * 2 ^ (excess m + 1) := by ring
      _ ≤ 2 ^ 52 * 2 ^ excess n :=
        Nat.mul_le_mul_left _ (Nat.pow_le_pow_right two_pos hlt)
      _ ≤ nearestNat n := Nat.mul_le_mul_right _ hn

/-- The integer with at most 53 binary digits in front of its zeros that is nearest. -/
def nearest : ℤ → ℤ
  | .ofNat n => nearestNat n
  | .negSucc n => -nearestNat (n + 1)

theorem nearest_of_natAbs_le {n : ℤ} (h : n.natAbs ≤ 2 ^ 53) : nearest n = n := by
  cases n with
  | ofNat n => exact congrArg Nat.cast (nearestNat_of_le h)
  | negSucc n => exact congrArg (fun m : ℕ => -(m : ℤ)) (nearestNat_of_le h)

theorem nearest_mono {m n : ℤ} (h : m ≤ n) : nearest m ≤ nearest n := by
  cases m with
  | ofNat m =>
    cases n with
    | ofNat n => exact Int.ofNat_le.mpr (nearestNat_mono (Int.ofNat_le.mp h))
    | negSucc n =>
      have hlt : Int.negSucc n < m := (Int.negSucc_lt_zero n).trans_le (Int.natCast_nonneg m)
      exact absurd h (Int.not_le.mpr hlt)
  | negSucc m =>
    cases n with
    | ofNat n =>
      simp only [nearest]
      omega
    | negSucc n =>
      have := nearestNat_mono (show n + 1 ≤ m + 1 by omega)
      simp only [nearest]
      omega

/-- Where the nearest numbers differ, they are in the order of the integers. -/
theorem compare_nearest {m n : ℤ} (h : nearest m ≠ nearest n) :
    compare (nearest m) (nearest n) = compare m n := by
  obtain hlt | rfl | hgt := lt_trichotomy m n
  · rw [compare_lt_iff_lt.mpr hlt, compare_lt_iff_lt.mpr ((nearest_mono hlt.le).lt_of_ne h)]
  · exact absurd rfl h
  · rw [compare_gt_iff_gt.mpr hgt, compare_gt_iff_gt.mpr ((nearest_mono hgt.le).lt_of_ne h.symm)]

end NaturalTemplate.Decimal
