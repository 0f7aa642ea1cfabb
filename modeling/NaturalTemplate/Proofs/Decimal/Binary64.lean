import Mathlib
import NaturalTemplate.Proofs.Decimal.Nearest

/-!
# Integers as floating-point numbers

The floating-point number that is made from an integer is the nearest one with 53 binary digits, and
two of them are in the order of these. It is followed through the model of the numbers: how a
mantissa is cut to length and rounded, how a number is packed into 64 bits and read from them again,
and how two are compared.
-/
namespace NaturalTemplate.Decimal
open Float.Model (Format UnpackedFloat totalExponent)
open Float.Model.UnpackedFloat

/-! ## Rounding a mantissa -/

/-- What is left of `n / d`: the integer part, and two bits that tell how the rest compares with
nothing and with one half. -/
def Cut (n d : ℕ) (x : ExtendedMantissa) : Prop :=
  ∃ r < d, n = d * x.mantissa + r ∧ (x.roundBit = true ↔ d ≤ 2 * r) ∧
    (x.stickyBit = true ↔ r ≠ 0 ∧ 2 * r ≠ d)

namespace Cut

variable {n d k : ℕ} {x : ExtendedMantissa}

theorem one (n : ℕ) : Cut n 1 (.ofMantissaAndAccuracy n .exact) :=
  ⟨0, one_pos, by simp [ExtendedMantissa.ofMantissaAndAccuracy]⟩

/-- The last digit goes into the rest. -/
theorem shiftRightOne (h : Cut n d x) : Cut n (d * 2) x.shiftRightOne := by
  obtain ⟨q, round, sticky⟩ := x
  obtain ⟨r, hr, hn, hround, hsticky⟩ := h
  simp only at hn hround hsticky
  obtain ⟨t, rfl | rfl⟩ := Nat.even_or_odd' q
  · refine ⟨r, by omega, ?_, ?_, ?_⟩
    · simp only [ExtendedMantissa.shiftRightOne, Nat.mul_div_cancel_left t two_pos]
      linarith
    · simp only [ExtendedMantissa.shiftRightOne, Nat.mul_mod_right]
      simp
      omega
    · simp only [ExtendedMantissa.shiftRightOne, Bool.or_eq_true, hround, hsticky]
      omega
  · refine ⟨d + r, by omega, ?_, ?_, ?_⟩
    · have hhalf : (2 * t + 1) / 2 = t := by omega
      simp only [ExtendedMantissa.shiftRightOne, hhalf]
      linarith
    · simp only [ExtendedMantissa.shiftRightOne]
      simp
      omega
    · simp only [ExtendedMantissa.shiftRightOne, Bool.or_eq_true, hround, hsticky]
      omega

theorem shiftRight (n k : ℕ) :
    Cut n (2 ^ k) (ExtendedMantissa.ofMantissaAndAccuracy n .exact >>> k) := by
  induction k with
  | zero => exact one n
  | succ k ih => exact ih.shiftRightOne

theorem mantissa_eq (h : Cut n d x) : x.mantissa = n / d := by
  obtain ⟨r, hr, hn, -⟩ := h
  rw [hn, Nat.mul_add_div (by omega), Nat.div_eq_of_lt hr, Nat.add_zero]

theorem roundedMantissa_eq (h : Cut n (2 ^ k) x) : x.roundedMantissa = halfEven n k := by
  have hdiv := h.mantissa_eq
  obtain ⟨q, round, sticky⟩ := x
  obtain ⟨r, hr, hn, hround, hsticky⟩ := h
  simp only at hn hround hsticky hdiv
  have hmod : n % 2 ^ k = r := by
    rw [hn, Nat.mul_add_mod, Nat.mod_eq_of_lt hr]
  rw [halfEven, ← hdiv, hmod]
  cases round <;> cases sticky <;>
    simp only [ExtendedMantissa.roundedMantissa, ExtendedMantissa.accuracy,
      Accuracy.roundToNearestEven] <;> simp at hround hsticky <;> split_ifs <;> omega

end Cut

/-! ## Numbers with all their digits -/

/-- The number with some sign and some amount, written with 53 binary digits. -/
def Normal (u : UnpackedFloat) (s : Sign) (q : ℚ) : Prop :=
  ∃ m e h, u = .finite s m e h ∧ 2 ^ 52 ≤ m ∧ m < 2 ^ 53 ∧ -1074 ≤ e ∧ e ≤ 971 ∧
    (m : ℚ) * 2 ^ e = q

theorem log2_eq_of_normal {m : ℕ} (hlower : 2 ^ 52 ≤ m) (hupper : m < 2 ^ 53) : m.log2 = 52 :=
  (Nat.log2_eq_iff (by omega)).mpr ⟨hlower, hupper⟩

theorem log2_mul_two_pow {n : ℕ} (hn : n ≠ 0) (k : ℕ) : (n * 2 ^ k).log2 = n.log2 + k := by
  have hpos : 0 < n * 2 ^ k := Nat.mul_pos (Nat.pos_of_ne_zero hn) (Nat.two_pow_pos k)
  refine (Nat.log2_eq_iff hpos.ne').mpr ⟨?_, ?_⟩
  · rw [pow_add]
    exact Nat.mul_le_mul_right _ (Nat.log2_self_le hn)
  · rw [Nat.add_right_comm, pow_add]
    exact Nat.mul_lt_mul_of_pos_right Nat.lt_log2_self (Nat.two_pow_pos k)

theorem shiftToTargetExponent_exact {m : ℕ} {e : ℤ} (h : -1074 ≤ e + excess m) :
    shiftToTargetExponent .binary64 m e .exact =
      (ExtendedMantissa.ofMantissaAndAccuracy m .exact >>> excess m, e + excess m) := by
  have hshift : (Format.binary64.targetExponent (totalExponent m e) - e).toNat = excess m := by
    simp only [Format.targetExponent, totalExponent, Format.mantissaBits, Format.minExponent]
    unfold excess at *
    omega
  rw [shiftToTargetExponent, shiftToExponent, hshift]

/-- Rounding a number that has no digits missing. Where it is rounded up to a power of two, it has a
digit too many again, which is a zero. -/
theorem normal_roundWithAccuracy (s : Sign) {n : ℕ} {e : ℤ} (hn : 52 ≤ n.log2)
    (hlow : -1074 ≤ e + excess n) (hhigh : e + excess n < 971) :
    Normal (roundWithAccuracy .binary64 s n e .exact) s
      (halfEven n (excess n) * 2 ^ (e + excess n)) := by
  have hrounded := (Cut.shiftRight n (excess n)).roundedMantissa_eq
  have hlower : 2 ^ 52 ≤ halfEven n (excess n) :=
    (two_pow_le_div hn).trans (div_le_halfEven n _)
  have hupper := halfEven_excess_le n
  have hfirst := shiftToTargetExponent_exact hlow
  generalize halfEven n (excess n) = r at *
  have hsecond : shiftToTargetExponent .binary64 r (e + excess n) .exact = _ :=
    shiftToTargetExponent_exact (by omega)
  have hmantissa := (Cut.shiftRight r (excess r)).mantissa_eq
  simp only [roundWithAccuracy, hfirst, hrounded, hsecond, hmantissa]
  obtain hr | rfl := hupper.lt_or_eq
  · have hexcess : excess r = 0 := excess_of_lt hr
    rw [dif_neg (by rw [hexcess]; omega)]
    exact ⟨_, _, _, rfl, by rw [hexcess]; omega, by rw [hexcess]; omega, by omega, by omega,
      by simp [hexcess]⟩
  · have hexcess : excess (2 ^ 53) = 1 := by decide
    rw [dif_neg (by decide)]
    refine ⟨_, _, _, rfl, by decide, by decide, by omega, by omega, ?_⟩
    rw [hexcess, zpow_add₀ two_ne_zero (e + excess n)]
    norm_num
    ring

/-! ## Packing into bits -/

theorem unpackSign_packComponents (s : Sign) (e : BitVec 11) (m : BitVec 52) :
    unpackSign (packComponents .binary64 s e m) = s.toBitVec := by
  ext i hi
  obtain rfl : i = 0 := by omega
  have hbit : (s.toBitVec ++ e ++ m).getLsbD 63 = s.toBitVec[0] := by
    rw [BitVec.getLsbD_append, BitVec.getLsbD_append]
    rfl
  simp only [unpackSign, packComponents, BitVec.extractLsb, BitVec.getElem_cast,
    BitVec.getElem_extractLsb']
  exact hbit

theorem ofBitVec_toBitVec (s : Sign) : Sign.ofBitVec s.toBitVec = s := by
  cases s <;> rfl

/-- The bits of a number say which one it is. -/
theorem Normal.unpack_pack {u : UnpackedFloat} {s : Sign} {q : ℚ} (h : Normal u s q) :
    (Float.Model.pack u).unpack = u := by
  obtain ⟨m, e, hm, rfl, hlower, hupper, hlow, hhigh, -⟩ := h
  have hbiased : (e + Format.binary64.exponentBias +
      Format.binary64.mantissaBitsWithoutImplicit).toNat = (e + 1075).toNat := by
    simp only [Format.exponentBias]
    omega
  have hexponent : (BitVec.ofNat 11 (e + 1075).toNat).toNat = (e + 1075).toNat :=
    Nat.mod_eq_of_lt (by omega)
  have hlast : BitVec.ofNat 11 (e + 1075).toNat ≠ -1#11 := by
    intro heq
    have := congrArg BitVec.toNat heq
    rw [hexponent] at this
    change _ = 2047 at this
    omega
  have hfirst : BitVec.ofNat 11 (e + 1075).toNat ≠ 0#11 := by
    intro heq
    have := congrArg BitVec.toNat heq
    rw [hexponent] at this
    change _ = 0 at this
    omega
  have hmantissa : (1#1 ++ BitVec.ofNat 52 m).toNat = m := by
    have hrest : m % 2 ^ 52 < 2 ^ 52 := Nat.mod_lt _ (Nat.two_pow_pos 52)
    rw [BitVec.toNat_append]
    change 1 <<< 52 ||| m % 2 ^ 52 = m
    rw [← Nat.shiftLeft_add_eq_or_of_lt hrest]
    omega
  have hpack : pack .binary64 (.finite s m e hm) =
      packComponents .binary64 s (BitVec.ofNat 11 (e + 1075).toNat) (BitVec.ofNat 52 m) := by
    have hfinite : ¬2 ^ Format.binary64.exponentBits ≤ (e + 1075).toNat + 1 := by
      change ¬2 ^ 11 ≤ _
      omega
    rw [pack, hbiased, log2_eq_of_normal hlower hupper, if_neg hfinite]
    exact if_pos rfl
  change unpack .binary64 (pack .binary64 (.finite s m e hm)) = _
  rw [hpack]
  simp only [unpack, unpackMantissa_packComponents, unpackExponent_packComponents,
    unpackSign_packComponents, ofBitVec_toBitVec, hlast, hfirst, if_false, hexponent, hmantissa]
  simp only [Format.exponentBias]
  congr 1
  omega

/-! ## Natural numbers -/

/-- A number with few digits gets its missing digits as zeros. -/
theorem normal_ofNat {n : ℕ} (hpos : n ≠ 0) (hn : n < 2 ^ 53) :
    Normal (ofNat .binary64 n) .positive n := by
  have hlog : n.log2 < 53 := (Nat.log2_lt hpos).mpr hn
  have hshift : (-Format.binary64.targetExponent (totalExponent n 0)).toNat = 52 - n.log2 := by
    simp only [Format.targetExponent, totalExponent, Format.mantissaBits, Format.minExponent]
    omega
  have hround : ofNat .binary64 n =
      roundWithAccuracy .binary64 .positive (n * 2 ^ (52 - n.log2)) (-(52 - n.log2 : ℕ))
        .exact := by
    have hcompare : compare (n : ℤ) 0 = .gt := by
      rw [compare_gt_iff_gt]
      omega
    rw [ofNat, ofInt, UnpackedFloat.normalize, hcompare]
    simp only [UnpackedFloat.round, decreaseExponent, Int.toNat_natCast, hshift, Nat.shiftLeft_eq,
      zero_sub]
  have hlog' : (n * 2 ^ (52 - n.log2)).log2 = 52 := by
    rw [log2_mul_two_pow hpos]
    omega
  have hexcess : excess (n * 2 ^ (52 - n.log2)) = 0 := by
    rw [excess, hlog']
  have hnormal := normal_roundWithAccuracy .positive (e := -(52 - n.log2 : ℕ)) hlog'.ge
    (by rw [hexcess]; omega) (by rw [hexcess]; omega)
  rw [hround]
  convert hnormal using 1
  rw [hexcess]
  simp

/-- One is a factor that changes nothing. -/
theorem Normal.mul_one {u : UnpackedFloat} {q : ℚ} (h : Normal u .positive q) (hq : q < 2 ^ 64) :
    Normal (mul .binary64 u (Float.ofBits 0x3FF0000000000000).toModel.unpack) .positive q := by
  obtain ⟨m, e, hm, rfl, hlower, hupper, hlow, -, rfl⟩ := h
  have hhigh : e < 12 := by
    by_contra hlarge
    have hpow : (2 : ℚ) ^ (12 : ℤ) ≤ 2 ^ e := zpow_le_zpow_right₀ one_le_two (by omega)
    have hm52 : (2 ^ 52 : ℚ) ≤ m := by exact_mod_cast hlower
    have := mul_le_mul hm52 hpow (by positivity) (by positivity)
    norm_num at this hq
    linarith
  have hexcess : excess (m * 2 ^ 52) = 52 := by
    rw [excess, log2_mul_two_pow (by omega), log2_eq_of_normal hlower hupper]
  have hnormal := normal_roundWithAccuracy .positive (n := m * 2 ^ 52) (e := e + -52)
    (by rw [log2_mul_two_pow (by omega)]; omega) (by rw [hexcess]; omega) (by rw [hexcess]; omega)
  rw [hexcess, halfEven_mul_self, show e + -52 + (52 : ℕ) = e by omega] at hnormal
  exact hnormal

/-- A number that fits into a mantissa is converted exactly, and multiplied with one. -/
theorem normal_unpack_ofNat_small {n : ℕ} (hpos : n ≠ 0) (hn : n < 2 ^ 53) :
    Normal (Float.ofNat n).toModel.unpack .positive n := by
  have hnormal := normal_ofNat hpos hn
  have hlarge : n < 2 ^ 64 := hn.trans (by decide)
  have hone := hnormal.mul_one (by exact_mod_cast hlarge)
  have hofNat : Float.ofNat n = n.toUInt64.toFloat * Float.ofBits 0x3FF0000000000000 := by
    change Float.ofScientific n false 0 = _
    rw [Float.ofScientific, dif_pos ⟨hn, by decide⟩]
    rfl
  have hword : n.toUInt64.toNat = n := Nat.mod_eq_of_lt hlarge
  have hunpack : (Float.ofNat n).toModel.unpack =
      (Float.Model.pack (mul .binary64 (Float.Model.pack (ofNat .binary64 n)).unpack
        (Float.ofBits 0x3FF0000000000000).toModel.unpack)).unpack := by
    rw [hofNat]
    change (Float.Model.pack (mul .binary64 (Float.Model.pack (ofNat .binary64
      n.toUInt64.toNat)).unpack _)).unpack = _
    rw [hword]
  rw [hunpack, hnormal.unpack_pack, hone.unpack_pack]
  exact hone

/-- A number that does not fit is rounded, with digits to spare at first. -/
theorem normal_unpack_ofNat_large {n : ℕ} (hlarge : 2 ^ 53 ≤ n) (hn : n < 2 ^ 64) :
    Normal (Float.ofNat n).toModel.unpack .positive (nearestNat n) := by
  have hpos : n ≠ 0 := by omega
  have hlog : 53 ≤ n.log2 := (Nat.le_log2 hpos).mpr hlarge
  have hlog' : n.log2 < 64 := (Nat.log2_lt hpos).mpr hn
  have hexcess : excess (n * 2 ^ 53) = excess n + 53 := by
    rw [excess, log2_mul_two_pow hpos, excess]
    omega
  have hnormal := normal_roundWithAccuracy .positive (n := n * 2 ^ 53) (e := -53)
    (by rw [log2_mul_two_pow hpos]; omega) (by rw [hexcess]; omega)
    (by rw [hexcess, excess]; omega)
  rw [hexcess, halfEven_mul_two_pow] at hnormal
  have hunpack : (Float.ofNat n).toModel.unpack = (Float.Model.pack
      (roundWithAccuracy .binary64 .positive (n * 2 ^ 53) (-53) .exact)).unpack := by
    have hmantissa : n <<< Format.binary64.mantissaBits * 10 ^ (0 : ℤ).toNat = n * 2 ^ 53 := by
      rw [Nat.shiftLeft_eq]
      exact Nat.mul_one _
    change (Float.ofScientific n false 0).toModel.unpack = _
    rw [Float.ofScientific, dif_neg fun h => h.1.not_ge hlarge]
    change (Float.Model.pack (ofScientific .binary64 n 0)).unpack = _
    rw [ofScientific, dif_neg hpos, if_neg (by decide), if_neg (by simp), if_pos (by decide)]
    simp only [mul, hmantissa]
    rfl
  rw [hunpack, hnormal.unpack_pack]
  convert hnormal using 1
  rw [nearestNat, show (-53 : ℤ) + (excess n + 53 : ℕ) = excess n by omega]
  push_cast
  rw [zpow_natCast]

theorem normal_unpack_ofNat {n : ℕ} (hpos : n ≠ 0) (hn : n < 2 ^ 64) :
    Normal (Float.ofNat n).toModel.unpack .positive (nearestNat n) := by
  obtain hsmall | hlarge := Nat.lt_or_ge n (2 ^ 53)
  · rw [nearestNat_of_le hsmall.le]
    exact normal_unpack_ofNat_small hpos hsmall
  · exact normal_unpack_ofNat_large hlarge hn

/-! ## Signs -/

/-- A floating-point number that is an integer. -/
inductive Means : UnpackedFloat → ℤ → Prop where
  | zero (s : Sign) : Means (.zero s) 0
  | positive {u : UnpackedFloat} {n : ℕ} (h : Normal u .positive n) : Means u n
  | negative {u : UnpackedFloat} {n : ℕ} (h : Normal u .negative n) : Means u (-n)

theorem Normal.neg {u : UnpackedFloat} {q : ℚ} (h : Normal u .positive q) :
    Normal u.neg .negative q := by
  obtain ⟨m, e, hm, rfl, hrest⟩ := h
  exact ⟨m, e, hm, rfl, hrest⟩

/-- The floating-point number of an integer is the nearest one. -/
theorem means_unpack_ofInt {n : ℤ} (hn : n.natAbs < 2 ^ 64) :
    Means (Float.ofInt n).toModel.unpack (nearest n) := by
  cases n with
  | ofNat n =>
    obtain rfl | hpos := eq_or_ne n 0
    · exact Means.zero .positive
    · exact .positive (normal_unpack_ofNat hpos hn)
  | negSucc n =>
    have hneg := (normal_unpack_ofNat n.succ_ne_zero hn).neg
    change Means (Float.Model.pack (Float.ofNat (n + 1)).toModel.unpack.neg).unpack _
    rw [hneg.unpack_pack]
    exact .negative hneg

/-! ## Order -/

/-- With as many digits, the number with the greater exponent is greater. -/
theorem mul_two_zpow_lt {m n : ℕ} {d e : ℤ} (hm : m < 2 ^ 53) (hn : 2 ^ 52 ≤ n) (h : d < e) :
    (m : ℚ) * 2 ^ d < n * 2 ^ e := by
  have hm' : (m : ℚ) < 2 ^ 53 := by exact_mod_cast hm
  have hn' : (2 ^ 52 : ℚ) ≤ n := by exact_mod_cast hn
  have hpow : (2 : ℚ) ^ (d + 1) ≤ 2 ^ e := zpow_le_zpow_right₀ one_le_two (by omega)
  calc (m : ℚ) * 2 ^ d < 2 ^ 53 * 2 ^ d := mul_lt_mul_of_pos_right hm' (by positivity)
    _ = 2 ^ 52 * 2 ^ (d + 1) := by rw [zpow_add₀ two_ne_zero]; ring
    _ ≤ 2 ^ 52 * 2 ^ e := mul_le_mul_of_nonneg_left hpow (by positivity)
    _ ≤ n * 2 ^ e := mul_le_mul_of_nonneg_right hn' (by positivity)

/-- Comparing exponents first and then mantissas compares the numbers. -/
theorem compare_normal {s t : Sign} {m n : ℕ} {d e : ℤ} {hm : 0 < m} {hn : 0 < n} {p q : ℚ}
    (hp : Normal (.finite s m d hm) s p) (hq : Normal (.finite t n e hn) t q) :
    (compare d e).then (compare m n) = compare p q := by
  obtain ⟨_, _, _, ⟨⟩, hmlower, hmupper, -, -, rfl⟩ := hp
  obtain ⟨_, _, _, ⟨⟩, hnlower, hnupper, -, -, rfl⟩ := hq
  obtain hde | rfl | hed := lt_trichotomy d e
  · have hlt := mul_two_zpow_lt hmupper hnlower hde
    rw [compare_lt_iff_lt.mpr hde, compare_lt_iff_lt.mpr hlt]
    rfl
  · have hpos : (0 : ℚ) < 2 ^ d := by positivity
    rw [compare_eq_iff_eq.mpr rfl, Ordering.then]
    obtain hmn | rfl | hnm := lt_trichotomy m n
    · rw [compare_lt_iff_lt.mpr hmn, compare_lt_iff_lt.mpr]
      exact mul_lt_mul_of_pos_right (Nat.cast_lt.mpr hmn) hpos
    · rw [compare_eq_iff_eq.mpr rfl, compare_eq_iff_eq.mpr rfl]
    · rw [compare_gt_iff_gt.mpr hnm, compare_gt_iff_gt.mpr]
      exact mul_lt_mul_of_pos_right (Nat.cast_lt.mpr hnm) hpos
  · have hlt := mul_two_zpow_lt hnupper hmlower hed
    rw [compare_gt_iff_gt.mpr hed, compare_gt_iff_gt.mpr hlt]
    rfl

theorem Normal.pos {u : UnpackedFloat} {s : Sign} {q : ℚ} (h : Normal u s q) : 0 < q := by
  obtain ⟨m, e, hm, -, -, -, -, -, rfl⟩ := h
  have : (0 : ℚ) < m := Nat.cast_pos.mpr hm
  positivity

theorem compare_natCast (m n : ℕ) : compare (m : ℚ) n = compare (m : ℤ) n := by
  obtain h | rfl | h := lt_trichotomy m n
  · rw [compare_lt_iff_lt.mpr (Nat.cast_lt.mpr h), compare_lt_iff_lt.mpr (Nat.cast_lt.mpr h)]
  · rw [compare_eq_iff_eq.mpr rfl, compare_eq_iff_eq.mpr rfl]
  · rw [compare_gt_iff_gt.mpr (Nat.cast_lt.mpr h), compare_gt_iff_gt.mpr (Nat.cast_lt.mpr h)]

theorem swap_compare (m n : ℕ) : (compare (m : ℤ) n).swap = compare (-m : ℤ) (-n) := by
  obtain h | rfl | h := lt_trichotomy m n
  · rw [compare_lt_iff_lt.mpr (Nat.cast_lt.mpr h), compare_gt_iff_gt.mpr (by omega)]
    rfl
  · rw [compare_eq_iff_eq.mpr rfl, compare_eq_iff_eq.mpr rfl]
    rfl
  · rw [compare_gt_iff_gt.mpr (Nat.cast_lt.mpr h), compare_lt_iff_lt.mpr (by omega)]
    rfl

theorem Means.compare_eq {u v : UnpackedFloat} {k l : ℤ} (hu : Means u k) (hv : Means v l) :
    u.compare v = some (compare k l) := by
  cases hu with
  | zero s =>
    cases hv with
    | zero t => rfl
    | positive hv =>
      have hpos := Nat.cast_pos.mp hv.pos
      obtain ⟨_, _, _, rfl, -⟩ := hv
      exact congrArg some (compare_lt_iff_lt.mpr (by omega)).symm
    | negative hv =>
      have hpos := Nat.cast_pos.mp hv.pos
      obtain ⟨_, _, _, rfl, -⟩ := hv
      exact congrArg some (compare_gt_iff_gt.mpr (by omega)).symm
  | positive hu =>
    have hpos := Nat.cast_pos.mp hu.pos
    obtain ⟨_, _, _, rfl, -⟩ := id hu
    cases hv with
    | zero t => exact congrArg some (compare_gt_iff_gt.mpr (by omega)).symm
    | positive hv =>
      obtain ⟨_, _, _, rfl, -⟩ := id hv
      rw [UnpackedFloat.compare, compare_normal hu hv, compare_natCast]
    | negative hv =>
      obtain ⟨_, _, _, rfl, -⟩ := hv
      exact congrArg some (compare_gt_iff_gt.mpr (by omega)).symm
  | negative hu =>
    have hpos := Nat.cast_pos.mp hu.pos
    obtain ⟨_, _, _, rfl, -⟩ := id hu
    cases hv with
    | zero t => exact congrArg some (compare_lt_iff_lt.mpr (by omega)).symm
    | positive hv =>
      obtain ⟨_, _, _, rfl, -⟩ := hv
      exact congrArg some (compare_lt_iff_lt.mpr (by omega)).symm
    | negative hv =>
      obtain ⟨_, _, _, rfl, -⟩ := id hv
      rw [UnpackedFloat.compare, compare_normal hu hv, compare_natCast, swap_compare]

variable {a b : ℤ}

theorem ofInt_lt_iff (ha : a.natAbs < 2 ^ 64) (hb : b.natAbs < 2 ^ 64) :
    Float.ofInt a < Float.ofInt b ↔ nearest a < nearest b := by
  have hcompare := (means_unpack_ofInt ha).compare_eq (means_unpack_ofInt hb)
  rw [← compare_lt_iff_lt]
  change decide ((UnpackedFloat.compare _ _ == some Ordering.lt) = true) = true ↔ _
  rw [hcompare]
  simp

theorem ofInt_beq_iff (ha : a.natAbs < 2 ^ 64) (hb : b.natAbs < 2 ^ 64) :
    (Float.ofInt a == Float.ofInt b) = true ↔ nearest a = nearest b := by
  have hcompare := (means_unpack_ofInt ha).compare_eq (means_unpack_ofInt hb)
  rw [← compare_eq_iff_eq (b := nearest b)]
  change (UnpackedFloat.compare _ _ == some Ordering.eq) = true ↔ _
  rw [hcompare]
  simp

end NaturalTemplate.Decimal
