import Mathlib.Tactic
import NaturalTemplate.Source.Utf8

/-!
# What decoding reads

Decoding goes from character to character: a run of bytes begins with the bytes of a character, or
it is a part of one, or its first bytes belong to none. In the last two cases more bytes can come,
and only in the first of these do they matter. So a run that is decoded in parts, each with the
bytes left over from the part before it, gives what it gives when it is decoded at once.
-/
namespace NaturalTemplate.Source.Utf8

/-! ## Bytes by their ranges -/

section Ranges

variable {a b c low high : UInt8}

theorem shape?_eq_zero_iff :
    shape? a = some (low, high, 0) ↔
      (0xC2 ≤ a.toNat ∧ a.toNat ≤ 0xDF) ∧ low.toNat = 0x80 ∧ high.toNat = 0xBF := by
  simp only [shape?, UInt8.le_iff_toNat_le, beq_iff_eq, ← UInt8.toNat_inj, Bool.and_eq_true,
    decide_eq_true_eq, UInt8.reduceToNat]
  split_ifs <;> simp [← UInt8.toNat_inj] <;> omega

theorem shape?_eq_one_iff :
    shape? a = some (low, high, 1) ↔
      (0xE0 ≤ a.toNat ∧ a.toNat ≤ 0xEF) ∧
        (a.toNat = 0xE0 ∧ low.toNat = 0xA0 ∨ a.toNat ≠ 0xE0 ∧ low.toNat = 0x80) ∧
        (a.toNat = 0xED ∧ high.toNat = 0x9F ∨ a.toNat ≠ 0xED ∧ high.toNat = 0xBF) := by
  simp only [shape?, UInt8.le_iff_toNat_le, beq_iff_eq, ← UInt8.toNat_inj, Bool.and_eq_true,
    decide_eq_true_eq, UInt8.reduceToNat]
  split_ifs <;> simp [← UInt8.toNat_inj] <;> omega

theorem shape?_eq_two_iff {more : Nat} :
    shape? a = some (low, high, more + 2) ↔
      more = 0 ∧ (0xF0 ≤ a.toNat ∧ a.toNat ≤ 0xF4) ∧
        (a.toNat = 0xF0 ∧ low.toNat = 0x90 ∨ a.toNat ≠ 0xF0 ∧ low.toNat = 0x80) ∧
        (a.toNat = 0xF4 ∧ high.toNat = 0x8F ∨ a.toNat ≠ 0xF4 ∧ high.toNat = 0xBF) := by
  simp only [shape?, UInt8.le_iff_toNat_le, beq_iff_eq, ← UInt8.toNat_inj, Bool.and_eq_true,
    decide_eq_true_eq, UInt8.reduceToNat]
  split_ifs <;> simp [← UInt8.toNat_inj] <;> omega

theorem exists_shape?_one (ha : 0xE0 ≤ a.toNat ∧ a.toNat ≤ 0xEF) :
    ∃ low high, shape? a = some (low, high, 1) := by
  refine ⟨if a.toNat = 0xE0 then 0xA0 else 0x80, if a.toNat = 0xED then 0x9F else 0xBF,
    shape?_eq_one_iff.mpr ⟨ha, ?_, ?_⟩⟩ <;> split <;> simp_all

theorem exists_shape?_two (ha : 0xF0 ≤ a.toNat ∧ a.toNat ≤ 0xF4) :
    ∃ low high, shape? a = some (low, high, 2) := by
  refine ⟨if a.toNat = 0xF0 then 0x90 else 0x80, if a.toNat = 0xF4 then 0x8F else 0xBF,
    shape?_eq_two_iff.mpr ⟨rfl, ha, ?_, ?_⟩⟩ <;> split <;> simp_all

theorem not_inRange_iff :
    ¬ (b < low || high < b) = true ↔ low.toNat ≤ b.toNat ∧ b.toNat ≤ high.toNat := by
  simp [UInt8.lt_iff_toNat_lt]

theorem isContinuation_iff : isContinuation b = true ↔ 0x80 ≤ b.toNat ∧ b.toNat ≤ 0xBF := by
  simp [isContinuation, UInt8.le_iff_toNat_le]

theorem toNat_val_ofNat {n : Nat} (h : n.isValidChar) : (Char.ofNat n).val.toNat = n := by
  unfold Char.ofNat
  rw [dif_pos h]
  rfl

theorem toNat_ofNat_of_lt {n : Nat} (h : n < 256) : (UInt8.ofNat n).toNat = n := by
  rw [UInt8.toNat_ofNat', Nat.mod_eq_of_lt h]

end Ranges

/-! ## The bytes of one character -/

/-- The bytes of a character: one below the leading bytes, or a leading byte, a second byte in the
range that it calls for, and as many continuation bytes as it calls for. -/
inductive Spelling : List UInt8 → Char → Prop where
  | one {a : UInt8} (ha : a < 0x80) : Spelling [a] (Char.ofNat a.toNat)
  | two {a b low high : UInt8} (ha : ¬ a < 0x80) (hshape : shape? a = some (low, high, 0))
      (hb : ¬ (b < low || high < b) = true) : Spelling [a, b] (char2 a b)
  | three {a b c low high : UInt8} (ha : ¬ a < 0x80) (hshape : shape? a = some (low, high, 1))
      (hb : ¬ (b < low || high < b) = true) (hc : isContinuation c = true) :
      Spelling [a, b, c] (char3 a b c)
  | four {a b c d low high : UInt8} {more : Nat} (ha : ¬ a < 0x80)
      (hshape : shape? a = some (low, high, more + 2)) (hb : ¬ (b < low || high < b) = true)
      (hc : isContinuation c = true) (hd : isContinuation d = true) :
      Spelling [a, b, c, d] (char4 a b c d)

namespace Spelling

variable {bytes : List UInt8} {c : Char}

theorem ne_nil (h : Spelling bytes c) : bytes ≠ [] := by
  cases h <;> exact List.cons_ne_nil _ _

theorem eq_utf8EncodeChar (h : Spelling bytes c) : bytes = String.utf8EncodeChar c := by
  cases h with
  | @one a ha =>
    have hlt : a.toNat < 128 := ha
    have hval := toNat_val_ofNat (n := a.toNat) (by unfold Nat.isValidChar; omega)
    simp only [String.utf8EncodeChar, hval, if_pos (show a.toNat ≤ 127 by omega),
      UInt8.ofNat_toNat]
  | @two a b low high ha hshape hb =>
    rw [shape?_eq_zero_iff] at hshape
    rw [not_inRange_iff] at hb
    have hval := toNat_val_ofNat (n := a.toNat % 32 * 64 + b.toNat % 64)
      (by unfold Nat.isValidChar; omega)
    simp only [String.utf8EncodeChar, char2, payload, hval]
    rw [if_neg (by omega), if_pos (by omega)]
    simp only [List.cons.injEq, ← UInt8.toNat_inj, UInt8.toNat_ofNat', and_true]
    omega
  | @three a b c low high ha hshape hb hc =>
    rw [shape?_eq_one_iff] at hshape
    rw [not_inRange_iff] at hb
    rw [isContinuation_iff] at hc
    have hval := toNat_val_ofNat
      (n := (a.toNat % 16 * 64 + b.toNat % 64) * 64 + c.toNat % 64)
      (by unfold Nat.isValidChar; omega)
    simp only [String.utf8EncodeChar, char3, payload, hval]
    rw [if_neg (by omega), if_neg (by omega), if_pos (by omega)]
    simp only [List.cons.injEq, ← UInt8.toNat_inj, UInt8.toNat_ofNat', and_true]
    omega
  | @four a b c d low high more ha hshape hb hc hd =>
    rw [shape?_eq_two_iff] at hshape
    rw [not_inRange_iff] at hb
    rw [isContinuation_iff] at hc hd
    have hval := toNat_val_ofNat
      (n := ((a.toNat % 8 * 64 + b.toNat % 64) * 64 + c.toNat % 64) * 64 + d.toNat % 64)
      (by unfold Nat.isValidChar; omega)
    simp only [String.utf8EncodeChar, char4, payload, hval]
    rw [if_neg (by omega), if_neg (by omega), if_neg (by omega)]
    simp only [List.cons.injEq, ← UInt8.toNat_inj, UInt8.toNat_ofNat', and_true]
    omega

theorem of_utf8EncodeChar (c : Char) : Spelling (String.utf8EncodeChar c) c := by
  have hvalid : c.toNat < 55296 ∨ 57343 < c.toNat ∧ c.toNat < 1114112 := c.valid
  have hchar : Char.ofNat c.toNat = c := Char.ofNat_toNat c
  -- The last byte is the same in all but the shortest form, the ones before it as it gets longer.
  have hlast := toNat_ofNat_of_lt (n := c.toNat % 64 + 128) (by omega)
  have hthird := toNat_ofNat_of_lt (n := c.toNat / 64 % 64 + 128) (by omega)
  have hsecond := toNat_ofNat_of_lt (n := c.toNat / 4096 % 64 + 128) (by omega)
  simp only [String.utf8EncodeChar, Char.toNat_val]
  split_ifs with hone htwo hthree
  · have ha := toNat_ofNat_of_lt (n := c.toNat) (by omega)
    have hspelling := one (a := UInt8.ofNat c.toNat) (by
      rw [UInt8.lt_iff_toNat_lt, ha]
      simpa using Nat.lt_succ_of_le hone)
    rwa [ha, hchar] at hspelling
  · have ha := toNat_ofNat_of_lt (n := c.toNat / 64 % 32 + 192) (by omega)
    have hshape : shape? (UInt8.ofNat (c.toNat / 64 % 32 + 192)) = some (0x80, 0xBF, 0) :=
      shape?_eq_zero_iff.mpr ⟨by omega, rfl, rfl⟩
    have hspelling := two (by rw [UInt8.lt_iff_toNat_lt, ha]; simp) hshape
      (not_inRange_iff (b := UInt8.ofNat (c.toNat % 64 + 128)).mpr (by simp; omega))
    rwa [char2, payload, ha, hlast, show (c.toNat / 64 % 32 + 192) % 32 * 64 +
      (c.toNat % 64 + 128) % 64 = c.toNat by omega, hchar] at hspelling
  · have ha := toNat_ofNat_of_lt (n := c.toNat / 4096 % 16 + 224) (by omega)
    obtain ⟨low, high, hshape⟩ :=
      exists_shape?_one (a := UInt8.ofNat (c.toNat / 4096 % 16 + 224)) (by omega)
    have hrange := shape?_eq_one_iff.mp hshape
    have hspelling := three (by rw [UInt8.lt_iff_toNat_lt, ha]; simp) hshape
      (not_inRange_iff (b := UInt8.ofNat (c.toNat / 64 % 64 + 128)).mpr (by omega))
      (isContinuation_iff (b := UInt8.ofNat (c.toNat % 64 + 128)).mpr (by omega))
    rwa [char3, payload, payload, ha, hthird, hlast, show ((c.toNat / 4096 % 16 + 224) % 16 * 64 +
      (c.toNat / 64 % 64 + 128) % 64) * 64 + (c.toNat % 64 + 128) % 64 = c.toNat by omega,
      hchar] at hspelling
  · have ha := toNat_ofNat_of_lt (n := c.toNat / 262144 % 8 + 240) (by omega)
    obtain ⟨low, high, hshape⟩ :=
      exists_shape?_two (a := UInt8.ofNat (c.toNat / 262144 % 8 + 240)) (by omega)
    have hrange := (@shape?_eq_two_iff _ low high 0).mp hshape
    have hspelling := four (by rw [UInt8.lt_iff_toNat_lt, ha]; simp) hshape
      (not_inRange_iff (b := UInt8.ofNat (c.toNat / 4096 % 64 + 128)).mpr (by omega))
      (isContinuation_iff (b := UInt8.ofNat (c.toNat / 64 % 64 + 128)).mpr (by omega))
      (isContinuation_iff (b := UInt8.ofNat (c.toNat % 64 + 128)).mpr (by omega))
    rwa [char4, payload, payload, payload, ha, hsecond, hthird, hlast,
      show (((c.toNat / 262144 % 8 + 240) % 8 * 64 + (c.toNat / 4096 % 64 + 128) % 64) * 64 +
        (c.toNat / 64 % 64 + 128) % 64) * 64 + (c.toNat % 64 + 128) % 64 = c.toNat by omega,
      hchar] at hspelling

theorem decode_append (h : Spelling bytes c) (rest : List UInt8) :
    decode (bytes ++ rest) = (c :: (decode rest).1, (decode rest).2) := by
  cases h with
  | one ha =>
    rw [List.singleton_append, decode.eq_def]
    simp only [if_pos ha]
  | two ha hshape hb =>
    rw [List.cons_append, decode.eq_def]
    simp only [List.cons_append, List.nil_append, if_neg ha, hshape, if_neg hb]
  | three ha hshape hb hc =>
    rw [List.cons_append, decode.eq_def]
    simp only [List.cons_append, List.nil_append, if_neg ha, hshape, if_neg hb, if_pos hc]
  | four ha hshape hb hc hd =>
    rw [List.cons_append, decode.eq_def]
    simp only [List.cons_append, List.nil_append, if_neg ha, hshape, if_neg hb, hc, hd]
    rfl

end Spelling

/-- A run of bytes is empty, or begins with a character, or is a part of one, or its first bytes
belong to no character, whatever comes after it. -/
theorem cases_of_decode (bytes : List UInt8) :
    bytes = [] ∨
      (∃ spelled c rest, Spelling spelled c ∧ bytes = spelled ++ rest) ∨
      (bytes ≠ [] ∧ decode bytes = ([], .incomplete bytes)) ∨
      ∃ length, ∀ more, decode (bytes ++ more) = ([], .invalid length) := by
  fun_cases decode bytes with
  | case1 => exact .inl rfl
  | case2 a rest ha => exact .inr (.inl ⟨[a], _, rest, .one ha, rfl⟩)
  | case3 a rest ha hshape =>
    refine .inr (.inr (.inr ⟨1, fun more => ?_⟩))
    rw [List.cons_append, decode.eq_def]
    simp only [if_neg ha, hshape]
  | case4 => exact .inr (.inr (.inl ⟨by simp, rfl⟩))
  | case5 a ha low high _ b rest hshape hb =>
    refine .inr (.inr (.inr ⟨1, fun more => ?_⟩))
    rw [List.cons_append, decode.eq_def]
    simp only [List.cons_append, if_neg ha, hshape, if_pos hb]
  | case6 a ha low high b hb rest _ _ _ hshape =>
    exact .inr (.inl ⟨[a, b], _, rest, .two ha hshape hb, rfl⟩)
  | case7 => exact .inr (.inr (.inl ⟨by simp, rfl⟩))
  | case8 a ha low high b hb c rest hc _ _ _ hshape =>
    exact .inr (.inl ⟨[a, b, c], _, rest, .three ha hshape hb hc, rfl⟩)
  | case9 a ha low high b hb c rest hc hshape =>
    refine .inr (.inr (.inr ⟨2, fun more => ?_⟩))
    rw [List.cons_append, decode.eq_def]
    simp only [List.cons_append, if_neg ha, hshape, if_neg hb, if_neg hc]
  | case10 => exact .inr (.inr (.inl ⟨by simp, rfl⟩))
  | case11 a ha low high b hb _ c hc hshape =>
    refine .inr (.inr (.inr ⟨2, fun more => ?_⟩))
    rw [List.cons_append, decode.eq_def]
    cases more with
    | nil =>
      simp only [List.cons_append, List.nil_append, if_neg ha, hshape, if_neg hb, if_neg hc]
    | cons =>
      have hstop : (!isContinuation c) = true := by simpa using hc
      simp only [List.cons_append, List.nil_append, if_neg ha, hshape, if_neg hb, if_pos hstop]
  | case12 a ha low high b hb _ c d rest hc hshape =>
    refine .inr (.inr (.inr ⟨2, fun more => ?_⟩))
    rw [List.cons_append, decode.eq_def]
    simp only [List.cons_append, if_neg ha, hshape, if_neg hb, if_pos hc]
  | case13 a ha low high b hb _ c d rest hc hd _ _ _ hshape =>
    exact .inr (.inl ⟨[a, b, c, d], _, rest, .four ha hshape hb (by simpa using hc) hd, rfl⟩)
  | case14 a ha low high b hb _ c d rest hc hd hshape =>
    refine .inr (.inr (.inr ⟨3, fun more => ?_⟩))
    rw [List.cons_append, decode.eq_def]
    simp only [List.cons_append, if_neg ha, hshape, if_neg hb, if_neg hc, if_neg hd]

/-! ## Runs of characters -/

/-- The bytes of a text. -/
def encode (cs : List Char) : List UInt8 := cs.flatMap String.utf8EncodeChar

@[simp]
theorem encode_nil : encode [] = [] := rfl

@[simp]
theorem encode_cons (c : Char) (cs : List Char) :
    encode (c :: cs) = String.utf8EncodeChar c ++ encode cs := List.flatMap_cons

theorem toList_data_toUTF8 (s : String) : s.toUTF8.data.toList = encode s.toList := by
  conv => lhs; rw [← String.ofList_toList (s := s)]
  rw [String.toUTF8_eq_toByteArray, String.toByteArray_ofList]
  simp [List.utf8Encode, encode]

theorem decode_encode_append (cs : List Char) (rest : List UInt8) :
    decode (encode cs ++ rest) = (cs ++ (decode rest).1, (decode rest).2) := by
  induction cs with
  | nil => rfl
  | cons c cs ih =>
    rw [encode_cons, List.append_assoc, (Spelling.of_utf8EncodeChar c).decode_append, ih]
    rfl

@[simp]
theorem decode_encode (cs : List Char) : decode (encode cs) = (cs, .none) := by
  have h := decode_encode_append cs []
  simpa [decode] using h

/-- That the bytes `rest` leave a remainder. -/
def Remainder.Leaves (r : Remainder) (rest : List UInt8) : Prop :=
  match r with
  | .none => rest = []
  | .incomplete bytes => rest = bytes ∧ bytes ≠ [] ∧ decode bytes = ([], .incomplete bytes)
  | .invalid length => ∀ more, decode (rest ++ more) = ([], .invalid length)

/-- Decoding takes the characters off a run of bytes and tells what the bytes after them leave. -/
theorem exists_of_decode (bytes : List UInt8) :
    ∃ rest, bytes = encode (decode bytes).1 ++ rest ∧ (decode bytes).2.Leaves rest := by
  induction hlength : bytes.length using Nat.strong_induction_on generalizing bytes with
  | _ n ih =>
    obtain rfl | ⟨spelled, c, tail, hspelled, rfl⟩ | ⟨hne, hdecode⟩ | ⟨length, hdecode⟩ :=
      cases_of_decode bytes
    · exact ⟨[], rfl, rfl⟩
    · have hpos := List.length_pos_iff.mpr hspelled.ne_nil
      rw [List.length_append] at hlength
      obtain ⟨rest, htail, hleaves⟩ := ih tail.length (by omega) tail rfl
      refine ⟨rest, ?_, ?_⟩
      · rw [hspelled.decode_append, encode_cons, List.append_assoc, ← htail,
          hspelled.eq_utf8EncodeChar]
      · rwa [hspelled.decode_append]
    · exact ⟨bytes, by simp [hdecode], by simp [hdecode, Remainder.Leaves, hne]⟩
    · have hbytes := hdecode []
      rw [List.append_nil] at hbytes
      exact ⟨bytes, by simp [hbytes], by simpa [hbytes, Remainder.Leaves] using hdecode⟩

variable {bytes waiting : List UInt8} {cs ds : List Char} {length : Nat}

theorem eq_encode_of_decode (h : decode bytes = (cs, .none)) : bytes = encode cs := by
  obtain ⟨rest, hbytes, hleaves⟩ := exists_of_decode bytes
  rw [h] at hbytes hleaves
  rw [hbytes, show rest = [] from hleaves, List.append_nil]

theorem eq_append_of_decode (h : decode bytes = (cs, .incomplete waiting)) :
    bytes = encode cs ++ waiting ∧ waiting ≠ [] ∧ decode waiting = ([], .incomplete waiting) := by
  obtain ⟨rest, hbytes, hleaves⟩ := exists_of_decode bytes
  rw [h] at hbytes hleaves
  obtain ⟨rfl, hne, hwaiting⟩ := hleaves
  exact ⟨hbytes, hne, hwaiting⟩

theorem decode_append_of_invalid (h : decode bytes = (cs, .invalid length)) (more : List UInt8) :
    decode (bytes ++ more) = (cs, .invalid length) := by
  obtain ⟨rest, hbytes, hleaves⟩ := exists_of_decode bytes
  rw [h] at hbytes hleaves
  rw [hbytes, List.append_assoc, decode_encode_append, hleaves more, List.append_nil]

/-- What stands after a part of a text's characters is the rest of the text. -/
theorem exists_of_encode_append (h : encode ds ++ bytes = encode cs) :
    ∃ rest, cs = ds ++ rest ∧ bytes = encode rest := by
  have hdecode := congrArg decode h
  rw [decode_encode_append, decode_encode, Prod.mk.injEq] at hdecode
  exact ⟨(decode bytes).1, hdecode.1.symm, eq_encode_of_decode (Prod.ext rfl hdecode.2)⟩

end NaturalTemplate.Source.Utf8
