/-!
# UTF-8

Decoding of a run of bytes that may end inside a character. Decoding stops at the first byte
sequence that no character has; its length is that of the longest part of it that some character
could begin with, and at least one byte.
-/
namespace NaturalTemplate.Source.Utf8

/-- What follows the last complete character of a run of bytes. -/
inductive Remainder where
  | none
  /-- The bytes at the end begin a character. -/
  | incomplete (bytes : List UInt8)
  /-- The next `length` bytes belong to no character. -/
  | invalid (length : Nat)
deriving DecidableEq, Inhabited

/-- The least and greatest second byte after a leading byte, and the number of bytes after that. -/
def shape? (lead : UInt8) : Option (UInt8 × UInt8 × Nat) :=
  if 0xC2 ≤ lead && lead ≤ 0xDF then some (0x80, 0xBF, 0)
  else if lead == 0xE0 then some (0xA0, 0xBF, 1)
  else if lead == 0xED then some (0x80, 0x9F, 1)
  else if 0xE1 ≤ lead && lead ≤ 0xEF then some (0x80, 0xBF, 1)
  else if lead == 0xF0 then some (0x90, 0xBF, 2)
  else if 0xF1 ≤ lead && lead ≤ 0xF3 then some (0x80, 0xBF, 2)
  else if lead == 0xF4 then some (0x80, 0x8F, 2)
  else none

def isContinuation (b : UInt8) : Bool := 0x80 ≤ b && b ≤ 0xBF

/-- The low six bits of a continuation byte. -/
def payload (b : UInt8) : Nat := b.toNat % 64

def char2 (a b : UInt8) : Char :=
  Char.ofNat (a.toNat % 32 * 64 + payload b)

def char3 (a b c : UInt8) : Char :=
  Char.ofNat ((a.toNat % 16 * 64 + payload b) * 64 + payload c)

def char4 (a b c d : UInt8) : Char :=
  Char.ofNat (((a.toNat % 8 * 64 + payload b) * 64 + payload c) * 64 + payload d)

/-- The complete characters at the start of a run of bytes, and what follows them. -/
def decode : List UInt8 → List Char × Remainder
  | [] => ([], .none)
  | a :: rest =>
    if a < 0x80 then
      let (cs, r) := decode rest
      (Char.ofNat a.toNat :: cs, r)
    else
      match shape? a, rest with
      | none, _ => ([], .invalid 1)
      | some _, [] => ([], .incomplete [a])
      | some (low, high, more), b :: rest =>
        if b < low || high < b then ([], .invalid 1)
        else
          match more, rest with
          | 0, rest =>
            let (cs, r) := decode rest
            (char2 a b :: cs, r)
          | _ + 1, [] => ([], .incomplete [a, b])
          | 1, c :: rest =>
            if isContinuation c then
              let (cs, r) := decode rest
              (char3 a b c :: cs, r)
            else ([], .invalid 2)
          | _ + 2, [c] => if isContinuation c then ([], .incomplete [a, b, c]) else ([], .invalid 2)
          | _ + 2, c :: d :: rest =>
            if !isContinuation c then ([], .invalid 2)
            else if isContinuation d then
              let (cs, r) := decode rest
              (char4 a b c d :: cs, r)
            else ([], .invalid 3)

/-- The number of bytes that a text takes. -/
def size (cs : List Char) : Nat :=
  cs.foldr (fun c bytes => c.utf8Size + bytes) 0

/-- A run of bytes as text, in which each stray or unfinished sequence shows as U+FFFD. -/
def decodeLossy (bytes : List UInt8) : String :=
  match decode bytes with
  | (cs, .none) => String.ofList cs
  | (cs, .incomplete _) => String.ofList cs ++ "\uFFFD"
  | (cs, .invalid length) =>
    if length = 0 ∨ bytes.length < size cs + length then String.ofList cs
    else String.ofList cs ++ "\uFFFD" ++ decodeLossy (bytes.drop (size cs + length))
termination_by bytes.length
decreasing_by simp only [List.length_drop]; omega

end NaturalTemplate.Source.Utf8
