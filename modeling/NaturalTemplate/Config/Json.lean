/-!
# JSON

Just enough of JSON for a configuration: a text is read by the grammar, but numbers are only skipped
and strings are kept as they are written. What a string stands for is worked out where it matters,
and only there a surrogate without its partner is an error.
-/
namespace NaturalTemplate.Config

inductive Json where
  | null
  | bool (b : Bool)
  | number
  /-- A string as it is written, without its quotes. -/
  | string (raw : List Char)
  | array (items : List Json)
  | object (members : List (List Char × Json))
deriving Inhabited

namespace Json

def isBlank (c : Char) : Bool :=
  c == ' ' || c == '\n' || c == '\t' || c == '\r'

def skipBlank (cs : List Char) : List Char := cs.dropWhile isBlank

/-! ## Strings -/

def hexValue? (c : Char) : Option Nat :=
  if c.isDigit then some (c.toNat - '0'.toNat)
  else if 'a' ≤ c ∧ c ≤ 'f' then some (c.toNat - 'a'.toNat + 10)
  else if 'A' ≤ c ∧ c ≤ 'F' then some (c.toNat - 'A'.toNat + 10)
  else none

/-- The value of four hexadecimal digits, and what follows them. -/
def hex4? : List Char → Option (Nat × List Char)
  | a :: b :: c :: d :: rest => do
    let a ← hexValue? a
    let b ← hexValue? b
    let c ← hexValue? c
    let d ← hexValue? d
    return (((a * 16 + b) * 16 + c) * 16 + d, rest)
  | _ => none

/-- The character that a letter after a backslash stands for. -/
def escape? : Char → Option Char
  | '"' => some '"'
  | '\\' => some '\\'
  | '/' => some '/'
  | 'b' => some '\x08'
  | 'f' => some '\x0c'
  | 'n' => some '\n'
  | 'r' => some '\r'
  | 't' => some '\t'
  | _ => none

/-- The rest of a string as it is written, and what follows its closing quote. Control characters
have to be escaped. -/
def rawString? : List Char → Option (List Char × List Char)
  | [] => none
  | '"' :: rest => some ([], rest)
  | '\\' :: 'u' :: rest =>
    match hex4? rest, rest with
    | some _, a :: b :: c :: d :: rest =>
      (rawString? rest).map fun (raw, after) => ('\\' :: 'u' :: a :: b :: c :: d :: raw, after)
    | _, _ => none
  | '\\' :: c :: rest =>
    if (escape? c).isSome then
      (rawString? rest).map fun (raw, after) => ('\\' :: c :: raw, after)
    else none
  | c :: rest =>
    if c.toNat < 0x20 then none
    else (rawString? rest).map fun (raw, after) => (c :: raw, after)

/-- The text that a string as it is written stands for. -/
def decode? : List Char → Option (List Char)
  | [] => some []
  | '\\' :: 'u' :: a :: b :: c :: d :: rest =>
    match hex4? [a, b, c, d] with
    | none => none
    | some (high, _) =>
      if high < 0xD800 ∨ 0xDFFF < high then (decode? rest).map (Char.ofNat high :: ·)
      else
        match rest with
        | '\\' :: 'u' :: a :: b :: c :: d :: rest =>
          match hex4? [a, b, c, d] with
          | none => none
          | some (low, _) =>
            if high < 0xDC00 ∧ 0xDC00 ≤ low ∧ low ≤ 0xDFFF then
              let code := 0x10000 + (high - 0xD800) * 0x400 + (low - 0xDC00)
              (decode? rest).map (Char.ofNat code :: ·)
            else none
        | _ => none
  | '\\' :: c :: rest =>
    match escape? c with
    | some c => (decode? rest).map (c :: ·)
    | none => none
  | c :: rest => (decode? rest).map (c :: ·)

/-! ## Numbers -/

/-- Skips digits, of which there has to be one. -/
def skipDigits? (cs : List Char) : Option (List Char) :=
  if (cs.head?.map Char.isDigit).getD false then some (cs.dropWhile Char.isDigit) else none

/-- Skips the whole part of a number, which has no needless zeros in front. -/
def skipWhole? : List Char → Option (List Char)
  | '0' :: rest => if (rest.head?.map Char.isDigit).getD false then none else some rest
  | cs => skipDigits? cs

def skipFraction? : List Char → Option (List Char)
  | '.' :: rest => skipDigits? rest
  | cs => some cs

def skipExponent? : List Char → Option (List Char)
  | c :: rest =>
    if c = 'e' ∨ c = 'E' then
      match rest with
      | '+' :: rest | '-' :: rest => skipDigits? rest
      | rest => skipDigits? rest
    else some (c :: rest)
  | [] => some []

def skipNumber? (cs : List Char) : Option (List Char) :=
  let unsigned :=
    match cs with
    | '-' :: rest => rest
    | cs => cs
  (skipWhole? unsigned).bind fun cs => (skipFraction? cs).bind skipExponent?

/-! ## Values -/

mutual

/-- Reads a value. Each level of it, and each item of an array or object, uses up some fuel. -/
def value? : Nat → List Char → Option (Json × List Char)
  | 0, _ => none
  | fuel + 1, cs =>
    match skipBlank cs with
    | 'n' :: 'u' :: 'l' :: 'l' :: rest => some (null, rest)
    | 't' :: 'r' :: 'u' :: 'e' :: rest => some (bool true, rest)
    | 'f' :: 'a' :: 'l' :: 's' :: 'e' :: rest => some (bool false, rest)
    | '"' :: rest => (rawString? rest).map fun (raw, rest) => (string raw, rest)
    | '[' :: rest =>
      match skipBlank rest with
      | ']' :: rest => some (array [], rest)
      | rest => (items? fuel rest).map fun (items, rest) => (array items, rest)
    | '\x7b' :: rest =>
      match skipBlank rest with
      | '\x7d' :: rest => some (object [], rest)
      | rest => (members? fuel rest).map fun (members, rest) => (object members, rest)
    | cs => (skipNumber? cs).map fun rest => (number, rest)

/-- Reads the items of an array, of which there is at least one, and the closing bracket. -/
def items? : Nat → List Char → Option (List Json × List Char)
  | 0, _ => none
  | fuel + 1, cs => do
    let (item, rest) ← value? fuel cs
    match skipBlank rest with
    | ']' :: rest => return ([item], rest)
    | ',' :: rest =>
      let (items, rest) ← items? fuel rest
      return (item :: items, rest)
    | _ => none

/-- Reads the members of an object, of which there is at least one, and the closing brace. -/
def members? : Nat → List Char → Option (List (List Char × Json) × List Char)
  | 0, _ => none
  | fuel + 1, cs =>
    match skipBlank cs with
    | '"' :: rest => do
      let (key, rest) ← rawString? rest
      match skipBlank rest with
      | ':' :: rest =>
        let (v, rest) ← value? fuel rest
        match skipBlank rest with
        | '\x7d' :: rest => return ([(key, v)], rest)
        | ',' :: rest =>
          let (members, rest) ← members? fuel rest
          return ((key, v) :: members, rest)
        | _ => none
      | _ => none
    | _ => none

end

/-- Reads a text that is one value and nothing else. -/
def parse? (text : List Char) : Option Json :=
  match value? (2 * text.length + 2) text with
  | some (v, rest) => if (skipBlank rest).isEmpty then some v else none
  | none => none

end Json
end NaturalTemplate.Config
