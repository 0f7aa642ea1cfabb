/-!
# Reading decimal numbers

A number is digits with an optional point and an optional exponent, or one of the words for infinity
and for no number. Whole numbers are read apart, as they are exact.
-/
namespace NaturalTemplate.Decimal

/-- The value of decimal digits, after those that came before. -/
def digitsValue (before : Nat) (digits : List Char) : Nat :=
  digits.foldl (fun n c => n * 10 + (c.toNat - '0'.toNat)) before

/-- A sign, and what follows it. -/
def takeSign : List Char → Bool × List Char
  | '-' :: rest => (true, rest)
  | '+' :: rest => (false, rest)
  | rest => (false, rest)

def whole? (text : List Char) : Option Int :=
  match takeSign text with
  | (_, []) => none
  | (negative, digits) =>
    if digits.all Char.isDigit then
      let n : Int := digitsValue 0 digits
      some (if negative then -n else n)
    else none

/-- The integer of 64 bits that a number is, if it is one. -/
def toInt64? (n : Int) : Option Int64 :=
  if Int64.minValue.toInt ≤ n ∧ n ≤ Int64.maxValue.toInt then some (Int64.ofInt n) else none

/-- A whole number of 64 bits. -/
def int64? (text : List Char) : Option Int64 :=
  (whole? text).bind toInt64?

/-- The number nearest to `digits` times ten to the power `exponent`. Powers beyond every number are
cut short. -/
def scale (digits : Nat) (exponent : Int) : Float :=
  let length : Int := (Nat.toDigits 10 digits).length
  if digits = 0 ∨ length + exponent < -400 then 0.0
  else if 400 < length + exponent then 1.0 / 0.0
  else if 0 ≤ exponent then Float.ofScientific digits false exponent.toNat
  else Float.ofScientific digits true (-exponent).toNat

/-- The exponent after the mark that opens it; none is zero. -/
def exponent? : List Char → Option Int
  | [] => some 0
  | c :: rest => if c = 'e' ∨ c = 'E' then whole? rest else none

/-- A number without its sign. -/
def unsigned? (text : List Char) : Option Float :=
  let word := text.map Char.toLower
  if word = ['i', 'n', 'f'] ∨ word = ['i', 'n', 'f', 'i', 'n', 'i', 't', 'y'] then
    some (1.0 / 0.0)
  else if word = ['n', 'a', 'n'] then some (0.0 / 0.0)
  else
    let front := text.takeWhile Char.isDigit
    let afterFront := text.dropWhile Char.isDigit
    let (back, rest) :=
      match afterFront with
      | '.' :: after => (after.takeWhile Char.isDigit, after.dropWhile Char.isDigit)
      | _ => ([], afterFront)
    if front = [] ∧ back = [] then none
    else
      (exponent? rest).map fun exponent =>
        scale (digitsValue 0 (front ++ back)) (exponent - back.length)

def float? (text : List Char) : Option Float :=
  let (negative, rest) := takeSign text
  (unsigned? rest).map fun x => if negative then -x else x

end NaturalTemplate.Decimal
