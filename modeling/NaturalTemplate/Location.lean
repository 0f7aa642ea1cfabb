/-!
# Places in a source text

A location is what users see: a line, a column and a byte offset. Reading carries one more bit,
because a line feed directly after a carriage return ends no further line.
-/
namespace NaturalTemplate

/-- A place in a source text. Lines and columns count from 1, columns in characters; the offset
counts the UTF-8 bytes before the place. What was not read from a source has no place and stands at
zero. -/
structure Location where
  line : Nat := 0
  column : Nat := 0
  offset : Nat := 0
deriving DecidableEq, Inhabited

def Location.start : Location := ⟨1, 1, 0⟩

def Location.toText (l : Location) : String :=
  s!"line {l.line}, column {l.column}"

/-- Where reading stands: the location of the next character, and whether the one before it was a
carriage return. -/
structure Position where
  location : Location
  afterReturn : Bool
deriving DecidableEq, Inhabited

namespace Position

def start : Position := ⟨.start, false⟩

/-- The position after one more character. Each of CR, LF and CR LF ends one line. -/
def advance (p : Position) (c : Char) : Position :=
  let l := p.location
  let offset := l.offset + c.utf8Size
  if c = '\r' then ⟨⟨l.line + 1, 1, offset⟩, true⟩
  else if c = '\n' then ⟨⟨if p.afterReturn then l.line else l.line + 1, 1, offset⟩, false⟩
  else ⟨⟨l.line, l.column + 1, offset⟩, false⟩

def advanceBy (p : Position) (cs : List Char) : Position :=
  cs.foldl advance p

@[simp]
theorem advanceBy_nil (p : Position) : p.advanceBy [] = p := rfl

@[simp]
theorem advanceBy_cons (p : Position) (c : Char) (cs : List Char) :
    p.advanceBy (c :: cs) = (p.advance c).advanceBy cs := rfl

theorem advanceBy_append (p : Position) (cs ds : List Char) :
    p.advanceBy (cs ++ ds) = (p.advanceBy cs).advanceBy ds := by
  simp [advanceBy]

end Position
end NaturalTemplate
