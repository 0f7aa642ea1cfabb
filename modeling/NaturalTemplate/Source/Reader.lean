import NaturalTemplate.Location
import NaturalTemplate.Source.Lookahead

/-!
# Reading character by character

A reader stands at a place in a source. It remembers where the last characters that it took began,
so that text which is pushed back restores the place, for as many characters as it remembers.
-/
namespace NaturalTemplate

structure Reader where
  rest : List Char
  failure : Option ReadFailure
  position : Position
  /-- The positions of the characters taken last, the latest first. -/
  trail : List Position
deriving DecidableEq, Inhabited

namespace Reader

/-- The number of characters that can be pushed back with their places. -/
def memory : Nat := 256

def ofSource (s : Source) : Reader := ⟨s.chars, s.failure, .start, []⟩

def location (r : Reader) : Location := r.position.location

/-- Takes characters that were seen to come next. -/
def take (r : Reader) : (n : Nat) → Reader
  | 0 => r
  | n + 1 =>
    match r.rest with
    | [] => r
    | c :: rest => ({ r with
        rest
        position := r.position.advance c
        trail := (r.position :: r.trail).take memory } : Reader).take n

def peek (r : Reader) (n : Nat) : Except ReadFailure (Option Char) :=
  Source.peek r.failure n r.rest

/-- The next character, or nothing at the end of input. -/
def read (r : Reader) : Except ReadFailure (Option Char × Reader) := do
  let c ← r.peek 0
  return (c, r.take 1)

/-- Takes `n` characters, or as many as there are. -/
def skip (r : Reader) (n : Nat) : Except ReadFailure Reader := do
  let _ ← Source.has r.failure n r.rest
  return r.take n

/-- Puts text in front of what comes next; the place moves back by one remembered character for each
of its characters. -/
def pushback (r : Reader) (text : List Char) : Reader :=
  let gone := r.trail.take text.length
  { r with
    rest := text ++ r.rest
    position := gone.getLast?.getD r.position
    trail := r.trail.drop text.length }

def lookingAt (r : Reader) (pattern : List Char) : Except ReadFailure Bool :=
  Source.lookingAt r.failure pattern r.rest

def lookingAtIgnoringCase (r : Reader) (pattern : List Char) : Except ReadFailure Bool :=
  Source.lookingAtIgnoringCase r.failure pattern r.rest

/-- The text before the next `marker`, which is taken too; nothing, at the end of input, if it does
not come. -/
def readUntil (r : Reader) (marker : List Char) :
    Except ReadFailure (Option (List Char) × Reader) := do
  match ← Source.readUntil r.failure marker r.rest with
  | some (before, _) => return (some before, r.take (before.length + marker.length))
  | none => return (none, r.take r.rest.length)

/-- The longest run of characters with a property. -/
def readWhile (r : Reader) (p : Char → Bool) : Except ReadFailure (List Char × Reader) := do
  let (run, _) ← Source.readWhile r.failure p r.rest
  return (run, r.take run.length)

end Reader
end NaturalTemplate
