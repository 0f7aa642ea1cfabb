import NaturalTemplate.Source.Utf8

/-!
# Sinks

A place that takes bytes in pieces: no more than so many at once, and perhaps no more than so many
in all. To write to it is to offer what is left until everything is taken.
-/
namespace NaturalTemplate

structure Sink where
  /-- The greatest number of bytes that are taken at once. -/
  step : Option Nat := none
  /-- The number of bytes after which the sink is closed. -/
  limit : Option Nat := none
  taken : Array UInt8 := #[]
deriving DecidableEq, Inhabited

inductive SinkFailure where
  | closed
  /-- The sink is open but takes nothing. -/
  | stalled
deriving DecidableEq, Inhabited

def SinkFailure.message : SinkFailure → String
  | closed => "sink closed"
  | stalled => "failed to write whole buffer"

namespace Sink

/-- Whether nothing more is taken. -/
def isClosed (s : Sink) : Bool :=
  match s.limit with
  | some limit => limit ≤ s.taken.size
  | none => false

/-- How many of some bytes are taken at once. -/
def portion (s : Sink) (count : Nat) : Nat :=
  let room :=
    match s.limit with
    | some limit => limit - s.taken.size
    | none => count
  min (min (s.step.getD count) room) count

/-- Writes bytes until all are taken. The result says what prevented that, if anything. -/
def writeAll (s : Sink) (bytes : List UInt8) : Option SinkFailure × Sink :=
  if bytes.isEmpty then (none, s)
  else if s.isClosed then (some .closed, s)
  else
    let count := s.portion bytes.length
    if count = 0 then (some .stalled, s)
    else
      writeAll { s with taken := s.taken ++ (bytes.take count).toArray } (bytes.drop count)
termination_by bytes.length
decreasing_by
  rename_i hne _ hcount
  have hpos : bytes ≠ [] := by simpa using hne
  have := List.length_pos_iff.mpr hpos
  simp only [List.length_drop]
  omega

/-- What was written, as text. -/
def text (s : Sink) : String := Source.Utf8.decodeLossy s.taken.toList

end Sink
end NaturalTemplate
