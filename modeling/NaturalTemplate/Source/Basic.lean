import NaturalTemplate.Source.Utf8

/-!
# Sources

Markup is read from a device in blocks of bytes, and decoded as it comes. What matters of this to a
reader is a `Source`: the characters that can be had, and what a question past the last of them
meets. A source made from a text has all its characters and then ends.

Where the device cuts its blocks shows in one place only: a byte sequence that belongs to no
character costs the whole block in which it shows up, and its index counts from the first byte that
was not decoded before that block.
-/
namespace NaturalTemplate

/-- Why a source could not be read to its end. -/
inductive ReadFailure where
  /-- A byte sequence of this length, after this many good bytes, belongs to no character. -/
  | invalidSequence (length index : Nat)
  | endsInsideSequence
  /-- The device failed; its own name for the kind of failure and its message. -/
  | device (kind message : String)
deriving DecidableEq, Inhabited

namespace ReadFailure

def kind : ReadFailure → String
  | invalidSequence .. | endsInsideSequence => "InvalidData"
  | device kind _ => kind

def message : ReadFailure → String
  | invalidSequence length index => s!"invalid utf-8 sequence of {length} bytes from index {index}"
  | endsInsideSequence => "input ends inside a UTF-8 sequence"
  | device _ message => message

end ReadFailure

/-- The characters of a source, and the failure that a question past them meets, if any. -/
structure Source where
  chars : List Char
  failure : Option ReadFailure := none
deriving DecidableEq, Inhabited

/-- The result of one read from a device. No bytes means that the input has ended. -/
inductive Read where
  | bytes (block : List UInt8)
  /-- The read was interrupted and is made again. -/
  | interrupted
  | failed (kind message : String)
deriving DecidableEq, Inhabited

namespace Source

def ofString (s : String) : Source := ⟨s.toList, none⟩

/-- Puts characters before those of a source. -/
def prepend (cs : List Char) (s : Source) : Source := ⟨cs ++ s.chars, s.failure⟩

/-- The end of input, with the bytes that still wait for the rest of their character. -/
def ended : List UInt8 → Source
  | [] => ⟨[], none⟩
  | _ :: _ => ⟨[], some .endsInsideSequence⟩

/-- The source that a sequence of reads gives, after bytes that begin a character. Reading stops at
the first read that brings no bytes. -/
def receive (waiting : List UInt8) : List Read → Source
  | [] => ended waiting
  | .interrupted :: reads => receive waiting reads
  | .failed kind message :: _ => ⟨[], some (.device kind message)⟩
  | .bytes [] :: _ => ended waiting
  | .bytes (b :: block) :: reads =>
    match Utf8.decode (waiting ++ b :: block) with
    | (cs, .none) => prepend cs (receive [] reads)
    | (cs, .incomplete bytes) => prepend cs (receive bytes reads)
    | (cs, .invalid length) => ⟨[], some (.invalidSequence length (Utf8.size cs))⟩

/-- A read takes at most this many bytes. -/
def blockSize : Nat := 8192

/-- Cuts a run of bytes into the blocks in which it is read. -/
def blocks (bytes : List UInt8) : List (List UInt8) :=
  if bytes.length ≤ blockSize then [bytes]
  else bytes.take blockSize :: blocks (bytes.drop blockSize)
termination_by bytes.length
decreasing_by simp only [List.length_drop, blockSize] at *; omega

def ofReads (reads : List Read) : Source :=
  receive [] (reads.flatMap fun
    | .bytes block => (blocks block).map .bytes
    | read => [read])

end Source
end NaturalTemplate
