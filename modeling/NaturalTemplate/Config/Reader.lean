import NaturalTemplate.Config
import NaturalTemplate.Config.Json
import NaturalTemplate.Error

/-!
# Reading configurations

A configuration is an object with the settings that differ from the defaults, or an array of
settings in their order. A choice is written as its name, or as an object with its name as the only
key and null under it. Keys that mean nothing are ignored; a key that means something may not be
there twice.
-/
namespace NaturalTemplate.Config
open Markup

/-- The choice that has a name. -/
def choiceNamed? {α : Type} (names : List (String × α)) (raw : List Char) : Option α :=
  (Json.decode? raw).bind fun name => names.lookup (String.ofList name)

def choice? {α : Type} (names : List (String × α)) : Json → Option α
  | .string raw => choiceNamed? names raw
  | .object [(raw, .null)] => choiceNamed? names raw
  | _ => none

def modeNames : List (String × Mode) := [("strict", .strict), ("tolerant", .tolerant)]

def commentNames : List (String × CommentPolicy) :=
  [("keepParserComments", .keep), ("discardParserComments", .discard)]

def haltNames : List (String × HaltPolicy) := [("discardPartial", .discard), ("keepPartial", .keep)]

/-- The settings that were read so far. -/
structure Settings where
  mode : Option Mode := none
  comments : Option CommentPolicy := none
  halt : Option HaltPolicy := none
deriving DecidableEq, Inhabited

namespace Settings

def toConfig (s : Settings) : Config :=
  { mode := s.mode.getD .tolerant
    comments := s.comments.getD .discard
    halt := s.halt.getD .discard }

def setMode (v : Json) (s : Settings) : Option Settings :=
  if s.mode.isSome then none else (choice? modeNames v).map fun m => { s with mode := some m }

def setComments (v : Json) (s : Settings) : Option Settings :=
  if s.comments.isSome then none
  else (choice? commentNames v).map fun p => { s with comments := some p }

def setHalt (v : Json) (s : Settings) : Option Settings :=
  if s.halt.isSome then none else (choice? haltNames v).map fun p => { s with halt := some p }

/-- One more member of an object. -/
def addMember (s : Settings) (key : List Char) (v : Json) : Option Settings :=
  match (Json.decode? key).map String.ofList with
  | none => none
  | some "mode" => s.setMode v
  | some "commentPolicy" => s.setComments v
  | some "haltOutputPolicy" => s.setHalt v
  | some _ => some s

def addMembers (s : Settings) : List (List Char × Json) → Option Settings
  | [] => some s
  | (key, v) :: members => (s.addMember key v).bind fun s => s.addMembers members

/-- The items of an array, in the order of the settings. -/
def ofItems : List Json → Option Settings
  | [] => some {}
  | [mode] => setMode mode {}
  | [mode, comments] => (setMode mode {}).bind (setComments comments)
  | [mode, comments, halt] =>
    ((setMode mode {}).bind (setComments comments)).bind (setHalt halt)
  | _ => none

end Settings

def ofJson? : Json → Option Config
  | .object members => (Settings.addMembers {} members).map Settings.toConfig
  | .array items => (Settings.ofItems items).map Settings.toConfig
  | _ => none

/-- Reads a configuration. -/
def parse (text : String) : Except EngineError Config :=
  match (Json.parse? text.toList).bind ofJson? with
  | some c => .ok c
  | none => .error .configuration

end NaturalTemplate.Config
