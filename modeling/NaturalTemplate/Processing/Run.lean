import NaturalTemplate.Processor.Dialect

/-!
# Runs

What goes on while a template is processed: the context changes, and a record is kept of what was
done. Processors can change the context and nothing else of a run. A run can end early, by an error
or because the template was halted; what was produced before a halt is kept.
-/
namespace NaturalTemplate
open Markup

/-- Where and how a template was halted. -/
structure Halt where
  location : Location
  earlyExit : Bool
deriving DecidableEq, Inhabited

/-- What processing nodes produced, and whether it halted the template. -/
structure Emitted where
  nodes : List Node := []
  halt : Option Halt := none
deriving Inhabited

/-- What was produced by one part of a run and then by another. -/
def Emitted.append (first second : Emitted) : Emitted :=
  ⟨first.nodes ++ second.nodes, second.halt⟩

/-- A thing that was done in a run. -/
inductive Deed where
  /-- A processor was called; the element and the context are kept as they were before. -/
  | called (entry : Entry) (before : Workspace) (result : Except EngineError Directive)
  /-- The expressions in a text were evaluated. -/
  | expanded (text : String)

structure Run where
  context : Context
  /-- What was done, newest first. -/
  deeds : List Deed := []

/-- Why a run ended early. -/
inductive Failure where
  | error (cause : EngineError)
  /-- Elements that processors put in stand too deep inside each other. -/
  | tooDeep
deriving DecidableEq, Inhabited

def Failure.toError : Failure → EngineError
  | error cause => cause
  | tooDeep => .nesting

/-- A part of a run. The context and the record are kept when it fails. -/
abbrev Running := EStateM Failure Run

namespace Running

def changeContext (f : Context → Context) : Running Unit :=
  modify fun r => { r with context := f r.context }

def record (d : Deed) : Running Unit :=
  modify fun r => { r with deeds := d :: r.deeds }

def ofExcept {α : Type} : Except EngineError α → Running α
  | .ok a => pure a
  | .error cause => throw (.error cause)

/-- Does something in a scope of its own, which ends with it, also if it fails. -/
def inScope {α : Type} (x : Running α) : Running α := fun r =>
  match x { r with context := r.context.push } with
  | .ok a r => .ok a { r with context := r.context.pop }
  | .error e r => .error e { r with context := r.context.pop }

/-- Does one thing and then another, unless the first halts the template. -/
def andThen (x y : Running Emitted) : Running Emitted := do
  let first ← x
  if first.halt.isSome then return first
  return first.append (← y)

end Running
end NaturalTemplate
