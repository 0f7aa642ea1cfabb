import NaturalTemplate.Processor
import NaturalTemplate.Standard.Declaration

/-!
# Processors for the scope

They change what the expressions of an element and of the elements in it can see.
-/
namespace NaturalTemplate.Standard

def selectObject (call : Call) : Work Directive := do
  let v ← call.evaluateValue
  Work.changeContext fun c => c.setSelection v
  return .proceed

/-- Binds variables in the scope of the element. Later expressions see the earlier variables. -/
def bindAll (call : Call) : List (String × String) → Work Unit
  | [] => return
  | (name, expression) :: rest => do
    if !isIdentifier name then throw (.type (.variableName name))
    let v ← call.evaluate expression
    Work.changeContext fun c => c.setLocal name v
    bindAll call rest

def bindVariables (call : Call) : Work Directive := do
  bindAll call (← Work.ofExcept (assignments call.value))
  return .proceed

/-- Turns the expansion of expressions in text on or off. -/
def inline (call : Call) : Work Directive := do
  let on ←
    match Text.trimmed call.value with
    | "text" | "html" | "xml" => pure true
    | "none" => pure false
    | mode => throw (.type (.inlineMode mode))
  Work.changeContext fun c => c.setInlining on
  return .proceed

end NaturalTemplate.Standard
