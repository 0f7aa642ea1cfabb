import NaturalTemplate.Processor
import NaturalTemplate.Standard.Declaration

/-!
# Processors for structure

They decide whether an element stays, how often, and what becomes of its children.
-/
namespace NaturalTemplate.Standard
open Markup

def each (call : Call) : Work Directive := do
  let i ← Work.ofExcept (iteration call.value)
  let collection ← call.evaluate i.expression
  match collection.items? with
  | some items => return .iterate items i.binding i.status
  | none => throw (.type (.notIterable collection.type))

/-- Keeps the element if the value counts as true, or as false. -/
def conditional (keepWhen : Bool) (call : Call) : Work Directive := do
  if (← call.evaluateValue).isTruthy == keepWhen then return .proceed
  else return .removeNode

/-- The name under which a switch keeps its value and whether a case has matched. As it is no
identifier, no expression can say it. -/
def switchName : String := "#switch"

def switch (call : Call) : Work Directive := do
  let v ← call.evaluateValue
  Work.changeContext fun c =>
    c.setLocal switchName (.ofEntries [("value", v), ("matched", .bool false)])
  return .proceed

/-- Notes that a case of the switch has matched. -/
def markMatched (c : Context) : Context :=
  match c.value? switchName with
  | some (.object entries) =>
    c.overwrite switchName (.object (Value.insert "matched" (.bool true) entries))
  | _ => c

/-- Keeps the element if it is the first case of the switch that matches. The expressions of the
cases after it are not evaluated. -/
def case (call : Call) : Work Directive := do
  let state := (← Work.context).value? switchName
  Work.changeContext fun c => c.touch switchName
  match state with
  | none => throw (.type .caseOutsideSwitch)
  | some state =>
    if ((state.get? "matched").map Value.isTruthy).getD false then return .removeNode
    let matched ←
      if Text.trimmed call.value = "*" then pure true
      else pure ((← call.evaluateValue).looselyEquals ((state.get? "value").getD .null))
    if matched then
      Work.changeContext markMatched
      return .proceed
    else return .removeNode

/-- Leaves only the first of the elements among some nodes. Other nodes stay. -/
def keepFirstElement : List Node → List Node
  | [] => []
  | n :: ns =>
    if n.element?.isSome then n :: ns.filter fun n => n.element?.isNone
    else n :: keepFirstElement ns

/-- Puts the children in the place of the element. -/
def unwrap : Call → Work Directive := fun _ => return .replace (← Work.element).children

/-- The ways to remove an element, or parts of it, that need no evaluation. -/
def removeModes : List String := ["all", "body", "tag", "all-but-first", "none"]

def remove (call : Call) : Work Directive := do
  let declared := Text.trimmed call.value
  let mode ←
    if declared ∈ removeModes then pure declared
    else Work.text (← call.evaluate declared)
  match mode with
  | "all" => return .removeNode
  | "body" => return .removeBody
  | "tag" => unwrap call
  | "all-but-first" =>
    Work.changeElement fun e => { e with children := keepFirstElement e.children }
    return .proceed
  | "none" | "" => return .proceed
  | mode => throw (.type (.removeMode mode))

end NaturalTemplate.Standard
