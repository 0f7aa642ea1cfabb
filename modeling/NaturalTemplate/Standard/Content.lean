import NaturalTemplate.Processor
import NaturalTemplate.Standard.Declaration

/-!
# Processors for content

They write values into the attributes and the body of an element. All that is written into an
attribute is escaped, and so is a body unless the template asks for it as it is.
-/
namespace NaturalTemplate.Standard
open Markup

/-! ## Attributes -/

/-- Sets an attribute to the text of a value, or removes it if the value is null. -/
def setAttribute (name : String) (v : Value) : Work Unit :=
  if v.isNull then Work.changeElement fun e => e.removeAttribute name
  else do
    let text ← Work.text v
    Work.changeElement fun e => e.setAttribute name (Text.escape text)

def setAll (call : Call) : List (String × String) → Work Unit
  | [] => return
  | (name, expression) :: rest => do
    setAttribute name (← call.evaluate expression)
    setAll call rest

def setAttributes (call : Call) : Work Directive := do
  setAll call (← Work.ofExcept (assignments call.value))
  return .proceed

/-- The text that the value of an attribute stands for, empty without the attribute. -/
def existing (name : String) (e : Element) : String :=
  match e.attribute? name with
  | some a => a.decodedValue
  | none => ""

/-- Joins text to the values of attributes. Where there is none to add, nothing changes. -/
def joinAll (join : String → String → String) (call : Call) : List (String × String) → Work Unit
  | [] => return
  | (name, expression) :: rest => do
    let extra ← Work.text (← call.evaluate expression)
    if extra ≠ "" then
      Work.changeElement fun e =>
        e.setAttribute name (Text.escape (join (existing name e) extra))
    joinAll join call rest

/-- Joins text to attributes, given what was there and what is added. -/
def joinAttributes (join : String → String → String) (call : Call) : Work Directive := do
  joinAll join call (← Work.ofExcept (assignments call.value))
  return .proceed

/-- What stands between the parts of an attribute that is a list. -/
structure Separator where
  full : String
  /-- The end of a list that needs no more than a space after it. -/
  closed : List Char

/-- A list with one more part. -/
def Separator.append (s : Separator) (before extra : String) : String :=
  let before := Text.trimEnd before.toList
  if before.isEmpty then extra
  else if s.closed ≠ [] ∧ s.closed.isSuffixOf before then String.ofList before ++ " " ++ extra
  else String.ofList before ++ s.full ++ extra

/-- Adds a part to an attribute that is a list. -/
def appendTo (name : String) (s : Separator) (call : Call) : Work Directive := do
  let extra ← Work.text (← call.evaluateValue)
  if extra ≠ "" then
    Work.changeElement fun e =>
      e.setAttribute name (Text.escape (s.append (existing name e) extra))
  return .proceed

def setOne (name : String) (call : Call) : Work Directive := do
  setAttribute name (← call.evaluateValue)
  return .proceed

/-- Sets an attribute to its own name if the value counts as true, and removes it otherwise. -/
def setFlag (name : String) (call : Call) : Work Directive := do
  let v ← call.evaluateValue
  Work.changeElement fun e =>
    if v.isTruthy then e.setAttribute name name else e.removeAttribute name
  return .proceed

/-! ## Text -/

/-- Makes the value the body of the element. The new body is output, not template. -/
def setBody (escaped : Bool) (call : Call) : Work Directive := do
  let content ← Work.text (← call.evaluateValue)
  Work.changeElement fun e =>
    if content = "" then e.setChildren []
    else e.setText (if escaped then Text.escape content else content)
  return .skipChildren

end NaturalTemplate.Standard
