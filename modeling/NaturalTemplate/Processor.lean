import NaturalTemplate.Processor.Directive
import NaturalTemplate.Expression.Evaluator
import NaturalTemplate.Markup.Element

/-!
# Processors

A processor is called for the elements that its rule matches. It can look at the element and the
context and change both, and it answers with a directive.
-/
namespace NaturalTemplate
open Markup

/-- What a processor can change. The attribute that called for it is no longer on the element. -/
structure Workspace where
  element : Element
  context : Context
deriving Inhabited

/-- A piece of a processor's work. What it changed before it failed stays changed. -/
abbrev Work := EStateM EngineError Workspace

/-- What a processor is called with. -/
structure Call where
  evaluator : Evaluator
  /-- The attribute that called for the processor, if its rule is about attributes. -/
  trigger : Option Attribute

/-- What a processor is called for. The names are without the qualifier of the dialect. -/
inductive Rule where
  | attribute (name : String)
  | element (name : String)
deriving DecidableEq, Inhabited

structure Processor where
  name : String
  rule : Rule
  precedence : Int
  run : Call → Work Directive

namespace Processor

/-- A processor for an attribute, and named after it. -/
def forAttribute (name : String) (precedence : Int) (run : Call → Work Directive) : Processor :=
  ⟨name, .attribute name, precedence, run⟩

/-- A processor for elements, and named after them. -/
def forElement (name : String) (precedence : Int) (run : Call → Work Directive) : Processor :=
  ⟨name, .element name, precedence, run⟩

end Processor

namespace Work

def element : Work Element := return (← get).element

def context : Work Context := return (← get).context

def changeElement (f : Element → Element) : Work Unit :=
  modify fun w => { w with element := f w.element }

def changeContext (f : Context → Context) : Work Unit :=
  modify fun w => { w with context := f w.context }

def ofExcept {α : Type} : Except EngineError α → Work α
  | .ok a => pure a
  | .error e => throw e

/-- The text of a value, where it has one. -/
def text (v : Value) : Work String := ofExcept v.text

end Work

namespace Call

/-- The text that the value of the attribute stands for, empty without an attribute. -/
def value (call : Call) : String :=
  match call.trigger with
  | some a => a.decodedValue
  | none => ""

def evaluate (call : Call) (expression : String) : Work Value := do
  let (result, context) := call.evaluator.evaluate expression (← Work.context)
  Work.changeContext fun _ => context
  Work.ofExcept result

/-- Evaluates the value of the attribute. -/
def evaluateValue (call : Call) : Work Value := call.evaluate call.value

end Call
end NaturalTemplate
