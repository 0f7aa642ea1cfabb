import NaturalTemplate.Processor.Dialect
import NaturalTemplate.Markup.Parse

/-!
# Processors given as data

A script is a list of steps, done one after the other, and a directive to answer with. Markup in it
is read when it is needed, like a template of its own.
-/
namespace NaturalTemplate
open Markup

/-- What a script answers with. -/
inductive Ending where
  | proceed
  | removeNode
  | removeBody
  | skipChildren
  | replace (markup : String)
  /-- Puts text in the place of the element. -/
  | replaceText (content : String)
  /-- Puts the children in the place of the element. -/
  | unwrap
  /-- Puts the element in its own place, so that it is processed anew. -/
  | replaceSelf
  /-- Repeats the element over what there is to repeat over in a value. -/
  | iterate (collection : Value) (binding : String) (status : Option String)
  | halt (earlyExit : Bool)
deriving Inhabited

inductive Step where
  /-- Notes where the processor is called and what it sees. -/
  | log (label : String)
  /-- Notes the value of an expression. -/
  | logEval (expression : String)
  | setAttribute (name value : String)
  | removeAttribute (name : String)
  | setText (content : String)
  | setChildren (markup : String)
  /-- Makes the value of the attribute the body of the element. -/
  | evalText
  | evalAttribute (name expression : String)
  | setLocal (name : String) (v : Value)
  | bindLazy (name : String) (v : Value)
  | setSelection (v : Value)
  | setInlining (on : Bool)
  | fail (cause : EngineError)
  /-- Reads markup by the strict rules and forgets it. -/
  | parse (markup : String)
deriving Inhabited

/-- The nodes of a piece of markup. -/
def fragment (markup : String) : Except EngineError (List Node) :=
  match Markup.parse {} markup with
  | .ok d => .ok d.nodes
  | .error e => .error (.parse e)

/-- What the processor sees now. -/
def Call.visit (call : Call) (label : String) : Work Visit := do
  let e ← Work.element
  return { label, element := e.name, trigger := call.trigger, value := call.value,
           attributes := e.attributes.map Attribute.name, children := e.children.length,
           depth := (← Work.context).depth }

namespace Step

def run (call : Call) : Step → Work Unit
  | log label => do
    let visit ← call.visit label
    Work.changeContext fun c => c.note (.visited visit)
  | logEval expression => do
    let v ← call.evaluate expression
    Work.changeContext fun c => c.note (.observed v)
  | setAttribute name value => Work.changeElement fun e => e.setAttribute name value
  | removeAttribute name => Work.changeElement fun e => e.removeAttribute name
  | setText content => Work.changeElement fun e => e.setText content
  | setChildren markup => do
    let nodes ← Work.ofExcept (fragment markup)
    Work.changeElement fun e => e.setChildren nodes
  | evalText => do
    let content ← Work.text (← call.evaluateValue)
    Work.changeElement fun e => e.setText (Text.escape content)
  | evalAttribute name expression => do
    let content ← Work.text (← call.evaluate expression)
    Work.changeElement fun e => e.setAttribute name (Text.escape content)
  | setLocal name v => Work.changeContext fun c => c.setLocal name v
  | bindLazy name v => Work.changeContext fun c => c.bindLazy name (.pure v)
  | setSelection v => Work.changeContext fun c => c.setSelection v
  | setInlining on => Work.changeContext fun c => c.setInlining on
  | fail cause => throw cause
  | parse markup =>
    match Markup.parse { mode := .strict } markup with
    | .ok _ => return
    | .error e => throw (.parse e)

def runAll (call : Call) : List Step → Work Unit
  | [] => return
  | s :: ss => do
    s.run call
    runAll call ss

end Step

def Ending.directive : Ending → Work Directive
  | proceed => return .proceed
  | removeNode => return .removeNode
  | removeBody => return .removeBody
  | skipChildren => return .skipChildren
  | replace markup => return .replace (← Work.ofExcept (fragment markup))
  | replaceText content => return .replace [.ofText content]
  | unwrap => return .replace (← Work.element).children
  | replaceSelf => return .replace [(← Work.element).toNode]
  | iterate collection binding status => return .iterate (collection.items?.getD []) binding status
  | halt earlyExit => return .halt earlyExit

structure Script where
  steps : List Step
  ending : Ending
deriving Inhabited

def Script.run (s : Script) (call : Call) : Work Directive := do
  Step.runAll call s.steps
  s.ending.directive

end NaturalTemplate
