import NaturalTemplate.Config
import NaturalTemplate.Markup.Node.Render
import NaturalTemplate.Markup.Parse
import NaturalTemplate.Processing.Nodes
import NaturalTemplate.Sink

/-!
# Engines

An engine parses templates and fills them with data. A template is not changed by being processed.
-/
namespace NaturalTemplate
open Markup

structure Engine where
  config : Config := {}
  registry : Registry := {}
  evaluator : Evaluator := .standard

namespace Engine

/-- An engine with some dialects. -/
def make (config : Config) (dialects : List Dialect) (evaluator : Evaluator) :
    Except EngineError Engine :=
  (Registry.ofDialects dialects).map fun registry => { config, registry, evaluator }

def parseSource (engine : Engine) (s : Source) : Except EngineError Document :=
  match Markup.parseSource engine.config.parseOptions s with
  | .ok d => .ok d
  | .error e => .error (.parse e)

def parse (engine : Engine) (s : String) : Except EngineError Document :=
  engine.parseSource (.ofString s)

/-- The output of a template. If it was halted, what was produced so far is kept or discarded. -/
def output (config : Config) (emitted : Emitted) : Except EngineError String :=
  let produced := (Document.mk emitted.nodes).render
  match emitted.halt, config.halt with
  | none, _ => .ok produced
  | some ⟨_, true⟩, .keep => .ok produced
  | some ⟨_, true⟩, .discard => .ok ""
  | some ⟨location, false⟩, .keep => .error (.halted location (some produced))
  | some ⟨location, false⟩, .discard => .error (.halted location none)

/-- Fills a template. The context that is left tells what was taken note of. -/
def processTemplate (engine : Engine) (d : Document) (c : Context) :
    Except EngineError String × Context :=
  match engine.registry.emit engine.evaluator d.nodes { context := c } with
  | .ok emitted r => (output engine.config emitted, r.context)
  | .error failure r => (.error failure.toError, r.context)

/-- Fills a template with data. -/
def fill (engine : Engine) (d : Document) (data : Value) : Except EngineError String × Context :=
  match Context.ofValue data with
  | .error e => (.error (.type e), {})
  | .ok c => engine.processTemplate d c

/-- Parses a template and fills it. A template that cannot be parsed is an error before data that
cannot be used. -/
def process (engine : Engine) (s : String) (data : Value) : Except EngineError String × Context :=
  match engine.parse s with
  | .error e => (.error e, {})
  | .ok d => engine.fill d data

/-- Reads a template, fills it and writes the result. Nothing is written if that fails. -/
def processSource (engine : Engine) (s : Source) (c : Context) (sink : Sink) :
    Except EngineError Unit × Context × Sink :=
  match engine.parseSource s with
  | .error e => (.error e, c, sink)
  | .ok d =>
    match engine.processTemplate d c with
    | (.error e, c) => (.error e, c, sink)
    | (.ok text, c) =>
      match sink.writeAll text.toUTF8.toList with
      | (none, sink) => (.ok (), c, sink)
      | (some failure, sink) => (.error (.io failure.message), c, sink)

end Engine
end NaturalTemplate
