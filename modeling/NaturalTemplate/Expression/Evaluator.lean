import NaturalTemplate.Expression.Eval
import NaturalTemplate.Expression.Parser
import NaturalTemplate.Text.Upper

/-!
# Evaluators

What gives the text of an expression its value. An evaluator also says which names it looks up, so
that the values bound lazily to them are known to be asked for.
-/
namespace NaturalTemplate

structure Evaluator where
  value : Context → String → Except EngineError Value
  /-- The names that are looked up, in order. -/
  reads : Context → String → List String

namespace Evaluator

/-- Expressions as they are usually written. -/
def standard : Evaluator where
  value c text :=
    match (Expr.parse text.toList).eval c with
    | .ok v => .ok v
    | .error cause => .error (.expression text cause)
  reads c text := (Expr.parse text.toList).reads c

/-- Takes the text of an expression for its value, in upper case. -/
def upper : Evaluator where
  value _ text := .ok (.string (Text.upper text))
  reads _ _ := []

/-- Evaluates an expression. The context that is left has the values that were asked for. -/
def evaluate (ev : Evaluator) (text : String) (c : Context) : Except EngineError Value × Context :=
  (ev.value c text, c.touchAll (ev.reads c text))

end Evaluator
end NaturalTemplate
