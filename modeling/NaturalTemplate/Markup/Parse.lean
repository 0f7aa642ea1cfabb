import NaturalTemplate.Markup.Node.Builder
import NaturalTemplate.Markup.Token.Filter
import NaturalTemplate.Markup.Token.Lexer

/-!
# Parsing

From a source to a document: tokens are read, filtered and built into a tree, one after the other.
Of two errors the one that comes first in the source wins.
-/
namespace NaturalTemplate.Markup

/-- Passes tokens through a filter to a builder. -/
def buildFiltered (f : Filter) (b : Builder) : List Token → Except ParseError (Filter × Builder)
  | [] => .ok (f, b)
  | t :: ts =>
    match f.feed t with
    | .error e => .error e
    | .ok (f, filtered) =>
      match b.handleAll filtered with
      | .error e => .error e
      | .ok b => buildFiltered f b ts

def parseSource (options : Options) (s : Source) : Except ParseError Document := do
  let stream := tokenize options.mode s
  let (f, b) ← buildFiltered (.ofOptions options) { mode := options.mode } stream.tokens
  match stream.error with
  | some e => throw e
  | none =>
    let b ← b.handleAll (← f.finish)
    b.finish

def parse (options : Options) (s : String) : Except ParseError Document :=
  parseSource options (.ofString s)

end NaturalTemplate.Markup
