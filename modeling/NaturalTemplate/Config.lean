import NaturalTemplate.Markup.Options

/-!
# Configurations
-/
namespace NaturalTemplate
open Markup

/-- What happens to the output of a template that is halted. -/
inductive HaltPolicy where
  | discard
  | keep
deriving DecidableEq, Inhabited

structure Config where
  mode : Mode := .tolerant
  comments : CommentPolicy := .discard
  halt : HaltPolicy := .discard
deriving DecidableEq, Inhabited

def Config.parseOptions (c : Config) : Options := ⟨c.mode, c.comments⟩

end NaturalTemplate
