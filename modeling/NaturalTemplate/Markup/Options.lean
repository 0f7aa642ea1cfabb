/-!
# Options of a parse
-/
namespace NaturalTemplate.Markup

/-- The rules on tag balance and quoting. -/
inductive Mode where
  /-- Balanced tags and double-quoted values only, as in XML. -/
  | strict
  /-- Tags are closed where needed; values may be unquoted or single-quoted, as in HTML. -/
  | tolerant
deriving DecidableEq, Inhabited

/-- What happens to parser-level comments and prototype-only blocks. -/
inductive CommentPolicy where
  /-- Both are kept as ordinary comments. -/
  | keep
  /-- Parser-level comments are dropped and prototype-only blocks are unwrapped. -/
  | discard
deriving DecidableEq, Inhabited

structure Options where
  mode : Mode := .tolerant
  comments : CommentPolicy := .discard
deriving DecidableEq, Inhabited

end NaturalTemplate.Markup
