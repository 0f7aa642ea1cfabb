import NaturalTemplate.Markup.Error
import NaturalTemplate.Markup.Name
import NaturalTemplate.Markup.Options
import NaturalTemplate.Markup.Token

/-!
# Filtering tokens

Between reading and tree building, tokens pass four stages one by one. Prototype-only blocks are
unwrapped, or folded into one comment where comments are kept; parser-level comments are dropped, or
made ordinary ones; texts that have come to stand side by side are joined; and in strict mode the
tags have to be balanced.
-/
namespace NaturalTemplate.Markup

/-- The tags that are open, the innermost first, and the start tag that is being read. -/
structure Balance where
  opened : List String := []
  starting : Option String := none
deriving DecidableEq, Inhabited

/-- Refuses end tags out of turn and elements that are still open at the end. -/
def Balance.feed (b : Balance) (t : Token) : Except ParseError Balance :=
  match t.kind with
  | .tagStart name => .ok { b with starting := some name }
  | .tagStartEnd _ selfClosing =>
    match b.starting with
    | none => .ok b
    | some name =>
      if selfClosing || isVoid name then .ok { b with starting := none }
      else .ok ⟨name :: b.opened, none⟩
  | .tagEnd name =>
    match b.opened with
    | [] => .error (.malformed (.strayEndTag name) t.location)
    | expected :: opened =>
      if expected = name then .ok { b with opened }
      else .error (.unbalanced expected (some name) t.location)
  | .documentEnd =>
    match b.opened with
    | [] => .ok b
    | expected :: _ => .error (.unbalanced expected none t.location)
  | _ => .ok b

def Balance.feedAll (b : Balance) : List Token → Except ParseError Balance
  | [] => .ok b
  | t :: ts =>
    match b.feed t with
    | .error e => .error e
    | .ok b => b.feedAll ts

/-- A prototype-only block that is being folded into one comment. -/
structure Fold where
  location : Location
  raw : String
deriving DecidableEq, Inhabited

/-- The comment that a block becomes; its content is its text between the comment marks. -/
def Fold.toComment (f : Fold) : Token :=
  let content := (f.raw.toList.drop 4).take (f.raw.toList.length - 7)
  ⟨.comment .normal (String.ofList content), f.raw, f.location⟩

/-- Text that may still be joined by more text. -/
structure Held where
  content : String
  raw : String
  location : Location
deriving DecidableEq, Inhabited

def Held.toToken (h : Held) : Token := ⟨.text h.content, h.raw, h.location⟩

structure Filter where
  comments : CommentPolicy
  /-- The open block, where comments are kept. -/
  fold : Option Fold := none
  /-- Text that waits for more text to join. -/
  held : Option Held := none
  /-- Kept in strict mode only. -/
  balance : Option Balance := none
deriving DecidableEq, Inhabited

namespace Filter

def ofOptions (options : Options) : Filter where
  comments := options.comments
  balance := if options.mode = .strict then some {} else none

/-- Unwraps blocks, or folds them. -/
def feedBlock (comments : CommentPolicy) (fold : Option Fold) (t : Token) :
    Option Fold × Option Token :=
  match comments, t.kind, fold with
  | .discard, .blockStart, _ | .discard, .blockEnd, _ => (fold, none)
  | .discard, _, _ => (fold, some t)
  | .keep, .blockStart, none => (some ⟨t.location, t.raw⟩, none)
  | .keep, .blockEnd, some f => (none, some { f with raw := f.raw ++ t.raw : Fold }.toComment)
  | .keep, _, some f => (some { f with raw := f.raw ++ t.raw }, none)
  | .keep, _, none => (none, some t)

/-- Drops parser-level comments, or makes them ordinary ones. -/
def feedComment (comments : CommentPolicy) (t : Token) : Option Token :=
  match t.kind, comments with
  | .comment .parserLevel _, .discard => none
  | .comment .parserLevel content, .keep =>
    some { t with kind := .comment .normal ("/*" ++ content ++ "*/") }
  | _, _ => some t

/-- Joins text to the text before it. -/
def feedText (held : Option Held) (t : Token) : Option Held × List Token :=
  match t.kind, held with
  | .text content, none => (some ⟨content, t.raw, t.location⟩, [])
  | .text content, some h =>
    (some { h with content := h.content ++ content, raw := h.raw ++ t.raw }, [])
  | _, none => (none, [t])
  | _, some h => (none, [h.toToken, t])

/-- Passes one token through the stages; what comes out may be more than one token, or none. -/
def feed (f : Filter) (t : Token) : Except ParseError (Filter × List Token) :=
  let (fold, unfolded) := feedBlock f.comments f.fold t
  match unfolded.bind (feedComment f.comments) with
  | none => .ok ({ f with fold }, [])
  | some t =>
    let (held, ts) := feedText f.held t
    match f.balance with
    | none => .ok ({ f with fold, held }, ts)
    | some b =>
      match b.feedAll ts with
      | .error e => .error e
      | .ok b => .ok ({ f with fold, held, balance := some b }, ts)

/-- What the stages still hold at the end. A block that is still open is an error. -/
def finish (f : Filter) : Except ParseError (List Token) :=
  match f.fold with
  | some fold => .error (.malformed .unterminatedBlock fold.location)
  | none =>
    let ts := (f.held.map Held.toToken).toList
    match f.balance with
    | none => .ok ts
    | some b => (b.feedAll ts).map fun _ => ts

end Filter
end NaturalTemplate.Markup
