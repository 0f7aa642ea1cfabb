import NaturalTemplate.Proofs.Markup.Pieces
import NaturalTemplate.Proofs.Markup.WellFormed
import NaturalTemplate.Proofs.Source.Delivery

/-!
# What strict reading accepts

The tolerant rules accept more than the strict ones and read nothing in another way, the bodies of
raw-text elements apart. Where no such body begins, a text that can be read by the strict rules has
the same tokens by the tolerant ones, and where it can be parsed, the same document.
-/
namespace NaturalTemplate.Markup
open Lexeme

/-! ## Bodies of raw text -/

def TokenKind.isAttribute : TokenKind → Bool
  | .attribute .. => true
  | _ => false

/-- Whether a token and those behind it are a start tag that a body of raw text follows: one of a
raw-text element that does not close itself. -/
def Token.startsRawText (t : Token) (ts : List Token) : Bool :=
  match t.kind, (ts.dropWhile fun t => t.kind.isAttribute).head?.map Token.kind with
  | .tagStart name, some (.tagStartEnd _ false) => isRawText name
  | _, _ => false

/-- Whether there is such a start tag among some tokens. -/
def Token.haveRawText : List Token → Bool
  | [] => false
  | t :: ts => t.startsRawText ts || haveRawText ts

theorem Token.haveRawText_of_append {ts us : List Token} (h : haveRawText (ts ++ us) = false) :
    haveRawText us = false := by
  induction ts with
  | nil => exact h
  | cons t ts ih =>
    simp only [List.cons_append, haveRawText, Bool.or_eq_false_iff] at h
    exact ih h.2

/-! ## One construct -/

theorem Attribute.IsStrict.isWellFormed {a : Attribute} (h : a.IsStrict) : a.IsWellFormed := by
  refine ⟨h.isApart, ?_, ?_⟩
  · cases h.value with
    | missing hoperator hvalue hquote => exact .missing hoperator hvalue hquote
    | quoted hfront hback hoperator hvalue hmark hquote =>
      exact .written hfront hback hoperator hvalue (by rw [hquote]; exact hmark)
  · cases h.value with
    | missing _ _ hquote => simp [hquote]
    | quoted _ _ _ _ _ hquote => simp [hquote]

namespace Lexeme

variable {inBlock : Bool} {cs rest : List Char} {ls : List Lexeme}

theorem scanMarkup_tolerant (hopens : opensMarkup none cs = .ok true)
    (h : scanMarkup .strict none inBlock cs = .ok (ls, rest)) :
    scanMarkup .tolerant none inBlock cs = .ok (ls, rest) := by
  have happ := scanMarkup_append h
  cases scans_of_scanMarkup h with
  | blockStart hconstruct hblock => simp [scanMarkup, hconstruct, hblock]
  | delimited hk hconstruct hscan =>
    rw [scanMarkup_of_delimits hk .tolerant inBlock hconstruct, hscan]
    rfl
  | endTag hconstruct hscan =>
    obtain ⟨name, space, hname, hspace, rfl⟩ := scanEndTag_strict hopens hconstruct hscan
    rw [← happ]
    exact scanMarkup_endTag .tolerant hname hspace inBlock rest
  | startTag hconstruct hscan =>
    obtain ⟨t, ht, rfl⟩ := scanStartTag_strict hopens hconstruct hscan
    -- Tolerant rules could read an attribute further than strict ones; here each one stops.
    have hstops := Tag.stops_of_isWellFormed (fun a ha => (ht.attributes a ha).isWellFormed)
      ht.trailing rest
    rw [scanMarkup, hconstruct, ← happ]
    exact (scanStartTag_tolerant_iff ht.name rest).mpr hstops

theorem scanUnit_tolerant (h : scanUnit .strict none inBlock cs = .ok (ls, rest)) :
    scanUnit .tolerant none inBlock cs = .ok (ls, rest) := by
  cases steps_of_scanUnit h with
  | blockEnd hblock hmark => simp only [scanUnit, hblock, hmark, if_true]
  | markup hopens hscan => rw [scanUnit_of_opens inBlock hopens, scanMarkup_tolerant hopens hscan]
  | text hopens hmark hrun => simp only [scanUnit, hmark, hopens, scanText, hrun]

/-- The parts of a start tag are attributes, and then it ends. -/
theorem dropWhile_locate (attributes : List Attribute) (trailing : String) (selfClosing : Bool)
    (p : Position) (ts : List Token) :
    ∃ e : Token, e.kind = .tagStartEnd trailing selfClosing ∧
      (locate p (Tag.partLexemes attributes trailing selfClosing) ++ ts).dropWhile
        (fun t => t.kind.isAttribute) = e :: ts := by
  induction attributes generalizing p with
  | nil => exact ⟨_, rfl, rfl⟩
  | cons a attributes ih => exact ih _

theorem isRawText_of_haveRawText {tag : Tag} {p : Position} {ts : List Token}
    (h : Token.haveRawText (locate p tag.lexemes ++ ts) = false)
    (hopen : tag.selfClosing = false) : isRawText tag.name = false := by
  rw [Tag.lexemes, locate, List.cons_append, Token.haveRawText, Bool.or_eq_false_iff] at h
  have hstart := h.1
  obtain ⟨e, he, hparts⟩ := dropWhile_locate tag.attributes tag.trailing tag.selfClosing
    (p.advanceBy ('<' :: tag.name.toList)) ts
  rw [Token.startsRawText, hparts, List.head?_cons, Option.map_some, he, hopen] at hstart
  exact hstart

theorem getLast?_lexemes (tag : Tag) : tag.lexemes.getLast?.map Lexeme.kind =
    some (.tagStartEnd tag.trailing tag.selfClosing) := by
  rw [Tag.lexemes, Tag.partLexemes, List.getLast?_cons, List.getLast?_append]
  rfl

/-- Where a body of raw text follows, the tokens have its start tag. -/
theorem rawTextAfter_eq_none (hcs : cs ≠ [])
    (h : scanUnit .strict none inBlock cs = .ok (ls, rest)) {p : Position} {ts : List Token}
    (hraw : Token.haveRawText (locate p ls ++ ts) = false) : rawTextAfter .tolerant ls = none := by
  obtain ⟨c, ds, rfl⟩ := List.exists_cons_of_ne_nil hcs
  unfold rawTextAfter
  obtain ⟨l, rfl, hl⟩ | ⟨tag, -, rfl⟩ := exists_of_scanUnit h
  · split
    · next name _ _ hname _ =>
      have hkind : l.kind = .tagStart name := by simpa using hname
      simp [hkind, TokenKind.IsPiece] at hl
    · rfl
  · rw [getLast?_lexemes]
    split
    · next name _ _ hname hclosing =>
      cases hname
      simp only [Option.some.injEq, TokenKind.tagStartEnd.injEq] at hclosing
      simp [isRawText_of_haveRawText hraw hclosing.2]
    · rfl

end Lexeme

/-! ## Whole texts -/

/-- Reading goes on from construct to construct by the same rules. -/
theorem Tokens.read_tolerant {p : Position} {block : Option Location} {cs : List Char}
    (h : (read .strict none p block none cs).error = none)
    (hraw : Token.haveRawText (read .strict none p block none cs).tokens = false) :
    read .tolerant none p block none cs = read .strict none p block none cs := by
  -- `read` goes on at what a construct leaves, which is shorter by any number of characters.
  induction hn : cs.length using Nat.strong_induction_on generalizing p block cs with
  | _ n ih =>
    obtain ⟨rfl, rfl⟩ | ⟨ls, rest, hcs, hlength, hscan, herror⟩ := cases_of_read h
    · rw [read, read]
    · rw [read_of_scanUnit hcs hscan] at hraw ⊢
      rw [read_next hcs (scanUnit_tolerant hscan), rawTextAfter_eq_none hcs hscan hraw,
        ih _ (hn ▸ hlength) herror (Token.haveRawText_of_append hraw) rfl]

/-- A source that can be read by the strict rules, and has no start tag that a body of raw text
would follow, has the same tokens by the tolerant rules; and the same document, if strict rules make
one of it. -/
theorem tolerant_of_strict {s : Source}
    (hraw : Token.haveRawText (tokenize .strict s).tokens = false) :
    ((tokenize .strict s).error = none → tokenize .tolerant s = tokenize .strict s) ∧
      ∀ (comments : CommentPolicy) (d : Document),
        parseSource { mode := .strict, comments } s = .ok d →
          parseSource { mode := .tolerant, comments } s = .ok d := by
  have htokens (herror : (tokenize .strict s).error = none) :
      tokenize .tolerant s = tokenize .strict s := by
    obtain ⟨cs, failure⟩ := s
    cases failure with
    | some f => exact (Tokens.read_error_ne_none _ f _ _ _ _ herror).elim
    | none =>
      have hbody := @Token.haveRawText_of_append [⟨.documentStart, "", .start⟩] _ hraw
      exact congrArg (Tokens.prepend _) (Tokens.read_tolerant herror hbody)
  refine ⟨htokens, fun comments d h => ?_⟩
  have herror := (parseSource_eq_ok h).1
  have hstrict : tokenize .strict s = ⟨(tokenize .strict s).tokens, none⟩ := by
    rw [← herror]
  have htolerant := htokens herror
  rw [hstrict] at htolerant
  rw [parseSource_of_tokens hstrict] at h
  rw [parseSource_of_tokens htolerant]
  exact build_tolerant h

theorem tolerant_of_strict_selfClosing :
    let s := Source.ofString "<SCRIPT src=\"a\"/><p k = \"v\" >t<br>\r<!--/*n*/--></p >"
    Token.haveRawText (tokenize .strict s).tokens = false ∧ (tokenize .strict s).error = none ∧
      tokenize .tolerant s = tokenize .strict s ∧
      ∃ d, parseSource { mode := .strict } s = .ok d ∧
        parseSource { mode := .tolerant } s = .ok d := by
  intro s
  have hraw : Token.haveRawText (tokenize .strict s).tokens = false := by decide +kernel
  have herror : (tokenize .strict s).error = none := by decide +kernel
  have hok : (parseSource { mode := .strict } s).isOk = true := by decide +kernel
  obtain ⟨htokens, hparse⟩ := tolerant_of_strict hraw
  match h : parseSource { mode := .strict } s with
  | .ok d => exact ⟨hraw, herror, htokens herror, d, rfl, hparse _ d h⟩
  | .error e =>
    rw [h] at hok
    contradiction

/-- The body of a raw-text element is read in two ways. -/
example : tokenize .strict (.ofString "<style><b/></style>") ≠
    tokenize .tolerant (.ofString "<style><b/></style>") := by
  decide +kernel

end NaturalTemplate.Markup
