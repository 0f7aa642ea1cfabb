import Mathlib.Tactic
import NaturalTemplate.Markup.Node.Render
import NaturalTemplate.Markup.Token.Lexer
import NaturalTemplate.Proofs.Text.Characters

/-!
# How tokens are spelled, and in which order they come

All tokens but end tags can be written from their kind alone, and the tokens of a source have just
that text. Start tags and prototype-only blocks are opened and closed in turn. Put together, the
texts of the tokens are the text of the source.
-/
namespace NaturalTemplate.Markup

/-- The text of a token of this kind. That of an end tag is not known from its kind. -/
def TokenKind.spelling? : TokenKind → Option String
  | .documentStart | .documentEnd => some ""
  | .tagStart name => some ("<" ++ name)
  | .attribute leading name operator value quote =>
    some (Attribute.mk leading name operator value quote {}).render
  | .tagStartEnd trailing selfClosing => some (trailing ++ if selfClosing then "/>" else ">")
  | .tagEnd _ => none
  | .text content => some content
  | .comment .normal content => some ("<!--" ++ content ++ "-->")
  | .comment .parserLevel content => some ("<!--/*" ++ content ++ "*/-->")
  | .cdata content => some ("<![CDATA[" ++ content ++ "]]>")
  | .docType content => some ("<!" ++ content ++ ">")
  | .instruction content => some ("<?" ++ content ++ "?>")
  | .blockStart => some "<!--/*/"
  | .blockEnd => some "/*/-->"

def Token.Spelled (t : Token) : Prop := ∀ s ∈ t.kind.spelling?, t.raw = s

def Lexeme.Spelled (l : Lexeme) : Prop := ∀ s ∈ l.kind.spelling?, String.ofList l.raw = s

/-- The texts of tokens one after the other. -/
def Token.rawText (ts : List Token) : String := String.join (ts.map Token.raw)

@[simp] theorem Token.rawText_nil : Token.rawText [] = "" := rfl

@[simp] theorem Token.rawText_cons (t : Token) (ts : List Token) :
    Token.rawText (t :: ts) = t.raw ++ Token.rawText ts := by simp [Token.rawText]

@[simp] theorem Token.rawText_append (ts us : List Token) :
    Token.rawText (ts ++ us) = Token.rawText ts ++ Token.rawText us := by
  simp [Token.rawText, String.join_append]

/-- What is open between two tokens. -/
structure Turn where
  inTag : Bool := false
  inBlock : Bool := false
deriving DecidableEq

/-- What is open after one more token, if it may come here. -/
def Turn.next? (u : Turn) : TokenKind → Option Turn
  | .tagStart _ => if u.inTag then none else some { u with inTag := true }
  | .attribute .. => if u.inTag then some u else none
  | .tagStartEnd .. => if u.inTag then some { u with inTag := false } else none
  | .blockStart => if u.inTag || u.inBlock then none else some { u with inBlock := true }
  | .blockEnd => if !u.inTag && u.inBlock then some { u with inBlock := false } else none
  | _ => if u.inTag then none else some u

/-- What is open after some tokens, if they come in turn. -/
def Turn.after? (u : Turn) (kinds : List TokenKind) : Option Turn := kinds.foldlM Turn.next? u

@[simp] theorem Turn.after?_nil (u : Turn) : u.after? [] = some u := rfl

@[simp] theorem Turn.after?_cons (u : Turn) (k : TokenKind) (ks : List TokenKind) :
    u.after? (k :: ks) = (u.next? k).bind fun v => v.after? ks := rfl

theorem Turn.after?_append (u : Turn) (ks js : List TokenKind) :
    u.after? (ks ++ js) = (u.after? ks).bind fun v => v.after? js := by
  simp [Turn.after?, List.foldlM_append]

namespace Lexeme

/-! ## The lexemes of one construct -/

theorem scanDelimited_spelled {failure : Option ReadFailure} {start stop cs rest : List Char}
    {cause : Malformation} {kind : String → TokenKind} {l : Lexeme}
    (hstart : cs.take start.length = start)
    (hkind : ∀ s, (kind s).spelling? = some (String.ofList start ++ s ++ String.ofList stop))
    (h : scanDelimited failure start stop cause kind cs = .ok (l, rest)) : l.Spelled := by
  unfold scanDelimited at h
  split at h
  · simp at h
  · simp at h
  · simp only [Except.ok.injEq, Prod.mk.injEq] at h
    obtain ⟨rfl, rfl⟩ := h
    intro s hs
    rw [hkind] at hs
    simp only [Option.mem_def, Option.some.injEq] at hs
    rw [← hs, hstart, String.ofList_append, String.ofList_append]

theorem kind_of_scanEndTag {mode : Mode} {failure : Option ReadFailure} {cs rest : List Char}
    {l : Lexeme} (h : scanEndTag mode failure cs = .ok (l, rest)) :
    ∃ name, l.kind = .tagEnd name := by
  unfold scanEndTag at h
  split at h
  · simp at h
  · split at h
    · simp at h
    · simp at h
    · split at h
      · simp at h
      · simp only [Except.ok.injEq, Prod.mk.injEq] at h
        obtain ⟨rfl, -⟩ := h
        exact ⟨_, rfl⟩

/-- The text of a value with its quotes. -/
theorem scanValue_quoted {mode : Mode} {failure : Option ReadFailure} {name : String}
    {before cs value quoted rest : List Char} {quote : Quote}
    (h : scanValue mode failure name before cs = .ok (value, quote, quoted, rest)) :
    (quote = .double ∧ quoted = '"' :: value ++ ['"']) ∨
      (quote = .single ∧ quoted = '\'' :: value ++ ['\'']) ∨
      (quote = .unquoted ∧ quoted = value) := by
  unfold scanValue at h
  split at h
  · split at h <;> simp at h
  · split at h
    · simp at h
    · simp at h
    · simp only [Except.ok.injEq, Prod.mk.injEq] at h
      obtain ⟨rfl, rfl, rfl, -⟩ := h
      exact .inl ⟨rfl, rfl⟩
  · split at h
    · simp at h
    · split at h
      · split at h
        · simp at h
        · simp at h
        · simp only [Except.ok.injEq, Prod.mk.injEq] at h
          obtain ⟨rfl, rfl, rfl, -⟩ := h
          exact .inr (.inl ⟨rfl, rfl⟩)
      · split at h
        · simp at h
        · simp only [Except.ok.injEq, Prod.mk.injEq] at h
          obtain ⟨rfl, rfl, rfl, -⟩ := h
          exact .inr (.inr ⟨rfl, rfl⟩)

theorem scanAttribute_spelled {mode : Mode} {failure : Option ReadFailure}
    {before leading cs rest : List Char} {l : Lexeme}
    (h : scanAttribute mode failure before leading cs = .ok (l, rest)) :
    l.Spelled ∧ ∃ le n o v q, l.kind = .attribute le n o v q := by
  unfold scanAttribute at h
  split at h
  · simp at h
  · simp at h
  · split at h
    · simp at h
    · split at h
      · simp at h
      · simp only at h
        split at h
        · simp at h
        next value quote quoted rest' hvalue =>
          simp only [Except.ok.injEq, Prod.mk.injEq] at h
          obtain ⟨rfl, -⟩ := h
          refine ⟨?_, _, _, _, _, _, rfl⟩
          intro s hs
          simp only [TokenKind.spelling?, Option.mem_def, Option.some.injEq] at hs
          rw [← hs, ← String.toList_inj]
          obtain ⟨rfl, rfl⟩ | ⟨rfl, rfl⟩ | ⟨rfl, rfl⟩ := scanValue_quoted hvalue <;>
            simp [Attribute.render]
    · simp only [Except.ok.injEq, Prod.mk.injEq] at h
      obtain ⟨rfl, -⟩ := h
      refine ⟨?_, _, _, _, _, _, rfl⟩
      intro s hs
      simp only [TokenKind.spelling?, Option.mem_def, Option.some.injEq] at hs
      rw [← hs, ← String.toList_inj]
      simp [Attribute.render]

/-- The lexemes of a start tag after its name. -/
theorem scanTagRest_spelled {mode : Mode} {failure : Option ReadFailure} {name : String}
    {before leading cs rest : List Char} {ls : List Lexeme} {u : Turn} (hu : u.inTag = true)
    (h : scanTagRest mode failure name before leading cs = .ok (ls, rest)) :
    (∀ l ∈ ls, l.Spelled) ∧ u.after? (ls.map Lexeme.kind) = some { u with inTag := false } := by
  replace h := scansTagRest_of_scanTagRest h
  induction h with
  | close selfClosing =>
    cases selfClosing <;>
      simp [Spelled, TokenKind.spelling?, Turn.next?, hu, String.append_assoc]
  | slash _ _ _ ih => exact ih
  | attr _ _ hattr _ ih =>
    obtain ⟨hl, le, n, o, v, q, hkind⟩ := scanAttribute_spelled hattr
    obtain ⟨hls, hturn⟩ := ih
    exact ⟨List.forall_mem_cons.mpr ⟨hl, hls⟩, by simp [hkind, Turn.next?, hu, hturn]⟩

theorem scanStartTag_spelled {mode : Mode} {failure : Option ReadFailure} {cs rest : List Char}
    {ls : List Lexeme} {u : Turn} (hu : u.inTag = false) (hcs : ['<'] <+: cs)
    (h : scanStartTag mode failure cs = .ok (ls, rest)) :
    (∀ l ∈ ls, l.Spelled) ∧ u.after? (ls.map Lexeme.kind) = some u := by
  obtain ⟨ds, rfl⟩ := hcs
  cases scansTag_of_scanStartTag h with
  | intro _ hparts =>
    obtain ⟨hls, hturn⟩ := scanTagRest_spelled (u := { u with inTag := true }) rfl hparts
    refine ⟨List.forall_mem_cons.mpr ⟨?_, hls⟩, ?_⟩
    · simp [Spelled, TokenKind.spelling?, ← String.toList_inj]
    · have hback : (⟨false, u.inBlock⟩ : Turn) = u := by rw [← hu]
      simp [Turn.next?, hu, hturn, hback]

/-- Which construct begins here is known from its opening mark. -/
theorem construct_mark {failure : Option ReadFailure} {cs : List Char} {k : Construct}
    (h : construct failure cs = .ok k) :
    match k with
    | .block => Mark.blockStart <+: cs
    | .parserComment => Mark.parserCommentStart <+: cs
    | .comment => Mark.commentStart <+: cs
    | .cdata => Mark.cdataStart <+: cs
    | .instruction => Mark.instructionStart <+: cs
    | .endTag => Mark.endTagStart <+: cs
    | .docType => Text.fold Mark.docTypeStart <+: Text.fold cs
    | .startTag => True := by
  unfold construct at h
  obtain ⟨hq, hk⟩ | ⟨-, h⟩ := Source.ask_eq_ok h
  · cases hk
    exact Source.lookingAt_eq_true hq
  obtain ⟨hq, hk⟩ | ⟨-, h⟩ := Source.ask_eq_ok h
  · cases hk
    exact Source.lookingAt_eq_true hq
  obtain ⟨hq, hk⟩ | ⟨-, h⟩ := Source.ask_eq_ok h
  · cases hk
    exact Source.lookingAt_eq_true hq
  obtain ⟨hq, hk⟩ | ⟨-, h⟩ := Source.ask_eq_ok h
  · cases hk
    exact Source.lookingAt_eq_true hq
  obtain ⟨hq, hk⟩ | ⟨-, h⟩ := Source.ask_eq_ok h
  · cases hk
    exact Source.lookingAtIgnoringCase_eq_true hq
  obtain ⟨hq, hk⟩ | ⟨-, h⟩ := Source.ask_eq_ok h
  · cases hk
    exact Source.lookingAt_eq_true hq
  obtain ⟨hq, hk⟩ | ⟨-, h⟩ := Source.ask_eq_ok h
  · cases hk
    exact Source.lookingAt_eq_true hq
  · cases h
    trivial

/-- A document type begins with the marks of a declaration, which have no case. -/
theorem declarationStart_of_docTypeStart {cs : List Char}
    (h : Text.fold Mark.docTypeStart <+: Text.fold cs) : Mark.declarationStart <+: cs := by
  match cs, h with
  | a :: b :: cs, h =>
    simp only [Text.fold, Mark.docTypeStart, List.map_cons, List.cons_prefix_cons] at h
    have ha : a = '<' := Text.eq_of_toLower_eq (by decide) (h.1.symm.trans (by decide))
    have hb : b = '!' := Text.eq_of_toLower_eq (by decide) (h.2.1.symm.trans (by decide))
    simp [Mark.declarationStart, ha, hb]
  | [_], h => simp [Text.fold, Mark.docTypeStart] at h
  | [], h => simp [Text.fold, Mark.docTypeStart] at h

theorem Construct.Delimits.isPrefix {k : Construct} {start stop cs : List Char}
    {cause : Malformation} {kind : String → TokenKind} (hk : k.Delimits start stop cause kind)
    {failure : Option ReadFailure} (h : construct failure cs = .ok k) : start <+: cs := by
  have hmark := construct_mark h
  cases hk with
  | docType => exact declarationStart_of_docTypeStart hmark
  | _ => exact hmark

theorem opensMarkup_mark {failure : Option ReadFailure} {cs : List Char}
    (h : opensMarkup failure cs = .ok true) : ['<'] <+: cs := by
  unfold opensMarkup at h
  cases hpeek : Source.peek failure 0 cs with
  | error f => simp [hpeek, bind, Except.bind] at h
  | ok c =>
    obtain rfl := Source.peek_eq_ok hpeek
    simp only [hpeek, bind, Except.bind, pure, Except.pure] at h
    split at h
    next hc => cases cs <;> simp_all
    · simp at h

/-- Whether lexemes are spelled as their kinds say and come in turn, where the prototype-only block
that is open before them is known. -/
def IsUnit (block : Option Location) (ls : List Lexeme) : Prop :=
  (∀ l ∈ ls, l.Spelled) ∧ ∀ p, (⟨false, block.isSome⟩ : Turn).after? (ls.map Lexeme.kind) =
    some ⟨false, (blockAfter block p ls).isSome⟩

/-- A construct that is one lexeme and neither a part of a tag nor the mark of a block. -/
theorem isUnit_singleton {block : Option Location} {l : Lexeme} (hl : l.Spelled)
    (hturn : ∀ u : Turn, u.inTag = false → u.next? l.kind = some u)
    (hstart : l.kind ≠ .blockStart) (hend : l.kind ≠ .blockEnd) : IsUnit block [l] := by
  refine ⟨by simpa using hl, fun p => ?_⟩
  have hafter : blockAfter block p [l] = block := by
    simp only [blockAfter, List.head?_cons, Option.map_some]
    split <;> simp_all
  simp [hturn, hafter]

theorem kind_of_scanDelimited {failure : Option ReadFailure} {start stop cs rest : List Char}
    {cause : Malformation} {kind : String → TokenKind} {l : Lexeme}
    (h : scanDelimited failure start stop cause kind cs = .ok (l, rest)) :
    ∃ content, l.kind = kind content := by
  unfold scanDelimited at h
  split at h
  · simp at h
  · simp at h
  · simp only [Except.ok.injEq, Prod.mk.injEq] at h
    obtain ⟨rfl, -⟩ := h
    exact ⟨_, rfl⟩

theorem isUnit_of_scanDelimited {block : Option Location} {failure : Option ReadFailure}
    {k : Construct} {start stop cs rest : List Char} {cause : Malformation}
    {kind : String → TokenKind} {l : Lexeme} (hk : k.Delimits start stop cause kind)
    (hconstruct : construct failure cs = .ok k)
    (h : scanDelimited failure start stop cause kind cs = .ok (l, rest)) : IsUnit block [l] := by
  obtain ⟨content, hl⟩ := kind_of_scanDelimited h
  have htake := List.prefix_iff_eq_take.mp (hk.isPrefix hconstruct)
  have hkind : ∀ s, (kind s).spelling? =
      some (String.ofList start ++ s ++ String.ofList stop) := by
    cases hk <;> exact fun _ => rfl
  refine isUnit_singleton (scanDelimited_spelled htake.symm hkind h) ?_ ?_ ?_
  · intro u hu
    rw [hl]
    cases hk <;> simp [Turn.next?, hu]
  · rw [hl]
    cases hk <;> simp
  · rw [hl]
    cases hk <;> simp

theorem isUnit_of_scanStartTag {mode : Mode} {failure : Option ReadFailure} {cs rest : List Char}
    {block : Option Location} {ls : List Lexeme} (hcs : ['<'] <+: cs)
    (h : scanStartTag mode failure cs = .ok (ls, rest)) : IsUnit block ls := by
  refine ⟨(scanStartTag_spelled (u := ⟨false, block.isSome⟩) rfl hcs h).1, fun p => ?_⟩
  rw [(scanStartTag_spelled rfl hcs h).2]
  cases scansTag_of_scanStartTag h with
  | intro => rfl

theorem isUnit_of_scanMarkup {mode : Mode} {failure : Option ReadFailure} {cs rest : List Char}
    {block : Option Location} {ls : List Lexeme} (hcs : ['<'] <+: cs)
    (h : scanMarkup mode failure block.isSome cs = .ok (ls, rest)) : IsUnit block ls := by
  cases scans_of_scanMarkup h with
  | blockStart hconstruct hblock =>
    have htake := List.prefix_iff_eq_take.mp (construct_mark hconstruct)
    refine ⟨?_, fun p => ?_⟩
    · rw [← htake]
      simp [Spelled, TokenKind.spelling?, Mark.blockStart, ← String.toList_inj]
    · simp [Turn.next?, blockAfter, hblock]
  | delimited hk hconstruct hscan => exact isUnit_of_scanDelimited hk hconstruct hscan
  | endTag _ hscan =>
    obtain ⟨name, hname⟩ := kind_of_scanEndTag hscan
    refine isUnit_singleton ?_ ?_ ?_ ?_
    · simp [Spelled, hname, TokenKind.spelling?]
    · exact fun u hu => by simp [hname, Turn.next?, hu]
    · simp [hname]
    · simp [hname]
  | startTag _ hscan => exact isUnit_of_scanStartTag hcs hscan

theorem isUnit_of_scanUnit {mode : Mode} {failure : Option ReadFailure} {cs rest : List Char}
    {block : Option Location} {ls : List Lexeme}
    (h : scanUnit mode failure block.isSome cs = .ok (ls, rest)) : IsUnit block ls := by
  cases steps_of_scanUnit h with
  | blockEnd hblock hmark =>
    have htake := List.prefix_iff_eq_take.mp (Source.lookingAt_eq_true hmark)
    refine ⟨?_, fun p => ?_⟩
    · rw [← htake]
      simp [Spelled, TokenKind.spelling?, Mark.blockEnd, ← String.toList_inj]
    · simp [Turn.next?, blockAfter, hblock]
  | markup hopens hscan => exact isUnit_of_scanMarkup (opensMarkup_mark hopens) hscan
  | text =>
    refine isUnit_singleton ?_ ?_ ?_ ?_
    · simp [Spelled, TokenKind.spelling?]
    · exact fun u hu => by simp [Turn.next?, hu]
    · simp
    · simp

/-! ## All lexemes -/

theorem locate_spelled {p : Position} {ls : List Lexeme} (h : ∀ l ∈ ls, l.Spelled) :
    ∀ t ∈ locate p ls, t.Spelled := by
  induction ls generalizing p with
  | nil => simp [locate]
  | cons l ls ih =>
    obtain ⟨hl, hls⟩ := List.forall_mem_cons.mp h
    rw [locate]
    exact List.forall_mem_cons.mpr ⟨hl, ih hls⟩

@[simp] theorem map_kind_locate (p : Position) (ls : List Lexeme) :
    (locate p ls).map Token.kind = ls.map Lexeme.kind := by
  induction ls generalizing p with
  | nil => rfl
  | cons l ls ih => simp [locate, ih]

@[simp] theorem rawText_locate (p : Position) (ls : List Lexeme) :
    Token.rawText (locate p ls) = String.ofList (rawText ls) := by
  induction ls generalizing p with
  | nil => rfl
  | cons l ls ih => simp [locate, ih, String.ofList_append]

end Lexeme

namespace Tokens

/-- Tokens that are spelled as their kinds say and come in turn and, if nothing went wrong, have the
text of what was read and leave nothing open. -/
structure Faithful (t : Tokens) (u : Turn) (cs : List Char) : Prop where
  spelled : ∀ k ∈ t.tokens, k.Spelled
  turn : ∃ v, u.after? (t.tokens.map Token.kind) = some v ∧ (t.error = none → v = {})
  text : t.error = none → Token.rawText t.tokens = String.ofList cs

theorem faithful_of_error (e : ParseError) (u : Turn) (cs : List Char) :
    Faithful ⟨[], some e⟩ u cs := by
  constructor <;> simp

theorem Faithful.prepend {t : Tokens} {u v : Turn} {cs ds : List Char} {ts : List Token}
    (h : t.Faithful v cs) (hts : ∀ k ∈ ts, k.Spelled)
    (hturn : u.after? (ts.map Token.kind) = some v) (htext : Token.rawText ts = String.ofList ds) :
    (t.prepend ts).Faithful u (ds ++ cs) := by
  obtain ⟨w, hw, hend⟩ := h.turn
  refine ⟨?_, ⟨w, ?_, hend⟩, ?_⟩
  · intro k hk
    exact (List.mem_append.mp hk).elim (hts k) (h.spelled k)
  · simp only [Tokens.prepend, List.map_append]
    rw [Turn.after?_append, hturn, Option.bind_some, hw]
  · intro hnone
    simp only [Tokens.prepend, Token.rawText_append]
    rw [htext, h.text hnone, String.ofList_append]

theorem read_faithful (mode : Mode) (failure : Option ReadFailure) (p : Position)
    (block : Option Location) (body : Option String) (cs : List Char) :
    (read mode failure p block body cs).Faithful ⟨false, block.isSome⟩ cs := by
  fun_induction read mode failure p block body cs with
  | case1 | case4 | case5 | case7 => exact faithful_of_error ..
  | case2 p block name cs text rest hrun after hempty ih =>
    have htext : text = [] := by simpa using hempty
    subst htext
    have happ := Lexeme.rawTextRun_append hrun
    rw [← happ, List.nil_append]
    exact ih
  | case3 p block name cs text rest hrun after hempty ih =>
    rw [← Lexeme.rawTextRun_append hrun]
    refine ih.prepend ?_ ?_ ?_
    · simp [Token.Spelled, Token.text, TokenKind.spelling?]
    · simp [Token.text, Turn.next?]
    · simp [Token.text]
  | case6 p =>
    constructor
    · simp [Token.Spelled, TokenKind.spelling?]
    · simp [Turn.next?]
    · simp
  | case8 p block c cs ls rest hunit ih =>
    obtain ⟨hspelled, hturn⟩ := Lexeme.isUnit_of_scanUnit hunit
    rw [← Lexeme.scanUnit_append hunit]
    refine ih.prepend (Lexeme.locate_spelled hspelled) ?_ (Lexeme.rawText_locate p ls)
    rw [Lexeme.map_kind_locate]
    exact hturn p.location

end Tokens

/-- The tokens of a source are spelled as their kinds say and come in turn; if nothing went wrong,
their texts make up the source. -/
theorem tokenize_faithful (mode : Mode) (s : Source) :
    (tokenize mode s).Faithful {} s.chars := by
  show (tokenize mode s).Faithful {} ([] ++ s.chars)
  refine (Tokens.read_faithful ..).prepend ?_ ?_ ?_
  · simp [Token.Spelled, TokenKind.spelling?]
  · simp [Turn.next?]
  · simp

end NaturalTemplate.Markup
