import NaturalTemplate.Proofs.Markup.Building
import NaturalTemplate.Proofs.Source.Delivery

/-!
# Token streams in pieces

A stream of tokens falls into pieces: start tags as they were read, each as a whole, and single
tokens of the other kinds. The filter hands on whole pieces or nothing of them, and leaves no two
texts side by side; so the tree of any document that was parsed is built from such a stream.
-/
namespace NaturalTemplate.Markup
open Lexeme

/-- The name in the text of an end tag. -/
def endTagName (raw : String) : String :=
  String.ofList ((raw.toList.drop 2).takeWhile isTagNameChar)

/-- Whether a text is an end tag with a name: behind the name comes nothing that could go on with
it, and nothing that could end the tag before its last character does. -/
def IsEndTagOf (name raw : String) : Prop :=
  ∃ content : String, raw = "</" ++ name ++ content ++ ">" ∧ '>' ∉ content.toList ∧
    ∀ c ∈ content.toList.head?, isTagNameChar c = false

def TokenKind.isTagPart : TokenKind → Bool
  | .tagStart _ | .attribute .. | .tagStartEnd .. => true
  | _ => false

/-- Whether a token is a piece of its own: it is no part of a start tag and no end of a document, a
text is not empty, and an end tag is written as one with its name. -/
def TokenKind.IsPiece (raw : String) : TokenKind → Prop
  | .documentStart | .documentEnd | .tagStart _ | .attribute .. | .tagStartEnd .. => False
  | .tagEnd name => name = endTagName raw ∧ IsEndTagOf name raw
  | .text content => content ≠ ""
  | _ => True

def Token.IsPiece (t : Token) : Prop := t.kind.IsPiece t.raw

/-- Whether reading comes upon this start tag where it stands at the right place. -/
structure Tag.IsRead (mode : Mode) (tag : Tag) : Prop where
  name : IsTagName tag.name
  scan : ∃ rest, scanStartTag mode none (rawText tag.lexemes ++ rest) = .ok (tag.lexemes, rest)

inductive Pieces (mode : Mode) : List Token → Prop where
  | nil : Pieces mode []
  | single {t : Token} {ts : List Token} (ht : t.IsPiece) (h : Pieces mode ts) :
      Pieces mode (t :: ts)
  | tag {tag : Tag} (htag : tag.IsRead mode) (p : Position) {ts : List Token}
      (h : Pieces mode ts) : Pieces mode (locate p tag.lexemes ++ ts)

theorem Pieces.append {mode : Mode} {ts us : List Token} (hts : Pieces mode ts)
    (hus : Pieces mode us) : Pieces mode (ts ++ us) := by
  induction hts with
  | nil => exact hus
  | single ht _ ih => exact .single ht ih
  | tag htag p _ ih =>
    rw [List.append_assoc]
    exact .tag htag p ih

/-! ## Reading -/

namespace Lexeme

theorem isTagPart_lexemes {tag : Tag} {l : Lexeme} (h : l ∈ tag.lexemes) :
    l.kind.isTagPart = true := by
  simp only [Tag.lexemes, Tag.partLexemes, List.mem_cons, List.mem_append, List.mem_map,
    List.not_mem_nil, or_false] at h
  obtain rfl | ⟨a, -, rfl⟩ | rfl := h <;> rfl

theorem isTagPart_locate {tag : Tag} {p : Position} {t : Token}
    (h : t ∈ locate p tag.lexemes) : t.kind.isTagPart = true := by
  have hmem : t.kind ∈ tag.lexemes.map Lexeme.kind := by
    rw [← map_kind_locate p]
    exact List.mem_map_of_mem h
  obtain ⟨l, hl, hkind⟩ := List.mem_map.mp hmem
  rw [← hkind]
  exact isTagPart_lexemes hl

/-- A lexeme of a known kind is known from its spelling. -/
theorem eq_of_spelled {l : Lexeme} {k : TokenKind} {s : String} (hl : l.Spelled) (hk : l.kind = k)
    (hs : k.spelling? = some s) : l = ⟨k, s.toList⟩ := by
  obtain ⟨kind, raw⟩ := l
  obtain rfl : kind = k := hk
  have hraw : String.ofList raw = s := hl s (by simp [hs])
  rw [← hraw, String.toList_ofList]

theorem exists_of_scanTagRest {mode : Mode} {failure : Option ReadFailure} {name : String}
    {before leading cs rest : List Char} {ls : List Lexeme}
    (h : scanTagRest mode failure name before leading cs = .ok (ls, rest)) :
    ∃ attributes trailing selfClosing, ls = Tag.partLexemes attributes trailing selfClosing := by
  replace h := scansTagRest_of_scanTagRest h
  induction h with
  | @close _ leading _ space _ selfClosing =>
    exact ⟨[], String.ofList (leading ++ space), selfClosing,
      by simp [Tag.partLexemes, Tag.closing]⟩
  | slash _ _ _ ih => exact ih
  | attr _ _ hattr _ ih =>
    obtain ⟨hl, le, n, o, v, q, hkind⟩ := scanAttribute_spelled hattr
    obtain ⟨attributes, trailing, selfClosing, rfl⟩ := ih
    refine ⟨⟨le, n, o, v, q, {}⟩ :: attributes, trailing, selfClosing, ?_⟩
    rw [eq_of_spelled hl hkind rfl]
    rfl

/-- What is read as a start tag is one. -/
theorem exists_of_scanStartTag {mode : Mode} {cs rest : List Char} {ls : List Lexeme}
    (hopens : opensMarkup none cs = .ok true) (hstart : construct none cs = .ok .startTag)
    (h : scanStartTag mode none cs = .ok (ls, rest)) :
    ∃ tag : Tag, tag.IsRead mode ∧ ls = tag.lexemes := by
  obtain ⟨c, ds, rfl, hc⟩ := exists_of_startTag hopens hstart
  have happend := scanStartTag_append h
  have hscan := h
  cases scansTag_of_scanStartTag h with
  | @intro name _ _ _ hname hparts =>
    obtain ⟨attributes, trailing, selfClosing, rfl⟩ := exists_of_scanTagRest hparts
    obtain rfl : name = (c :: ds).takeWhile isTagNameChar := (Source.readWhile_eq_ok hname).1
    let tag : Tag :=
      ⟨String.ofList ((c :: ds).takeWhile isTagNameChar), attributes, trailing, selfClosing, {}⟩
    have hlexemes : (⟨.tagStart tag.name, ('<' :: c :: ds).take 1 ++
        (c :: ds).takeWhile isTagNameChar⟩ : Lexeme) ::
          Tag.partLexemes attributes trailing selfClosing = tag.lexemes := by
      simp [tag, Tag.lexemes]
    rw [hlexemes] at happend hscan ⊢
    rw [← happend] at hscan
    exact ⟨tag, ⟨isTagName_takeWhile ds hc, _, hscan⟩, rfl⟩

/-- A run ends in what is cut off with a mark that is not of it. -/
theorem exists_cons_of_splitAt? {p : Char → Bool} {c : Char} (hc : p c = false)
    {cs before after : List Char} (h : Text.splitAt? [c] (cs.dropWhile p) = some (before, after)) :
    ∃ d ds, before ++ [c] = d :: ds ∧ p d = false := by
  cases before with
  | nil => exact ⟨c, [], rfl, hc⟩
  | cons d before =>
    have hdrop := Text.splitAt?_eq_some h
    have hhead := List.head?_dropWhile_not p cs
    exact ⟨d, before ++ [c], rfl, by simpa [hdrop] using hhead⟩

/-- A run goes no further in what is cut off behind a mark that is not of it. -/
theorem takeWhile_of_splitAt? {p : Char → Bool} {c : Char} (hc : p c = false)
    {cs before after : List Char} (h : Text.splitAt? [c] (cs.dropWhile p) = some (before, after)) :
    (cs.takeWhile p ++ (before ++ [c])).takeWhile p = cs.takeWhile p := by
  have hrun : ∀ d ∈ cs.takeWhile p, p d = true := List.all_eq_true.mp List.all_takeWhile
  obtain ⟨d, ds, hds, hd⟩ := exists_cons_of_splitAt? hc h
  rw [hds]
  exact (Source.takeWhile_run hrun hd ds).1

theorem isPiece_of_scanEndTag {mode : Mode} {cs rest : List Char} {l : Lexeme}
    (hend : construct none cs = .ok .endTag) (h : scanEndTag mode none cs = .ok (l, rest)) :
    l.kind.IsPiece (String.ofList l.raw) := by
  obtain ⟨ds, rfl⟩ := construct_mark hend
  unfold scanEndTag at h
  simp only [Source.readWhile_none, Source.readUntil_none, Mark.endTagStart, List.cons_append,
    List.nil_append, List.drop_succ_cons, List.drop_zero] at h
  split at h
  · simp at h
  · simp at h
  · next content rest' hfind =>
    split at h
    · simp at h
    · simp only [Except.ok.injEq, Prod.mk.injEq] at h hfind
      obtain ⟨rfl, -⟩ := h
      have hname := takeWhile_of_splitAt? (by decide : isTagNameChar '>' = false) hfind
      refine ⟨by simp [endTagName, Mark.tagEnd, hname], String.ofList content, ?_, ?_, ?_⟩
      · apply String.toList_injective
        simp [Mark.tagEnd]
      · simpa using Text.not_mem_of_splitAt? hfind
      · intro c hc
        rw [String.toList_ofList] at hc
        have hhead := List.head?_dropWhile_not isTagNameChar ds
        rw [Text.splitAt?_eq_some hfind, List.append_assoc, List.head?_append, hc] at hhead
        simpa using hhead

/-- A construct is a piece. -/
theorem exists_of_scanUnit {mode : Mode} {inBlock : Bool} {c : Char} {cs rest : List Char}
    {ls : List Lexeme} (h : scanUnit mode none inBlock (c :: cs) = .ok (ls, rest)) :
    (∃ l, ls = [l] ∧ l.kind.IsPiece (String.ofList l.raw)) ∨
      ∃ tag : Tag, tag.IsRead mode ∧ ls = tag.lexemes := by
  cases steps_of_scanUnit h with
  | blockEnd => exact .inl ⟨_, rfl, trivial⟩
  | markup hopens hscan =>
    cases scans_of_scanMarkup hscan with
    | blockStart => exact .inl ⟨_, rfl, trivial⟩
    | delimited hk _ hscan =>
      obtain ⟨content, hl⟩ := kind_of_scanDelimited hscan
      refine .inl ⟨_, rfl, ?_⟩
      rw [hl]
      cases hk <;> trivial
    | endTag hend hscan => exact .inl ⟨_, rfl, isPiece_of_scanEndTag hend hscan⟩
    | startTag hstart hscan => exact .inr (exists_of_scanStartTag hopens hstart hscan)
  | text => exact .inl ⟨_, rfl, by simp [TokenKind.IsPiece]⟩

end Lexeme

/-- The tokens of a source that could be read to its end, but for those that say where it begins
and ends. -/
theorem Tokens.pieces_of_read {mode : Mode} {p : Position} {block : Option Location}
    {body : Option String} {cs : List Char}
    (h : (read mode none p block body cs).error = none) :
    ∃ ts l, (read mode none p block body cs).tokens = ts ++ [⟨.documentEnd, "", l⟩] ∧
      Pieces mode ts := by
  fun_induction read mode none p block body cs with
  | case1 | case4 | case5 | case7 => simp at h
  | case2 p block name cs text rest hrun after hempty ih => exact ih h
  | case3 p block name cs text rest hrun after hempty ih =>
    obtain ⟨ts, l, hts, hpieces⟩ := ih h
    refine ⟨.text (String.ofList text) p.location :: ts, l, ?_, .single ?_ hpieces⟩
    · rw [prepend, hts]
      rfl
    · simpa [Token.IsPiece, Token.text, TokenKind.IsPiece] using hempty
  | case6 p => exact ⟨[], p.location, rfl, .nil⟩
  | case8 p block c cs ls rest hunit ih =>
    obtain ⟨ts, l, hts, hpieces⟩ := ih h
    refine ⟨locate p ls ++ ts, l, ?_, ?_⟩
    · rw [prepend, hts, List.append_assoc]
    · obtain ⟨l, rfl, hl⟩ | ⟨tag, htag, rfl⟩ := exists_of_scanUnit hunit
      · exact .single hl hpieces
      · exact .tag htag p hpieces

/-! ## The filter -/

namespace Filter

/-- A sequence of tokens that passes through a filter, with the filters before and after it and all
that comes out. -/
inductive Feeds : Filter → List Token → Filter → List Token → Prop where
  | nil (f : Filter) : Feeds f [] f []
  | cons {f f₁ f' : Filter} {t : Token} {ts out outs : List Token} (h : f.feed t = .ok (f₁, out))
      (hs : Feeds f₁ ts f' outs) : Feeds f (t :: ts) f' (out ++ outs)

theorem exists_of_buildFiltered {f f' : Filter} {b b' : Builder} {ts : List Token}
    (h : buildFiltered f b ts = .ok (f', b')) :
    ∃ out, Feeds f ts f' out ∧ b.handleAll out = .ok b' := by
  induction ts generalizing f b with
  | nil =>
    simp only [buildFiltered, Except.ok.injEq, Prod.mk.injEq] at h
    obtain ⟨rfl, rfl⟩ := h
    exact ⟨[], .nil f, rfl⟩
  | cons t ts ih =>
    unfold buildFiltered at h
    split at h
    · simp at h
    · next f₁ out hfeed =>
      split at h
      · simp at h
      · next b₁ hhandle =>
        obtain ⟨outs, hfeeds, hb'⟩ := ih h
        refine ⟨out ++ outs, .cons hfeed hfeeds, ?_⟩
        rw [Builder.handleAll_append, hhandle]
        exact hb'

theorem Feeds.exists_of_append {f f' : Filter} {ts us out : List Token}
    (h : Feeds f (ts ++ us) f' out) :
    ∃ f₁ out₁ out₂, Feeds f ts f₁ out₁ ∧ Feeds f₁ us f' out₂ ∧ out = out₁ ++ out₂ := by
  induction ts generalizing f out with
  | nil => exact ⟨f, [], out, .nil f, h, rfl⟩
  | cons t ts ih =>
    cases h with
    | cons hfeed hs =>
      obtain ⟨f₁, out₁, out₂, h₁, h₂, rfl⟩ := ih hs
      exact ⟨f₁, _, out₂, .cons hfeed h₁, h₂, (List.append_assoc ..).symm⟩

/-- The tokens that come out of a filter are written as their kinds say, and none is for the parser
only. -/
theorem Feeds.writable {f f' : Filter} {ts out : List Token} {u v : Turn} (h : Feeds f ts f' out)
    (hf : f.Sound u) (hts : ∀ t ∈ ts, t.Spelled)
    (hturn : u.after? (ts.map Token.kind) = some v) :
    f'.Sound v ∧ ∀ t ∈ out, t.Writable := by
  induction h generalizing u with
  | nil f =>
    obtain rfl := Option.some.inj hturn
    exact ⟨hf, by simp⟩
  | cons hfeed _ ih =>
    obtain ⟨ht, hts⟩ := List.forall_mem_cons.mp hts
    obtain ⟨w, hw, hturn⟩ := Option.bind_eq_some_iff.mp hturn
    obtain ⟨-, hf₁, hout, -⟩ := feed_sound hf ht hw hfeed
    obtain ⟨hf', houts⟩ := ih hf₁ hts hturn
    exact ⟨hf', fun t ht => (List.mem_append.mp ht).elim (hout t) (houts t)⟩

/-- Whether the filter stands in a block that becomes one comment. -/
def IsFolding (f : Filter) : Prop := f.comments = .keep ∧ f.fold.isSome = true

theorem eq_or_comment_of_stages {policy : CommentPolicy} {fold : Option Fold} {t k : Token}
    (h : (feedBlock policy fold t).2.bind (feedComment policy) = some k) :
    k = t ∨ t.isParserOnly = true ∧ ∃ kind content, k.kind = .comment kind content := by
  obtain ⟨k₁, hblock, hcomment⟩ := Option.bind_eq_some_iff.mp h
  have hcomment' : k = k₁ ∨ k₁.kind.isParserComment = true ∧
      ∃ kind content, k.kind = .comment kind content := by
    by_cases hparser : k₁.kind.isParserComment = true
    · obtain ⟨content, hkind⟩ := TokenKind.eq_of_isParserComment hparser
      cases policy with
      | discard => simp [feedComment, hkind] at hcomment
      | keep =>
        obtain rfl : _ = k := by simpa [feedComment, hkind] using hcomment
        exact .inr ⟨hparser, _, _, rfl⟩
    · rw [feedComment_of_not (by simpa using hparser), Option.some.injEq] at hcomment
      exact .inl hcomment.symm
  have hblock' : k₁ = t ∨ t.kind.isBlockMark = true ∧
      ∃ kind content, k₁.kind = .comment kind content := by
    unfold feedBlock at hblock
    split at hblock
    · simp at hblock
    · simp at hblock
    · exact .inl (Option.some.inj hblock).symm
    · simp at hblock
    · next hend =>
      obtain rfl := Option.some.inj hblock
      exact .inr ⟨by simp [hend, TokenKind.isBlockMark], _, _, rfl⟩
    · simp at hblock
    · exact .inl (Option.some.inj hblock).symm
  obtain rfl | ⟨hmark, kind, content, hk₁⟩ := hblock'
  · obtain rfl | ⟨hparser, hk⟩ := hcomment'
    · exact .inl rfl
    · exact .inr ⟨by simp [Token.isParserOnly, hparser], hk⟩
  · refine .inr ⟨by simp [Token.isParserOnly, hmark], ?_⟩
    obtain rfl | ⟨-, hk⟩ := hcomment'
    · exact ⟨kind, content, hk₁⟩
    · exact hk

theorem feed_eq_ok {f f' : Filter} {t : Token} {out : List Token} (h : f.feed t = .ok (f', out)) :
    f'.comments = f.comments ∧ f'.fold = (feedBlock f.comments f.fold t).1 ∧
      (f'.held, out) =
        match (feedBlock f.comments f.fold t).2.bind (feedComment f.comments) with
        | none => (f.held, [])
        | some k => feedText f.held k := by
  unfold feed at h
  cases hstages : (feedBlock f.comments f.fold t).2.bind (feedComment f.comments) with
  | none =>
    simp only [hstages, Except.ok.injEq, Prod.mk.injEq] at h
    obtain ⟨rfl, rfl⟩ := h
    exact ⟨rfl, rfl, rfl⟩
  | some k =>
    simp only [hstages] at h
    split at h
    · simp only [Except.ok.injEq, Prod.mk.injEq] at h
      obtain ⟨rfl, rfl⟩ := h
      exact ⟨rfl, rfl, rfl⟩
    · split at h
      · simp at h
      · simp only [Except.ok.injEq, Prod.mk.injEq] at h
        obtain ⟨rfl, rfl⟩ := h
        exact ⟨rfl, rfl, rfl⟩

/-- A token is dropped or folded, or is text that is held back, or comes out, as a comment if it is
for the parser only, behind all text that was held back. -/
theorem feed_cases {f f' : Filter} {t : Token} {out : List Token} (h : f.feed t = .ok (f', out)) :
    (out = [] ∧ f'.held = f.held) ∨
      (∃ content, t.kind = .text content ∧ out = [] ∧
        f'.held = some (Held.more f.held content t)) ∨
      ∃ k, (k = t ∨ t.isParserOnly = true ∧ ∃ kind content, k.kind = .comment kind content) ∧
        k.isText = false ∧ out = Held.tokens f.held ++ [k] ∧ f'.held = none := by
  obtain ⟨-, -, hout⟩ := feed_eq_ok h
  split at hout
  · exact .inl (Prod.mk.inj hout).symm
  · next k hk =>
    refine .inr ?_
    have horigin := eq_or_comment_of_stages hk
    by_cases htext : k.isText = true
    · obtain ⟨content, hkind⟩ := Token.exists_of_isText htext
      obtain rfl | ⟨-, kind, content', hcomment⟩ := horigin
      · rw [feedText_text f.held hkind, Prod.mk.injEq] at hout
        exact .inl ⟨content, hkind, hout.2, hout.1⟩
      · rw [hcomment] at hkind
        contradiction
    · rw [Bool.not_eq_true] at htext
      rw [feedText_of_not f.held htext, Prod.mk.injEq] at hout
      exact .inr ⟨k, horigin, htext, hout.symm⟩

/-- A part of a start tag is folded, or comes out. -/
theorem feed_tagPart {f f' : Filter} {t : Token} {out : List Token}
    (ht : t.kind.isTagPart = true) (h : f.feed t = .ok (f', out)) :
    (f.IsFolding ∧ f'.IsFolding ∧ out = [] ∧ f'.held = f.held) ∨
      (¬ f.IsFolding ∧ ¬ f'.IsFolding ∧ out = Held.tokens f.held ++ [t] ∧ f'.held = none) := by
  have hmark : t.kind.isBlockMark = false := by
    cases hk : t.kind <;> simp_all [TokenKind.isTagPart, TokenKind.isBlockMark]
  have hparser : t.kind.isParserComment = false := by
    cases hk : t.kind <;> simp_all [TokenKind.isTagPart, TokenKind.isParserComment]
  have htext : t.isText = false := by
    cases hk : t.kind <;> simp_all [TokenKind.isTagPart, Token.isText]
  obtain ⟨hcomments, hfold, hout⟩ := feed_eq_ok h
  unfold IsFolding
  rw [hcomments, hfold]
  by_cases hfolding : f.comments = .keep ∧ f.fold.isSome = true
  · obtain ⟨hkeep, hsome⟩ := hfolding
    obtain ⟨o, ho⟩ := Option.isSome_iff_exists.mp hsome
    have hend : t.kind ≠ .blockEnd := by
      intro hk
      simp [hk, TokenKind.isBlockMark] at hmark
    rw [hkeep, ho, feedBlock_keep_some o hend] at hout ⊢
    exact .inl ⟨by simp, by simp, (Prod.mk.inj hout).2, (Prod.mk.inj hout).1⟩
  · have hblock : feedBlock f.comments f.fold t = (f.fold, some t) := by
      cases hpolicy : f.comments with
      | discard => simp [feedBlock_discard, hmark]
      | keep =>
        obtain hnone : f.fold = none := by simpa [hpolicy] using hfolding
        have hstart : t.kind ≠ .blockStart := by
          intro hk
          simp [hk, TokenKind.isBlockMark] at hmark
        rw [hnone, feedBlock_keep_none hstart]
    rw [hblock] at hout ⊢
    simp only [Option.bind_some, feedComment_of_not hparser] at hout
    rw [feedText_of_not f.held htext, Prod.mk.injEq] at hout
    exact .inr ⟨hfolding, hfolding, hout.2, hout.1⟩

/-- A start tag is folded as a whole, or comes out as a whole. -/
theorem Feeds.cases_of_tagParts {f f' : Filter} {ts out : List Token} (h : Feeds f ts f' out)
    (hts : ∀ t ∈ ts, t.kind.isTagPart = true) (hne : ts ≠ []) :
    (out = [] ∧ f'.held = f.held) ∨ (out = Held.tokens f.held ++ ts ∧ f'.held = none) := by
  suffices hall : (f.IsFolding → out = [] ∧ f'.held = f.held) ∧
      (¬ f.IsFolding → out = (if ts = [] then [] else Held.tokens f.held ++ ts) ∧
        f'.held = if ts = [] then f.held else none) by
    by_cases hfolding : f.IsFolding
    · exact .inl (hall.1 hfolding)
    · exact .inr (by simpa [hne] using hall.2 hfolding)
  clear hne
  induction h with
  | nil f => simp
  | @cons f f₁ f' t ts out outs hfeed hs ih =>
    obtain ⟨ht, hts⟩ := List.forall_mem_cons.mp hts
    obtain ⟨hin, hout⟩ := ih hts
    obtain ⟨hf, hf₁, rfl, hheld⟩ | ⟨hf, hf₁, rfl, hheld⟩ := feed_tagPart ht hfeed
    · obtain ⟨rfl, hheld'⟩ := hin hf₁
      exact ⟨fun _ => ⟨rfl, hheld'.trans hheld⟩, fun hnot => absurd hf hnot⟩
    · obtain ⟨rfl, hheld'⟩ := hout hf₁
      refine ⟨fun hfolding => absurd hfolding hf, fun _ => ?_⟩
      rw [hheld', hheld]
      by_cases hnil : ts = [] <;> simp [hnil, Held.tokens]

/-- Whether text that is held back is not empty. -/
def HeldNonempty (f : Filter) : Prop := ∀ h ∈ f.held, h.content ≠ ""

theorem pieces_tokens {mode : Mode} {f : Filter} (hf : f.HeldNonempty) :
    Pieces mode (Held.tokens f.held) := by
  unfold HeldNonempty at hf
  cases hheld : f.held with
  | none => exact .nil
  | some h => exact .single (hf h hheld) .nil

/-- What comes out of a filter falls into pieces where this is so of what goes in. -/
theorem Feeds.pieces {mode : Mode} {f f' : Filter} {ts out : List Token} (h : Feeds f ts f' out)
    (hf : f.HeldNonempty) (hts : Pieces mode ts) : Pieces mode out ∧ f'.HeldNonempty := by
  induction hts generalizing f out with
  | nil =>
    cases h
    exact ⟨.nil, hf⟩
  | @single t ts ht _ ih =>
    cases h with
    | cons hfeed hs =>
      obtain ⟨rfl, hheld⟩ | ⟨content, hkind, rfl, hheld⟩ | ⟨k, hk, htext, rfl, hheld⟩ :=
        feed_cases hfeed
      · exact ih hs (by rwa [HeldNonempty, hheld])
      · refine ih hs ?_
        have hcontent : content ≠ "" := by
          unfold Token.IsPiece at ht
          rwa [hkind] at ht
        unfold HeldNonempty at hf ⊢
        rw [hheld]
        cases hprevious : f.held <;> simp_all [Held.more]
      · obtain ⟨hrest, hf'⟩ := ih hs (by simp [HeldNonempty, hheld])
        refine ⟨((pieces_tokens hf).append (.single ?_ .nil)).append hrest, hf'⟩
        obtain rfl | ⟨-, kind, content, hcomment⟩ := hk
        · exact ht
        · rw [Token.IsPiece, hcomment]
          trivial
  | @tag tag htag p ts _ ih =>
    obtain ⟨f₁, out₁, out₂, h₁, h₂, rfl⟩ := h.exists_of_append
    obtain ⟨rfl, hheld⟩ | ⟨rfl, hheld⟩ :=
      h₁.cases_of_tagParts (fun t => isTagPart_locate) (by simp [Tag.lexemes, locate])
    · exact ih h₂ (by rwa [HeldNonempty, hheld])
    · obtain ⟨hrest, hf'⟩ := ih h₂ (by simp [HeldNonempty, hheld])
      refine ⟨?_, hf'⟩
      rw [List.append_assoc]
      exact (pieces_tokens hf).append (.tag htag p hrest)

/-- Whether two tokens may stand side by side: they are not both texts. -/
def Apart (t k : Token) : Prop := t.isText = false ∨ k.isText = false

/-- What comes out of a filter has no two texts side by side and does not end with one. -/
theorem Feeds.isChain {f f' : Filter} {ts out : List Token} (h : Feeds f ts f' out) :
    out.IsChain Apart ∧ ∀ t ∈ out.getLast?, t.isText = false := by
  induction h with
  | nil f => simp
  | @cons f f₁ f' t ts out outs hfeed hs ih =>
    obtain ⟨hchain, hlast⟩ := ih
    have hout : out.IsChain Apart ∧ ∀ t ∈ out.getLast?, t.isText = false := by
      obtain ⟨rfl, -⟩ | ⟨-, -, rfl, -⟩ | ⟨k, -, hk, rfl, -⟩ := feed_cases hfeed
      · simp
      · simp
      · cases f.held <;> simp [Held.tokens, Apart, hk]
    refine ⟨List.isChain_append.mpr ⟨hout.1, hchain, fun t ht _ _ => .inl (hout.2 t ht)⟩, ?_⟩
    intro t ht
    rw [List.getLast?_append] at ht
    obtain ht | ht := Option.or_eq_some_iff.mp ht
    · exact hlast t ht
    · exact hout.2 t ht.2

theorem finish_eq_ok {f : Filter} {ts : List Token} (h : f.finish = .ok ts) :
    ts = Held.tokens f.held := by
  unfold finish at h
  split at h
  · simp at h
  · split at h
    · exact (Except.ok.inj h).symm
    · next b _ =>
      cases hfeed : b.feedAll (f.held.map Held.toToken).toList with
      | error e => simp [hfeed, Except.map] at h
      | ok b' =>
        simp only [hfeed, Except.map, Except.ok.injEq] at h
        exact h.symm

/-- The end of the document only lets go of the text that was held back. -/
theorem Feeds.handleAll_documentEnd {f f' : Filter} {l : Location} {out : List Token}
    (h : Feeds f [⟨.documentEnd, "", l⟩] f' out) (b : Builder) :
    b.handleAll (out ++ Held.tokens f'.held) = b.handleAll (Held.tokens f.held) := by
  cases h with
  | cons hfeed hs =>
    cases hs
    obtain ⟨rfl, hheld⟩ | ⟨content, hkind, -⟩ | ⟨k, hk, -, rfl, hheld⟩ := feed_cases hfeed
    · simp [hheld]
    · contradiction
    · obtain rfl | ⟨honly, -⟩ := hk
      · have hnone : Held.tokens f'.held = [] := by rw [hheld]; rfl
        rw [hnone, List.append_nil, List.append_nil, Builder.handleAll_append]
        cases b.handleAll (Held.tokens f.held) <;> rfl
      · contradiction

theorem handleAll_documentStart {f f' : Filter} {l : Location} {out : List Token}
    (hf : f.held = none) (h : f.feed ⟨.documentStart, "", l⟩ = .ok (f', out)) (b : Builder) :
    b.handleAll out = .ok b ∧ f'.held = none := by
  obtain ⟨rfl, hheld⟩ | ⟨content, hkind, -⟩ | ⟨k, hk, -, rfl, hheld⟩ := feed_cases h
  · exact ⟨rfl, hheld.trans hf⟩
  · contradiction
  · obtain rfl | ⟨honly, -⟩ := hk
    · rw [hf]
      exact ⟨rfl, hheld⟩
    · contradiction

/-- Text that is held back may come behind all that came out. -/
theorem Feeds.isChain_tokens {f f' : Filter} {ts out : List Token} (h : Feeds f ts f' out) :
    (out ++ Held.tokens f'.held).IsChain Apart := by
  obtain ⟨hchain, hlast⟩ := h.isChain
  refine List.isChain_append.mpr ⟨hchain, ?_, fun t ht _ _ => .inl (hlast t ht)⟩
  cases f'.held <;> simp [Held.tokens]

end Filter

/-! ## The builder -/

theorem Tag.lexemes_of_unplaced {t u : Tag} (h : t.unplaced = u.unplaced) :
    t.lexemes = u.lexemes := by
  have hforget (v : Tag) : v.unplaced.lexemes = v.lexemes := by
    simp only [Tag.lexemes, Tag.partLexemes, Tag.unplaced, List.map_map]
    rfl
  rw [← hforget t, h, hforget u]

theorem Tag.IsRead.of_unplaced {mode : Mode} {t u : Tag} (ht : t.IsRead mode)
    (h : u.unplaced = t.unplaced) : u.IsRead mode := by
  obtain ⟨hname, hscan⟩ := ht
  have hnames : u.name = t.name := by
    change u.unplaced.name = t.unplaced.name
    rw [h]
  exact ⟨hnames ▸ hname, by rwa [Tag.lexemes_of_unplaced h]⟩

namespace Builder

theorem handle_tagStartEnd {b : Builder} (hb : b.starting = none) (tag : Tag) (trailing : String)
    (selfClosing : Bool) (raw : String) (l : Location) :
    { b with starting := some tag }.handle ⟨.tagStartEnd trailing selfClosing, raw, l⟩ =
      .ok (b.enter { tag with trailing, selfClosing }) := by
  obtain ⟨mode, roots, opened, starting⟩ := b
  obtain rfl : starting = none := hb
  by_cases hvoid : selfClosing || isVoid tag.name <;> simp [handle, enter, hvoid]

theorem handleAll_parts {b : Builder} (hb : b.starting = none) (attributes : List Attribute)
    (tag : Tag) (trailing : String) (selfClosing : Bool) (p : Position) :
    ∃ placed, placed.map Attribute.unplaced = attributes.map Attribute.unplaced ∧
      { b with starting := some tag }.handleAll
          (locate p (Tag.partLexemes attributes trailing selfClosing)) =
        .ok (b.enter { tag with
          attributes := tag.attributes ++ placed, trailing, selfClosing }) := by
  induction attributes generalizing tag p with
  | nil =>
    refine ⟨[], rfl, ?_⟩
    simp only [Tag.partLexemes, List.map_nil, List.nil_append, locate, handleAll,
      handle_tagStartEnd hb, List.append_nil]
  | cons a attributes ih =>
    let placedHead : Attribute := { a with location := (p.advanceBy a.lexeme.lead).location }
    obtain ⟨placed, hplaced, hbuild⟩ := ih
      { tag with attributes := tag.attributes ++ [placedHead] } (p.advanceBy a.lexeme.raw)
    refine ⟨placedHead :: placed, ?_, ?_⟩
    · simp only [List.map_cons, hplaced]
      rfl
    · rw [List.append_cons, ← hbuild]
      rfl

/-- A start tag is taken as a whole. -/
theorem handleAll_tag {b : Builder} (hb : b.starting = none) (tag : Tag) (p : Position) :
    ∃ placed : Tag, placed.unplaced = tag.unplaced ∧
      b.handleAll (locate p tag.lexemes) = .ok (b.enter placed) := by
  obtain ⟨placed, hplaced, hbuild⟩ := handleAll_parts hb tag.attributes
    { name := tag.name, location := (p.advanceBy []).location } tag.trailing tag.selfClosing
    (p.advanceBy ('<' :: tag.name.toList))
  refine ⟨{ tag with attributes := placed, location := (p.advanceBy []).location }, ?_, ?_⟩
  · rw [Tag.unplaced, Tag.unplaced, hplaced]
  · rw [List.nil_append] at hbuild
    rw [← hbuild]
    rfl

/-- A token that is a piece becomes a node without children, or ends an element. -/
theorem handle_piece {b b' : Builder} {t : Token} (ht : t.IsPiece)
    (honly : t.isParserOnly = false) (h : b.handle t = .ok b') :
    (∃ n, t.leaf? = some n ∧ b' = b.append n) ∨
      (∃ content, t.kind = .text content ∧ content ≠ "" ∧
        b' = b.append (.text content t.location)) ∨
      (t.isText = false ∧ IsEndTagOf (endTagName t.raw) t.raw ∧
        b.handleEndTag (endTagName t.raw) t.raw t.location = .ok b') := by
  obtain ⟨kind, raw, l⟩ := t
  unfold Token.IsPiece at ht
  cases kind with
  | documentStart | documentEnd | tagStart | «attribute» | tagStartEnd => exact absurd ht id
  | blockStart | blockEnd =>
    simp [Token.isParserOnly, TokenKind.isBlockMark] at honly
  | comment kind content =>
    exact .inl ⟨.comment content l, rfl, (Except.ok.inj h).symm⟩
  | cdata content => exact .inl ⟨.cdata content l, rfl, (Except.ok.inj h).symm⟩
  | docType content => exact .inl ⟨.docType content l, rfl, (Except.ok.inj h).symm⟩
  | instruction content => exact .inl ⟨.instruction content l, rfl, (Except.ok.inj h).symm⟩
  | text content => exact .inr (.inl ⟨content, rfl, ht, (Except.ok.inj h).symm⟩)
  | tagEnd name =>
    obtain ⟨hname, hwritten⟩ := ht
    obtain rfl : name = endTagName raw := hname
    exact .inr (.inr ⟨rfl, hwritten, h⟩)

end Builder

/-! ## Documents -/

/-- The tree of a document is built from a stream in pieces, with no mark of the parser and no two
texts side by side. -/
theorem exists_of_parseSource {options : Options} {s : Source} {d : Document}
    (h : parseSource options s = .ok d) :
    ∃ ts b, Pieces options.mode ts ∧ (∀ t ∈ ts, t.isParserOnly = false) ∧
      ts.IsChain Filter.Apart ∧ Builder.handleAll { mode := options.mode } ts = .ok b ∧
      b.finish = .ok d := by
  have hfailure := failure_of_parseSource h
  obtain ⟨hspelled, ⟨v, hturn, hend⟩, -⟩ := tokenize_faithful options.mode s
  obtain ⟨herror, f, b, ts, b', hbuild, hfinish, hhandle, hdone⟩ := parseSource_eq_ok h
  obtain rfl := hend herror
  obtain rfl := Filter.finish_eq_ok hfinish
  obtain ⟨out, hfeeds, hb⟩ := Filter.exists_of_buildFiltered hbuild
  obtain ⟨-, hout⟩ := hfeeds.writable (Filter.ofOptions_sound options) hspelled hturn
  -- Between the first and the last token stand the pieces.
  rw [tokenize, hfailure] at hfeeds herror
  obtain ⟨mid, l, hmid, hpieces⟩ := Tokens.pieces_of_read herror
  simp only [Tokens.prepend, hmid, List.singleton_append] at hfeeds
  cases hfeeds with
  | @cons _ f₁ _ _ _ out₀ _ hfeed hs =>
    obtain ⟨f₂, out₁, out₂, h₁, h₂, rfl⟩ := hs.exists_of_append
    obtain ⟨hstart, hheld⟩ :=
      Filter.handleAll_documentStart rfl hfeed { mode := options.mode }
    obtain ⟨hpieces₁, hheld₂⟩ := h₁.pieces (by simp [Filter.HeldNonempty, hheld]) hpieces
    refine ⟨out₁ ++ Held.tokens f₂.held, b', hpieces₁.append (Filter.pieces_tokens hheld₂), ?_,
      h₁.isChain_tokens, ?_, hdone⟩
    · intro t ht
      obtain ht | ht := List.mem_append.mp ht
      · exact (hout t (by simp [ht])).2
      · cases hheld : f₂.held <;> simp_all [Held.tokens, Held.toToken, Token.isParserOnly,
          TokenKind.isParserComment, TokenKind.isBlockMark]
    · have hall : Builder.handleAll { mode := options.mode }
          (out₀ ++ (out₁ ++ out₂) ++ Held.tokens f.held) = .ok b' := by
        rw [Builder.handleAll_append, hb]
        exact hhandle
      rw [List.append_assoc, Builder.handleAll_append, hstart, List.append_assoc] at hall
      simp only [Except.bind, Builder.handleAll_append _ out₁] at hall ⊢
      rw [← hall]
      cases Builder.handleAll { mode := options.mode } out₁ with
      | error e => rfl
      | ok b₁ => exact (h₂.handleAll_documentEnd b₁).symm

end NaturalTemplate.Markup
