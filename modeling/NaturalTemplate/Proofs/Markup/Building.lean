import NaturalTemplate.Proofs.Markup.Plain

/-!
# Building from plain sequences

Outside blocks the filter holds text back and hands everything else on, and the builder takes a
start tag as a whole. What the filter holds back can therefore be counted as built.
-/
namespace NaturalTemplate.Markup
open Lexeme

/-! ## The filter -/

/-- The tokens that are held back. -/
def Held.tokens (held : Option Held) : List Token := (held.map Held.toToken).toList

/-- Text that is held back with more text. -/
def Held.more (held : Option Held) (content : String) (t : Token) : Held :=
  match held with
  | none => ⟨content, t.raw, t.location⟩
  | some h => { h with content := h.content ++ content, raw := h.raw ++ t.raw }

theorem Balance.feedAll_tokens (bal : Balance) (held : Option Held) (t : Token) :
    bal.feedAll (Held.tokens held ++ [t]) = bal.feed t := by
  have hlast : bal.feedAll [t] = bal.feed t := by
    cases h : bal.feed t <;> simp [feedAll, h]
  cases held with
  | none => exact hlast
  | some h =>
    have htext : bal.feed h.toToken = .ok bal := rfl
    rw [Held.tokens, Option.map_some, Option.toList_some, List.singleton_append, feedAll, htext]
    exact hlast

theorem Token.exists_of_isText {t : Token} (h : t.isText = true) :
    ∃ content, t.kind = .text content := by
  unfold isText at h
  split at h
  · exact ⟨_, ‹_›⟩
  · cases h

theorem Filter.feedText_text (held : Option Held) {t : Token} {content : String}
    (ht : t.kind = .text content) : feedText held t = (some (Held.more held content t), []) := by
  cases held <;> simp [feedText, ht, Held.more]

theorem Filter.feedText_of_not (held : Option Held) {t : Token} (ht : t.isText = false) :
    feedText held t = (none, Held.tokens held ++ [t]) := by
  unfold feedText
  cases held <;> cases hk : t.kind <;> simp_all [Held.tokens, Token.isText]

theorem Filter.feed_text {f : Filter} {t : Token} {content : String} (hfold : f.fold = none)
    (ht : t.kind = .text content) :
    f.feed t = .ok ({ f with held := some (Held.more f.held content t) }, []) := by
  obtain ⟨comments, fold, held, balance⟩ := f
  obtain rfl : fold = none := hfold
  have hmark : t.kind.isBlockMark = false := by simp [ht, TokenKind.isBlockMark]
  have hcomment : t.kind.isParserComment = false := by simp [ht, TokenKind.isParserComment]
  cases balance <;>
    simp [feed, feedBlock_of_not hmark, feedComment_of_not hcomment, feedText_text held ht,
      Balance.feedAll]

/-- What is no text is handed on, behind the text that was held back. -/
theorem Filter.feed_other {f : Filter} {t : Token} {bal : Balance} (hfold : f.fold = none)
    (hbal : f.balance = some bal) (honly : t.isParserOnly = false) (ht : t.isText = false) :
    f.feed t = (bal.feed t).map fun bal =>
      ({ f with held := none, balance := some bal }, Held.tokens f.held ++ [t]) := by
  obtain ⟨comments, fold, held, balance⟩ := f
  obtain rfl : fold = none := hfold
  obtain rfl : balance = some bal := hbal
  simp only [Token.isParserOnly, Bool.or_eq_false_iff] at honly
  simp only [feed, feedBlock_of_not honly.2, Option.bind_some, feedComment_of_not honly.1,
    feedText_of_not held ht, bal.feedAll_tokens]
  cases bal.feed t <;> rfl

/-! ## The builder -/

namespace Builder

/-- The tree with the text that is still held back. -/
def settle (b : Builder) : Option Held → Builder
  | none => b
  | some h => b.append (.text h.content h.location)

/-- The names of the open elements, the innermost first. -/
def openNames (b : Builder) : List String := b.opened.map fun o => o.tag.name

/-- The filter that strict parsing has come to with a tree, outside tags and blocks. -/
def filter (b : Builder) (policy : CommentPolicy) (held : Option Held) : Filter :=
  ⟨policy, none, held, some ⟨b.openNames, none⟩⟩

/-- Takes a start tag as a whole. -/
def enter (b : Builder) (tag : Tag) : Builder :=
  if tag.selfClosing || isVoid tag.name then b.append (.element tag [] .void)
  else { b with opened := { tag } :: b.opened }

/-- Whether strict parsing stands outside tags. -/
structure IsReady (b : Builder) : Prop where
  mode : b.mode = .strict
  starting : b.starting = none

@[simp]
theorem mode_append (b : Builder) (n : Node) : (b.append n).mode = b.mode := by
  unfold append
  split <;> rfl

@[simp]
theorem openNames_append (b : Builder) (n : Node) : (b.append n).openNames = b.openNames := by
  obtain ⟨mode, roots, opened, starting⟩ := b
  cases opened <;> rfl

@[simp]
theorem openNames_settle (b : Builder) (held : Option Held) :
    (b.settle held).openNames = b.openNames := by
  cases held with
  | none => rfl
  | some h => exact openNames_append ..

@[simp]
theorem openNames_close (b : Builder) (endTag : EndTag) :
    (b.close endTag).openNames = b.openNames.tail := by
  obtain ⟨mode, roots, opened, starting⟩ := b
  cases opened with
  | nil => rfl
  | cons o opened => exact openNames_append ..

theorem exists_of_openNames {b : Builder} {name : String} {names : List String}
    (h : b.openNames = name :: names) :
    ∃ o opened, b.opened = o :: opened ∧ o.tag.name = name ∧
      (opened.map fun o => o.tag.name) = names :=
  List.map_eq_cons_iff.mp h

variable {b : Builder} {n : Node}

theorem IsReady.append (h : b.IsReady) (n : Node) : (b.append n).IsReady :=
  ⟨by rw [mode_append, h.mode], by rw [starting_append, h.starting]⟩

theorem IsReady.settle (h : b.IsReady) (held : Option Held) : (b.settle held).IsReady := by
  cases held with
  | none => exact h
  | some _ => exact h.append _

theorem IsReady.enter (h : b.IsReady) (tag : Tag) : (b.enter tag).IsReady := by
  unfold Builder.enter
  split
  · exact h.append _
  · exact ⟨h.mode, h.starting⟩

theorem IsReady.close (h : b.IsReady) (endTag : EndTag) : (b.close endTag).IsReady := by
  unfold Builder.close
  split
  · exact h
  · refine IsReady.append ?_ _
    exact ⟨h.mode, h.starting⟩

theorem handleAll_append (b : Builder) (ts us : List Token) :
    b.handleAll (ts ++ us) = (b.handleAll ts).bind fun b => b.handleAll us := by
  induction ts generalizing b with
  | nil => rfl
  | cons t ts ih =>
    simp only [List.cons_append, handleAll]
    cases b.handle t with
    | error e => rfl
    | ok b => exact ih b

theorem handleAll_tokens (b : Builder) (held : Option Held) :
    b.handleAll (Held.tokens held) = .ok (b.settle held) := by
  cases held <;> rfl

end Builder

/-! ## One step -/

section
variable {policy : CommentPolicy} {b : Builder} {held : Option Held} {t : Token}

theorem buildFiltered_text (policy : CommentPolicy) (b : Builder) (held : Option Held) {t : Token}
    {content : String} (ht : t.kind = .text content) (ts : List Token) :
    buildFiltered (b.filter policy held) b (t :: ts) =
      buildFiltered (b.filter policy (some (Held.more held content t))) b ts := by
  simp [buildFiltered, Builder.filter, Filter.feed_text _ ht, Builder.handleAll]

/-- A token that is no text reaches the tree behind all text before it. -/
theorem buildFiltered_other {f : Filter} {bal bal' : Balance} (hfold : f.fold = none)
    (hbal : f.balance = some bal) (honly : t.isParserOnly = false) (ht : t.isText = false)
    (hfeed : bal.feed t = .ok bal') {b' : Builder}
    (hhandle : (b.settle f.held).handle t = .ok b') (ts : List Token) :
    buildFiltered f b (t :: ts) =
      buildFiltered { f with held := none, balance := some bal' } b' ts := by
  have hall : b.handleAll (Held.tokens f.held ++ [t]) = .ok b' := by
    rw [Builder.handleAll_append, Builder.handleAll_tokens]
    simp [Except.bind, Builder.handleAll, hhandle]
  rw [buildFiltered, Filter.feed_other hfold hbal honly ht, hfeed]
  simp only [Except.map, hall]

theorem exists_of_buildFiltered_other {f : Filter} {bal : Balance} (hfold : f.fold = none)
    (hbal : f.balance = some bal) (honly : t.isParserOnly = false) (ht : t.isText = false)
    {ts : List Token} {r : Filter × Builder} (h : buildFiltered f b (t :: ts) = .ok r) :
    ∃ bal', bal.feed t = .ok bal' := by
  cases hfeed : bal.feed t with
  | ok bal' => exact ⟨bal', rfl⟩
  | error e =>
    rw [buildFiltered, Filter.feed_other hfold hbal honly ht, hfeed] at h
    cases h

theorem buildFiltered_leaf {n : Node} (hn : t.leaf? = some n) (honly : t.isParserOnly = false)
    (ts : List Token) :
    buildFiltered (b.filter policy held) b (t :: ts) =
      buildFiltered (((b.settle held).append n).filter policy none) ((b.settle held).append n)
        ts := by
  have htext : t.isText = false := by
    unfold Token.leaf? at hn
    unfold Token.isText
    cases hk : t.kind <;> simp_all [TokenKind.leaf?]
  have hfeed : Balance.feed ⟨b.openNames, none⟩ t = .ok ⟨b.openNames, none⟩ := by
    unfold Token.leaf? at hn
    unfold Balance.feed
    cases hk : t.kind <;> simp_all [TokenKind.leaf?]
  have hhandle : (b.settle held).handle t = .ok ((b.settle held).append n) := by
    unfold Token.leaf? at hn
    unfold Builder.handle
    cases hk : t.kind <;> simp_all [TokenKind.leaf?]
  rw [buildFiltered_other rfl rfl honly htext hfeed hhandle]
  simp [Builder.filter]

/-- The text of an end tag with some space behind the name. -/
def endTagText (name space : String) : String := "</" ++ name ++ space ++ ">"

theorem raw_endTagLexeme (name space : String) :
    String.ofList (endTagLexeme name space).raw = endTagText name space := by
  simp [endTagLexeme, endTagText, ← String.toList_inj]

theorem buildFiltered_endTag (hb : b.IsReady) {name : String} {names : List String}
    (hnames : b.openNames = name :: names) (space : String) (p : Position) (ts : List Token)
    {b' : Builder} (hb' : b' = (b.settle held).close (.explicit (endTagText name space))) :
    buildFiltered (b.filter policy held) b (locate p [endTagLexeme name space] ++ ts) =
      buildFiltered (b'.filter policy none) b' ts := by
  have hready := hb.settle held
  have hsettled : (b.settle held).openNames = name :: names := by
    rw [Builder.openNames_settle, hnames]
  obtain ⟨o, opened, hopened, rfl, rfl⟩ := Builder.exists_of_openNames hsettled
  let t : Token := ⟨.tagEnd o.tag.name, endTagText o.tag.name space, p.location⟩
  have hhandle : (b.settle held).handle t = .ok b' := by
    simp [t, Builder.handle, Builder.handleEndTag, hready.mode, hopened, hb']
  have hlocate : locate p [endTagLexeme o.tag.name space] = [t] := by
    simp only [locate, raw_endTagLexeme]
    rfl
  have hfeed : Balance.feed ⟨b.openNames, none⟩ t = .ok ⟨b'.openNames, none⟩ := by
    rw [hb', Builder.openNames_close, hsettled, hnames]
    simp [t, Balance.feed]
  rw [hlocate, List.singleton_append, buildFiltered_other rfl rfl rfl rfl hfeed hhandle]
  rfl

theorem exists_of_buildFiltered_endTag {name space : String} {p : Position} {ts : List Token}
    {r : Filter × Builder}
    (h : buildFiltered (b.filter policy held) b (locate p [endTagLexeme name space] ++ ts) =
      .ok r) :
    ∃ names, b.openNames = name :: names := by
  obtain ⟨bal', hfeed⟩ := exists_of_buildFiltered_other rfl rfl rfl rfl h
  unfold Balance.feed at hfeed
  simp only [endTagLexeme] at hfeed
  split at hfeed
  · cases hfeed
  · next expected names hnames =>
    split at hfeed
    · next heq => exact ⟨names, by rw [hnames, heq]⟩
    · cases hfeed

/-! ## The end -/

theorem buildFiltered_documentEnd (hnames : b.openNames = []) (l : Location) :
    buildFiltered (b.filter policy held) b [⟨.documentEnd, "", l⟩] =
      .ok ((b.settle held).filter policy none, b.settle held) := by
  let t : Token := ⟨.documentEnd, "", l⟩
  have hfeed : Balance.feed ⟨b.openNames, none⟩ t = .ok ⟨b.openNames, none⟩ := by
    rw [hnames]
    rfl
  have hhandle : (b.settle held).handle t = .ok (b.settle held) := rfl
  rw [buildFiltered_other rfl rfl rfl rfl hfeed hhandle, buildFiltered, Builder.filter,
    Builder.filter, Builder.openNames_settle]

theorem openNames_of_documentEnd {l : Location} {r : Filter × Builder}
    (h : buildFiltered (b.filter policy held) b [⟨.documentEnd, "", l⟩] = .ok r) :
    b.openNames = [] := by
  obtain ⟨bal', hfeed⟩ := exists_of_buildFiltered_other rfl rfl rfl rfl h
  unfold Balance.feed at hfeed
  simp only at hfeed
  split at hfeed
  · assumption
  · cases hfeed

/-! ## Start tags -/

/-- No text is held back inside a start tag. -/
theorem buildFiltered_inside {bal bal' : Balance} (honly : t.isParserOnly = false)
    (ht : t.isText = false) (hfeed : bal.feed t = .ok bal') {b' : Builder}
    (hhandle : b.handle t = .ok b') (ts : List Token) :
    buildFiltered ⟨policy, none, none, some bal⟩ b (t :: ts) =
      buildFiltered ⟨policy, none, none, some bal'⟩ b' ts :=
  buildFiltered_other (f := ⟨policy, none, none, some bal⟩) rfl rfl honly ht hfeed hhandle ts

/-- The filter and the tree after the name of a start tag. -/
theorem buildFiltered_tagStart (name : String) (l : Location) (raw : String) (ts : List Token) :
    buildFiltered (b.filter policy held) b (⟨.tagStart name, raw, l⟩ :: ts) =
      buildFiltered ⟨policy, none, none, some ⟨b.openNames, some name⟩⟩
        { b.settle held with starting := some { name, location := l } } ts := by
  let t : Token := ⟨.tagStart name, raw, l⟩
  have hfeed : Balance.feed ⟨b.openNames, none⟩ t = .ok ⟨b.openNames, some name⟩ := rfl
  have hhandle : (b.settle held).handle t =
    .ok { b.settle held with starting := some { name, location := l } } := rfl
  rw [buildFiltered_other rfl rfl rfl rfl hfeed hhandle]
  rfl

theorem buildFiltered_tagStartEnd (hb : b.starting = none) (names : List String) (tag : Tag)
    (hnames : b.openNames = names) (trailing : String) (selfClosing : Bool) (l : Location)
    (raw : String) (ts : List Token) {b' : Builder}
    (hb' : b' = b.enter { tag with trailing, selfClosing }) :
    buildFiltered ⟨policy, none, none, some ⟨names, some tag.name⟩⟩
        { b with starting := some tag } (⟨.tagStartEnd trailing selfClosing, raw, l⟩ :: ts) =
      buildFiltered (b'.filter policy none) b' ts := by
  obtain ⟨mode, roots, opened, starting⟩ := b
  obtain rfl : starting = none := hb
  let t : Token := ⟨.tagStartEnd trailing selfClosing, raw, l⟩
  have hfeed : Balance.feed ⟨names, some tag.name⟩ t = .ok ⟨b'.openNames, none⟩ := by
    rw [hb', Builder.enter]
    by_cases hvoid : selfClosing || isVoid tag.name
    · simp [t, Balance.feed, hvoid, hnames]
    · simp [t, Balance.feed, hvoid, ← hnames, Builder.openNames]
  have hhandle : Builder.handle ⟨mode, roots, opened, some tag⟩ t = .ok b' := by
    rw [hb', Builder.enter]
    by_cases hvoid : selfClosing || isVoid tag.name <;> simp [t, Builder.handle, hvoid]
  exact buildFiltered_inside rfl rfl hfeed hhandle ts

/-- Attributes are taken one by one, and then the tag ends. -/
theorem buildFiltered_parts (hb : b.starting = none) (attributes : List Attribute) (tag : Tag)
    (trailing : String) (selfClosing : Bool) (p : Position) (ts : List Token) :
    ∃ placed, placed.map Attribute.unplaced = attributes.map Attribute.unplaced ∧
      ∀ b', b' = b.enter { tag with
          attributes := tag.attributes ++ placed, trailing, selfClosing } →
        buildFiltered ⟨policy, none, none, some ⟨b.openNames, some tag.name⟩⟩
            { b with starting := some tag }
            (locate p (Tag.partLexemes attributes trailing selfClosing) ++ ts) =
          buildFiltered (b'.filter policy none) b' ts := by
  induction attributes generalizing tag p with
  | nil =>
    refine ⟨[], rfl, fun b' hb' => ?_⟩
    rw [List.append_nil] at hb'
    exact buildFiltered_tagStartEnd hb _ tag rfl trailing selfClosing _ _ ts hb'
  | cons a attributes ih =>
    let l : Location := (p.advanceBy a.lexeme.lead).location
    let placedHead : Attribute := { a with location := l }
    obtain ⟨placed, hplaced, hbuild⟩ := ih
      { tag with attributes := tag.attributes ++ [placedHead] } (p.advanceBy a.lexeme.raw)
    refine ⟨placedHead :: placed, ?_, fun b' hb' => ?_⟩
    · simp only [List.map_cons, hplaced]
      rfl
    · rw [List.append_cons] at hb'
      rw [← hbuild b' hb']
      exact buildFiltered_inside rfl rfl rfl rfl _

/-- A start tag is taken as a whole. -/
theorem buildFiltered_tag (policy : CommentPolicy) (held : Option Held) (hb : b.IsReady) (tag : Tag)
    (p : Position) (ts : List Token) :
    ∃ placed : Tag, placed.unplaced = tag.unplaced ∧ ∀ b', b' = (b.settle held).enter placed →
      buildFiltered (b.filter policy held) b (locate p tag.lexemes ++ ts) =
        buildFiltered (b'.filter policy none) b' ts := by
  have hstarting : (b.settle held).starting = none := (hb.settle held).starting
  let l : Location := (p.advanceBy []).location
  obtain ⟨placed, hplaced, hbuild⟩ := @buildFiltered_parts policy _ hstarting tag.attributes
    { name := tag.name, location := l } tag.trailing tag.selfClosing
    (p.advanceBy ('<' :: tag.name.toList)) ts
  refine ⟨{ tag with attributes := placed, location := l }, ?_, fun b' hb' => ?_⟩
  · rw [Tag.unplaced, Tag.unplaced, hplaced]
  · rw [Tag.lexemes, locate, List.cons_append, buildFiltered_tagStart]
    rw [← hbuild b' hb', Builder.openNames_settle]
    rfl

end

end NaturalTemplate.Markup
