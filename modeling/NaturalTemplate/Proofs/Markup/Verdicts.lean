import NaturalTemplate.Proofs.Markup.Preorder
import NaturalTemplate.Proofs.Markup.Stages

/-!
# Building with and without the filter

The rule of balance is checked in the filter and once more where the tree is built. So the tokens of
a source that was read by the strict rules can be handed to the builder as they are: what is wrong
with their end tags is found there just as in a parse that discards comments, and only the place
that is blamed for an element left open at the end is another one.
-/
namespace NaturalTemplate.Markup

/-- The document that is built from tokens as they were read. -/
def buildUnfiltered (mode : Mode) (ts : List Token) : Except ParseError Document :=
  (Builder.handleAll { mode } ts).bind Builder.finish

/-! ## The filter -/

section
variable {f : Filter} {b : Builder} {bal : Balance} {t : Token} {ts : List Token} {u v : Turn}

/-- Where comments are discarded, what the filter does with a token is up to the count of open
tags. -/
theorem Filter.feed_discard (hcomments : f.comments = .discard) (hfold : f.fold = none)
    (hbal : f.balance = some bal) (t : Token) :
    ∃ held out, f.feed t =
      (bal.feed t).map fun bal => ({ f with held, balance := some bal }, out) := by
  have hsame (held : Option Held) :
      ({ f with held, balance := some bal } : Filter) = { f with held } := by rw [← hbal]
  -- What the parser alone reads is dropped, text is held back, and all else goes on as it is.
  cases honly : t.isParserOnly with
  | true =>
    refine ⟨f.held, [], ?_⟩
    have hfeed : bal.feed t = .ok bal := by
      unfold Token.isParserOnly at honly
      unfold Balance.feed
      cases hkind : t.kind <;>
        simp_all [TokenKind.isParserComment, TokenKind.isBlockMark]
    have hstages : (feedBlock f.comments f.fold t).2.bind (feedComment f.comments) = none := by
      rw [hcomments, feedBlock_discard]
      split
      · rfl
      · next hmark =>
        have hparser : t.kind.isParserComment = true := by
          simpa [Token.isParserOnly, hmark] using honly
        obtain ⟨content, hkind⟩ := TokenKind.eq_of_isParserComment hparser
        simp [feedComment, hkind]
    have hkept : (feedBlock f.comments f.fold t).1 = f.fold := by
      rw [hcomments, feedBlock_discard]
    simp only [feed, hstages, hkept, hfeed, Except.map, hsame]
  | false =>
    cases htext : t.isText with
    | true =>
      obtain ⟨content, hkind⟩ := Token.exists_of_isText htext
      refine ⟨some (Held.more f.held content t), [], ?_⟩
      have hfeed : bal.feed t = .ok bal := by simp only [Balance.feed, hkind]
      rw [feed_text hfold hkind, hfeed]
      simp only [Except.map, hsame]
    | false => exact ⟨none, _, feed_other hfold hbal honly htext⟩

/-- Where comments are discarded, a strict parse fails where the count of open tags does. -/
theorem Underway.run_discard (h : Underway .strict u f b) (hcomments : f.comments = .discard)
    (hbal : f.balance = some bal) (hts : ∀ t ∈ ts, t.Spelled)
    (hturn : u.after? (ts.map Token.kind) = some v) :
    match bal.feedAll ts with
    | .error e => buildFiltered f b ts = .error e
    | .ok bal' => ∃ f' b', buildFiltered f b ts = .ok (f', b') ∧ f'.comments = .discard ∧
        f'.balance = some bal' ∧ Underway .strict v f' b' := by
  induction ts generalizing f b bal u with
  | nil =>
    obtain rfl := Option.some.inj hturn
    exact ⟨f, b, rfl, hcomments, hbal, h⟩
  | cons t ts ih =>
    obtain ⟨ht, hts⟩ := List.forall_mem_cons.mp hts
    obtain ⟨w, hw, hturn⟩ := Option.bind_eq_some_iff.mp hturn
    have hfold : f.fold = none := by simpa [hcomments] using h.sound.folding.isSome_eq
    obtain ⟨held, out, hfeed⟩ := Filter.feed_discard hcomments hfold hbal t
    rw [Balance.feedAll, buildFiltered, hfeed]
    cases hstep : bal.feed t with
    | error e => rfl
    | ok bal₁ =>
      rw [hstep] at hfeed
      obtain ⟨b₁, hhandle, h₁⟩ := h.exists_handleAll ht hw hfeed
      simp only [Except.map, hhandle]
      exact ih h₁ hcomments rfl hts hturn

end

/-! ## The end of a source -/

namespace Front

variable {mode : Mode} {s : Source} {ts : List Token} {l : Location}

theorem handleAll (h : Front mode s ts l) (b : Builder) :
    b.handleAll (tokenize mode s).tokens = b.handleAll ts := by
  rw [h.tokens, Builder.handleAll_append]
  cases b.handleAll ts <;> rfl

theorem buildUnfiltered (h : Front mode s ts l) :
    buildUnfiltered mode (tokenize mode s).tokens =
      (Builder.handleAll { mode } ts).bind Builder.finish := by
  rw [Markup.buildUnfiltered, h.handleAll]

/-- The document ends where its source ends. -/
theorem location_eq (h : Front mode s ts l) : l = (Position.start.advanceBy s.chars).location := by
  have hstand := tokenize_standFrom mode s
  have htext := (tokenize_faithful mode s).text h.error
  rw [h.tokens] at hstand htext
  rw [Token.rawText_append, Token.rawText_cons _ [], Token.rawText_nil, String.append_empty,
    String.append_empty] at htext
  have hend := (Token.standFrom_append.mp hstand).2.1 rfl
  rwa [htext, String.toList_ofList] at hend

/-- An open element stands before the end of the source. -/
theorem offset_lt (h : Front mode s ts l) {b : Builder} {o : OpenElement}
    {opened : List OpenElement} (hhandle : Builder.handleAll { mode } ts = .ok b)
    (hs : b.starting = none) (ho : b.opened = o :: opened) :
    o.tag.location.offset < (Position.start.advanceBy s.chars).location.offset := by
  have hmem : o.tag.location ∈ b.places := by
    obtain ⟨mode, roots, _, starting⟩ := b
    obtain rfl : starting = none := hs
    obtain rfl : _ = o :: opened := ho
    rw [Builder.places_opened]
    simp
  refine (tokenize_pairwise h.error).2 _ ?_
  rw [h.tokens, Token.places_append]
  exact List.mem_append_left _ ((Builder.places_handleAll rfl h.turn hhandle).subset hmem)

variable {e : ParseError} {f : Filter} {b : Builder} {bal : Balance}

theorem parseSource_of_error {comments : CommentPolicy} (h : Front mode s ts l)
    (hparsed : parsed { mode, comments } ts = .error e) :
    parseSource { mode, comments } s = .error e := by
  rw [parseSource_eq]
  simp only [h.tokens, parsed_append, hparsed, Except.bind]

/-- A strict parse that has come to the end fails if an element is open. -/
theorem parseSource_of_parsed {comments : CommentPolicy} (h : Front .strict s ts l)
    (hparsed : parsed { mode := .strict, comments } ts = .ok (f, b))
    (hunder : Underway .strict {} f b) (hbal : f.balance = some bal) :
    match bal.opened with
    | [] => ∃ d, parseSource { mode := .strict, comments } s = .ok d
    | name :: _ =>
      parseSource { mode := .strict, comments } s = .error (.unbalanced name none l) := by
  have hlast := hunder.run_documentEnd hbal l
  have hall : parsed { mode := .strict, comments } (tokenize .strict s).tokens =
      buildFiltered f b [⟨.documentEnd, "", l⟩] := by
    rw [h.tokens, parsed_append, hparsed]
    rfl
  cases hopened : bal.opened with
  | nil =>
    rw [hopened] at hlast
    have hparse := Markup.parseSource_of_parsed (hall.trans hlast)
    simpa only [h.error] using hparse
  | cons name names =>
    rw [hopened] at hlast
    rw [parseSource_eq]
    simp only [hall, hlast, Except.bind]

end Front

/-! ## The verdicts -/

namespace Front

variable {s : Source} {ts : List Token} {l : Location}

/-- What the count of open tags refuses before the end is refused with and without the filter. -/
theorem error_of_feedAll (h : Front .strict s ts l) {e : ParseError}
    (hfeed : Balance.feedAll {} ts = .error e) :
    (∃ t ∈ ts, e.BlamesEndTag t) ∧ Builder.handleAll { mode := .strict } ts = .error e ∧
      parseSource { mode := .strict, comments := .discard } s = .error e := by
  have hstep : Balance.InStep {} { mode := .strict } := ⟨rfl, rfl, rfl⟩
  have hsame := hstep.feedAll rfl h.turn h.kind
  have hrun := (underway_ofOptions { mode := .strict, comments := .discard }).run_discard rfl rfl
    h.spelled h.turn
  rw [hfeed] at hsame hrun
  cases hhandle : Builder.handleAll { mode := .strict } ts <;> rw [hhandle] at hsame <;>
    cases hsame
  exact ⟨⟨_, ‹_›, ‹_›⟩, rfl, h.parseSource_of_error hrun⟩

/-- Where the count of open tags comes to the end, so does building without the filter, and the
parse fails if an element is open. -/
theorem end_of_feedAll (h : Front .strict s ts l) {bal : Balance}
    (hfeed : Balance.feedAll {} ts = .ok bal) :
    ∃ b, Builder.handleAll { mode := .strict } ts = .ok b ∧ b.mode = .strict ∧
      b.starting = none ∧
      match b.opened with
      | [] => ∃ d, parseSource { mode := .strict, comments := .discard } s = .ok d
      | o :: _ => parseSource { mode := .strict, comments := .discard } s =
          .error (.unbalanced o.tag.name none l) := by
  have hstep : Balance.InStep {} { mode := .strict } := ⟨rfl, rfl, rfl⟩
  have hrun := (underway_ofOptions { mode := .strict, comments := .discard }).run_discard rfl rfl
    h.spelled h.turn
  rw [hfeed] at hrun
  obtain ⟨f, c, hparsed, -, hbal, hunder⟩ := hrun
  obtain ⟨b, hhandle, hinStep, hstarting⟩ := hstep.exists_handleAll rfl h.turn hfeed
  have hparse := h.parseSource_of_parsed hparsed hunder hbal
  rw [hinStep.opened, Builder.openNames] at hparse
  refine ⟨b, hhandle, hinStep.mode, by simpa using hstarting, ?_⟩
  cases hopened : b.opened <;> rw [hopened] at hparse <;> exact hparse

end Front

/-- The tokens of a source that was read by the strict rules can be built into a document without
the filter if and only if a parse that discards comments makes one. If an end tag is at fault, both
have the same error. If elements are left open at the end, both name the innermost of them; the
builder alone blames the place where it begins, and the parse, the end of the source. -/
theorem verdicts_of_tokenize {s : Source} (h : (tokenize .strict s).error = none) :
    let ts := (tokenize .strict s).tokens
    let parse := parseSource { mode := .strict, comments := .discard } s
    (∃ d d', buildUnfiltered .strict ts = .ok d ∧ parse = .ok d') ∨
      (∃ t ∈ ts, ∃ e, e.BlamesEndTag t ∧ buildUnfiltered .strict ts = .error e ∧
        parse = .error e) ∨
      ∃ b o opened, Builder.handleAll { mode := .strict } ts = .ok b ∧ b.opened = o :: opened ∧
        buildUnfiltered .strict ts = .error (.unbalanced o.tag.name none o.tag.location) ∧
        parse = .error (.unbalanced o.tag.name none
          (Position.start.advanceBy s.chars).location) ∧
        o.tag.location.offset < (Position.start.advanceBy s.chars).location.offset := by
  intro ts parse
  obtain ⟨front, l, hfront⟩ := exists_front h
  have hunfiltered : buildUnfiltered .strict ts = _ := hfront.buildUnfiltered
  cases hfeed : Balance.feedAll {} front with
  | error e =>
    obtain ⟨⟨t, ht, hblames⟩, hhandle, hparse⟩ := hfront.error_of_feedAll hfeed
    rw [hhandle] at hunfiltered
    have hmem : t ∈ ts := by
      show t ∈ (tokenize .strict s).tokens
      rw [hfront.tokens]
      exact List.mem_append_left _ ht
    exact .inr (.inl ⟨t, hmem, e, hblames, hunfiltered, hparse⟩)
  | ok bal =>
    obtain ⟨b, hhandle, hmode, hs, hparse⟩ := hfront.end_of_feedAll hfeed
    rw [hhandle] at hunfiltered
    cases hopened : b.opened with
    | nil =>
      rw [hopened] at hparse
      obtain ⟨d', hd'⟩ := hparse
      obtain ⟨d, hd⟩ := Builder.exists_finish hs fun _ => hopened
      exact .inl ⟨d, d', hunfiltered.trans hd, hd'⟩
    | cons o opened =>
      rw [hopened, hfront.location_eq] at hparse
      have hfinish : b.finish = .error (.unbalanced o.tag.name none o.tag.location) := by
        simp only [Builder.finish, hs, hmode, hopened]
      exact .inr (.inr ⟨b, o, opened, (hfront.handleAll _).trans hhandle, hopened,
        hunfiltered.trans hfinish, hparse, hfront.offset_lt hhandle hs hopened⟩)

/-- Two elements are open at the end here, the inner one behind a carriage return. -/
theorem verdicts_of_tokenize_open :
    let s := Source.ofString "<p>a<br><b/>\r<B><!--/*/c/*/-->"
    (tokenize .strict s).error = none ∧
      buildUnfiltered .strict (tokenize .strict s).tokens =
        .error (.unbalanced "B" none ⟨2, 1, 13⟩) ∧
      parseSource { mode := .strict, comments := .discard } s =
        .error (.unbalanced "B" none ⟨2, 18, 30⟩) := by
  intro s
  have herror : (tokenize .strict s).error = none := by decide +kernel
  have hbuild : (match buildUnfiltered .strict (tokenize .strict s).tokens with
      | .ok _ => none
      | .error e => some e) = some (ParseError.unbalanced "B" none ⟨2, 1, 13⟩) := by
    decide +kernel
  have hend : (Position.start.advanceBy s.chars).location = ⟨2, 18, 30⟩ := by decide +kernel
  refine ⟨herror, ?_⟩
  obtain ⟨d, -, hd, -⟩ | ⟨t, -, e, hblames, he, -⟩ | ⟨b, o, opened, -, -, ho, hparse, -⟩ :=
    verdicts_of_tokenize herror
  · rw [hd] at hbuild
    cases hbuild
  · rw [he] at hbuild
    cases hblames <;> cases hbuild
  · rw [ho] at hbuild
    have hname : o.tag.name = "B" ∧ o.tag.location = ⟨2, 1, 13⟩ := by
      simpa using hbuild
    rw [ho, hparse, hname.1, hname.2, hend]
    exact ⟨rfl, rfl⟩

end NaturalTemplate.Markup
