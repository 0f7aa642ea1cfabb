import NaturalTemplate.Proofs.Markup.Balance

/-!
# Which stage refuses a source

Reading, filtering and building each have errors of their own. Tokens that were read come in turn,
and still do so behind the filter; so the filter has no block open at the end, and the builder takes
all that it is handed. What refuses a source is reading, or by strict rules the count of open tags
in the filter.
-/
namespace NaturalTemplate.Markup

/-! ## Tokens to the end -/

theorem buildFiltered_append (f : Filter) (b : Builder) (ts us : List Token) :
    buildFiltered f b (ts ++ us) =
      (buildFiltered f b ts).bind fun (f, b) => buildFiltered f b us := by
  induction ts generalizing f b with
  | nil => rfl
  | cons t ts ih =>
    simp only [List.cons_append, buildFiltered]
    cases f.feed t with
    | error e => rfl
    | ok r =>
      obtain ⟨f₁, out⟩ := r
      simp only
      cases b.handleAll out with
      | error e => rfl
      | ok b₁ => exact ih f₁ b₁

theorem Pieces.kind_ne_documentEnd {mode : Mode} {ts : List Token} (h : Pieces mode ts) :
    ∀ t ∈ ts, t.kind ≠ .documentEnd := by
  induction h with
  | nil => simp
  | @single t ts ht _ ih =>
    refine List.forall_mem_cons.mpr ⟨fun hkind => ?_, ih⟩
    simp [Token.IsPiece, hkind, TokenKind.IsPiece] at ht
  | tag htag p _ ih =>
    intro t ht hkind
    obtain ht | ht := List.mem_append.mp ht
    · have hpart := Lexeme.isTagPart_locate ht
      simp [hkind, TokenKind.isTagPart] at hpart
    · exact ih t ht hkind

/-- A source that was read to its end is one document, and in it pieces. -/
theorem pieces_of_tokenize {mode : Mode} {s : Source} (h : (tokenize mode s).error = none) :
    ∃ ts l, (tokenize mode s).tokens =
      ⟨.documentStart, "", .start⟩ :: (ts ++ [⟨.documentEnd, "", l⟩]) ∧ Pieces mode ts := by
  obtain ⟨cs, failure⟩ := s
  cases failure with
  | some f => exact (Tokens.read_error_ne_none _ f _ _ _ _ h).elim
  | none =>
    obtain ⟨ts, l, hts, hpieces⟩ := Tokens.pieces_of_read h
    exact ⟨ts, l, by rw [tokenize, Tokens.prepend, hts]; rfl, hpieces⟩

/-- All tokens of a source that was read to its end but the last one, which stands at `l`. -/
structure Front (mode : Mode) (s : Source) (ts : List Token) (l : Location) : Prop where
  error : (tokenize mode s).error = none
  tokens : (tokenize mode s).tokens = ts ++ [⟨.documentEnd, "", l⟩]
  kind : ∀ t ∈ ts, t.kind ≠ .documentEnd
  spelled : ∀ t ∈ ts, t.Spelled
  turn : ({} : Turn).after? (ts.map Token.kind) = some {}

theorem exists_front {mode : Mode} {s : Source} (h : (tokenize mode s).error = none) :
    ∃ ts l, Front mode s ts l := by
  obtain ⟨mid, l, hmid, hpieces⟩ := pieces_of_tokenize h
  rw [← List.cons_append] at hmid
  obtain ⟨hspelled, ⟨v, hturn, hend⟩, -⟩ := tokenize_faithful mode s
  obtain rfl := hend h
  rw [hmid] at hspelled hturn
  refine ⟨_, l, h, hmid, ?_, fun t ht => hspelled t (List.mem_append_left _ ht), ?_⟩
  · exact List.forall_mem_cons.mpr ⟨by simp, hpieces.kind_ne_documentEnd⟩
  · rw [List.map_append, Turn.after?_append] at hturn
    obtain ⟨u, hu, hlast⟩ := Option.bind_eq_some_iff.mp hturn
    obtain ⟨w, hw, hend⟩ := Option.bind_eq_some_iff.mp hlast
    obtain rfl := Option.some.inj hend
    obtain ⟨-, rfl⟩ := Turn.next?_other hw rfl
    exact hu

/-! ## The filter -/

namespace Filter

variable {f f' : Filter} {b : Builder} {t : Token} {out : List Token} {u v : Turn}

/-- Whether a filter refuses a token because the count of open tags refuses what the stages before
it make of the token. -/
def Refuses (f : Filter) (t : Token) (e : ParseError) : Prop :=
  ∃ bal k, f.balance = some bal ∧
    (feedBlock f.comments f.fold t).2.bind (feedComment f.comments) = some k ∧
    bal.feedAll (feedText f.held k).2 = .error e ∧ f.feed t = .error e

/-- The count of open tags is the one thing in a filter that refuses a token. -/
theorem refuses_of_feed {e : ParseError} (h : f.feed t = .error e) : f.Refuses t e := by
  have hfeed := h
  unfold feed at h
  simp only at h
  split at h
  · cases h
  · next k hk =>
    split at h
    · cases h
    · next bal hbal =>
      split at h
      · next e' herror =>
        obtain rfl := Except.error.inj h
        exact ⟨bal, k, hbal, hk, herror, hfeed⟩
      · cases h

/-- The count of open tags goes over what comes out of the filter. -/
theorem balance_of_feed (h : f.feed t = .ok (f', out)) :
    match f.balance with
    | none => f'.balance = none
    | some bal => ∃ bal', f'.balance = some bal' ∧ bal.feedAll out = .ok bal' := by
  unfold feed at h
  simp only at h
  split at h
  · simp only [Except.ok.injEq, Prod.mk.injEq] at h
    obtain ⟨rfl, rfl⟩ := h
    split
    · assumption
    · exact ⟨_, ‹_›, rfl⟩
  · cases hbal : f.balance with
    | none =>
      simp only [hbal, Except.ok.injEq, Prod.mk.injEq] at h
      obtain ⟨rfl, -⟩ := h
      rfl
    | some bal =>
      simp only [hbal] at h
      split at h
      · cases h
      · next bal' hfeed =>
        simp only [Except.ok.injEq, Prod.mk.injEq] at h
        obtain ⟨rfl, rfl⟩ := h
        exact ⟨bal', rfl, hfeed⟩

/-- Whether a filter counts the open tags by strict rules only, and in step with the tree. -/
def Guards (mode : Mode) (f : Filter) (b : Builder) : Prop :=
  match mode with
  | .strict => ∃ bal, f.balance = some bal ∧ bal.InStep b
  | .tolerant => f.balance = none ∧ b.mode = .tolerant

theorem ofOptions_guards (options : Options) :
    (ofOptions options).Guards options.mode { mode := options.mode } := by
  obtain ⟨mode, comments⟩ := options
  cases mode with
  | strict => exact ⟨_, rfl, rfl, rfl, rfl⟩
  | tolerant => exact ⟨rfl, rfl⟩

end Filter

/-! ## One token after the other -/

/-- Where a parse stands between two tokens that come in turn. -/
structure Underway (mode : Mode) (u : Turn) (f : Filter) (b : Builder) : Prop where
  sound : f.Sound u
  starting : b.starting.isSome = (Filter.outTurn f.fold u).inTag
  guards : f.Guards mode b

theorem underway_ofOptions (options : Options) :
    Underway options.mode {} (.ofOptions options) { mode := options.mode } :=
  ⟨Filter.ofOptions_sound options, rfl, Filter.ofOptions_guards options⟩

namespace Underway

variable {mode : Mode} {f f' : Filter} {b b' : Builder} {t : Token} {ts out : List Token}
  {u v : Turn}

/-- The builder takes what the filter hands on. -/
theorem exists_handleAll (h : Underway mode u f b) (ht : t.Spelled)
    (hturn : u.next? t.kind = some v) (hfeed : f.feed t = .ok (f', out)) :
    ∃ b', b.handleAll out = .ok b' ∧ Underway mode v f' b' := by
  obtain ⟨-, hsound, -, hout, -⟩ := Filter.feed_sound h.sound ht hturn hfeed
  have hbalance := Filter.balance_of_feed hfeed
  have hguards := h.guards
  cases mode with
  | tolerant =>
    obtain ⟨hnone, hmode⟩ := hguards
    simp only [hnone] at hbalance
    obtain ⟨b', hb', hmode', hstarting⟩ := Builder.exists_handleAll hmode h.starting hout
    exact ⟨b', hb', hsound, hstarting, hbalance, hmode'⟩
  | strict =>
    obtain ⟨bal, hbal, hstep⟩ := hguards
    simp only [hbal] at hbalance
    obtain ⟨bal', hbal', hfeedAll⟩ := hbalance
    obtain ⟨b', hb', hstep', hstarting⟩ := hstep.exists_handleAll h.starting hout hfeedAll
    exact ⟨b', hb', hsound, hstarting, bal', hbal', hstep'⟩

/-- A parse goes on until a token is refused by the count of open tags. -/
theorem run (h : Underway mode u f b) (hts : ∀ t ∈ ts, t.Spelled)
    (hturn : u.after? (ts.map Token.kind) = some v) :
    (∃ f' b', buildFiltered f b ts = .ok (f', b') ∧ Underway mode v f' b') ∨
      ∃ e front t back f' b', ts = front ++ t :: back ∧
        buildFiltered f b front = .ok (f', b') ∧ f'.Refuses t e ∧
          buildFiltered f b ts = .error e := by
  induction ts generalizing f b u with
  | nil =>
    obtain rfl := Option.some.inj hturn
    exact .inl ⟨f, b, rfl, h⟩
  | cons t ts ih =>
    obtain ⟨ht, hts⟩ := List.forall_mem_cons.mp hts
    obtain ⟨w, hw, hturn⟩ := Option.bind_eq_some_iff.mp hturn
    cases hfeed : f.feed t with
    | error e =>
      exact .inr ⟨e, [], t, ts, f, b, rfl, rfl, Filter.refuses_of_feed hfeed,
        by rw [buildFiltered, hfeed]⟩
    | ok r =>
      obtain ⟨f₁, out⟩ := r
      obtain ⟨b₁, hhandle, h₁⟩ := h.exists_handleAll ht hw hfeed
      have hstep (us : List Token) : buildFiltered f b (t :: us) = buildFiltered f₁ b₁ us := by
        simp only [buildFiltered, hfeed, hhandle]
      obtain ⟨f', b', hrun, h'⟩ | ⟨e, front, k, back, f', b', rfl, hfront, hrefuses, herror⟩ :=
        ih h₁ hts hturn
      · exact .inl ⟨f', b', by rw [hstep, hrun], h'⟩
      · exact .inr ⟨e, t :: front, k, back, f', b', rfl, by rw [hstep, hfront], hrefuses,
          by rw [hstep, herror]⟩

theorem of_run (h : Underway mode u f b) (hts : ∀ t ∈ ts, t.Spelled)
    (hturn : u.after? (ts.map Token.kind) = some v) (hrun : buildFiltered f b ts = .ok (f', b')) :
    Underway mode v f' b' := by
  obtain ⟨f₁, b₁, hok, h₁⟩ | ⟨e, -, -, -, -, -, -, -, -, herror⟩ := h.run hts hturn
  · rw [hrun] at hok
    cases hok
    exact h₁
  · rw [hrun] at herror
    cases herror

/-- Outside tags and blocks nothing is left to refuse, if no element is open by strict rules. -/
theorem exists_finish (h : Underway mode {} f b) (hopened : ∀ bal ∈ f.balance, bal.opened = []) :
    ∃ out b' d, f.finish = .ok out ∧ b.handleAll out = .ok b' ∧ b'.finish = .ok d := by
  have hfold : f.fold = none := by simpa using h.sound.folding.isSome_eq
  have hstarting : b.starting = none := by simpa [hfold, Filter.outTurn, Turn.unblocked] using
    h.starting
  have hfinish : f.finish = .ok (Held.tokens f.held) := by
    rw [Filter.finish, hfold]
    cases f.balance with
    | none => rfl
    | some bal => cases f.held <;> rfl
  have hopened' : (b.settle f.held).mode = .strict → (b.settle f.held).opened = [] := by
    rw [Builder.mode_settle]
    intro hstrict
    have hguards := h.guards
    cases mode with
    | tolerant =>
      rw [hguards.2] at hstrict
      cases hstrict
    | strict =>
      obtain ⟨bal, hbal, hstep⟩ := hguards
      have hnames : (b.settle f.held).openNames = [] := by
        rw [Builder.openNames_settle, ← hstep.opened, hopened bal hbal]
      exact List.map_eq_nil_iff.mp hnames
  obtain ⟨d, hd⟩ := Builder.exists_finish (by rw [Builder.starting_settle, hstarting]) hopened'
  exact ⟨_, _, d, hfinish, Builder.handleAll_tokens b f.held, hd⟩

/-- At the end of the document a strict parse fails if an element is open. -/
theorem run_documentEnd (h : Underway .strict {} f b) (hbal : f.balance = some bal)
    (l : Location) :
    match bal.opened with
    | [] => buildFiltered f b [⟨.documentEnd, "", l⟩] =
        .ok ({ f with held := none }, b.settle f.held)
    | name :: _ => buildFiltered f b [⟨.documentEnd, "", l⟩] =
        .error (.unbalanced name none l) := by
  have hfold : f.fold = none := by simpa using h.sound.folding.isSome_eq
  have hfeed : f.feed ⟨.documentEnd, "", l⟩ = _ := Filter.feed_other hfold hbal rfl rfl
  have hhandle : b.handleAll (Held.tokens f.held ++ [⟨.documentEnd, "", l⟩]) =
      .ok (b.settle f.held) := by
    rw [Builder.handleAll_append, Builder.handleAll_tokens]
    rfl
  rw [buildFiltered, hfeed, Balance.feed]
  cases hopened : bal.opened with
  | nil =>
    simp only [Except.map, hhandle, ← hbal]
    rfl
  | cons name names => simp only [Except.map]

/-- By strict rules the end of the document comes where no element is open. -/
theorem opened_of_documentEnd (h : Underway mode {} f b) {l : Location}
    (hrun : buildFiltered f b [⟨.documentEnd, "", l⟩] = .ok (f', b')) :
    ∀ bal ∈ f'.balance, bal.opened = [] := by
  cases mode with
  | tolerant =>
    have hspelled : ∀ t ∈ [(⟨.documentEnd, "", l⟩ : Token)], t.Spelled := by
      simp [Token.Spelled, TokenKind.spelling?]
    have h' : Underway .tolerant {} f' b' := h.of_run hspelled rfl hrun
    simp [h'.guards.1]
  | strict =>
    obtain ⟨bal, hbal, -⟩ := h.guards
    have hlast := h.run_documentEnd hbal l
    rw [hrun] at hlast
    split at hlast
    · next hopened =>
      cases hlast
      simpa [hbal] using hopened
    · cases hlast

end Underway

/-! ## Whole sources -/

section
variable (options : Options) (s : Source)

/-- The filter and the tree that a parse has come to when it has taken some tokens. -/
def parsed (ts : List Token) : Except ParseError (Filter × Builder) :=
  buildFiltered (.ofOptions options) { mode := options.mode } ts

theorem parseSource_eq : parseSource options s =
    (parsed options (tokenize options.mode s).tokens).bind fun (f, b) =>
      match (tokenize options.mode s).error with
      | some e => .error e
      | none => f.finish.bind fun out => (b.handleAll out).bind Builder.finish := by
  rfl

theorem parsed_append (ts us : List Token) : parsed options (ts ++ us) =
    (parsed options ts).bind fun (f, b) => buildFiltered f b us :=
  buildFiltered_append ..

variable {options s} {f : Filter} {b : Builder}

/-- At any token that was read, the filter and the tree are underway. -/
theorem underway_of_parsed {ts us : List Token}
    (hts : (tokenize options.mode s).tokens = ts ++ us) (h : parsed options ts = .ok (f, b)) :
    ∃ u v, Underway options.mode u f b ∧ u.after? (us.map Token.kind) = some v ∧
      ((tokenize options.mode s).error = none → v = {}) := by
  obtain ⟨hspelled, ⟨v, hturn, hend⟩, -⟩ := tokenize_faithful options.mode s
  rw [hts] at hspelled hturn
  rw [List.map_append, Turn.after?_append] at hturn
  obtain ⟨u, hu, hv⟩ := Option.bind_eq_some_iff.mp hturn
  have hfront : ∀ t ∈ ts, t.Spelled := fun t ht => hspelled t (List.mem_append_left us ht)
  exact ⟨u, v, (underway_ofOptions options).of_run hfront hu h, hv, hend⟩

/-- A parse that has taken all tokens of a source that was read to its end makes a document. -/
theorem exists_finish_of_parsed (herror : (tokenize options.mode s).error = none)
    (h : parsed options (tokenize options.mode s).tokens = .ok (f, b)) :
    ∃ out b' d, f.finish = .ok out ∧ b.handleAll out = .ok b' ∧ b'.finish = .ok d := by
  obtain ⟨u, v, hunder, hturn, hend⟩ := underway_of_parsed (List.append_nil _).symm h
  obtain rfl := Option.some.inj hturn
  obtain rfl := hend herror
  refine hunder.exists_finish ?_
  -- The last token is looked at where it is fed.
  obtain ⟨ts, l, hfront⟩ := exists_front herror
  rw [hfront.tokens, parsed_append] at h
  cases hparsed : parsed options ts with
  | error e =>
    rw [hparsed] at h
    cases h
  | ok r =>
    have hunder₁ := (underway_ofOptions options).of_run hfront.spelled hfront.turn hparsed
    rw [hparsed] at h
    exact hunder₁.opened_of_documentEnd h

/-- A parse that has taken all tokens makes a document, or has the error of reading. -/
theorem parseSource_of_parsed (h : parsed options (tokenize options.mode s).tokens = .ok (f, b)) :
    match (tokenize options.mode s).error with
    | none => ∃ d, parseSource options s = .ok d
    | some e => parseSource options s = .error e := by
  rw [parseSource_eq, h]
  simp only [Except.bind]
  split
  · next herror =>
    obtain ⟨out, b', d, hfinish, hhandle, hd⟩ := exists_finish_of_parsed herror h
    simp only [herror, hfinish, hhandle, hd]
    exact ⟨d, rfl⟩
  · next e herror => simp only [herror]

end

/-- Reading and the count of open tags are what refuses a source. Whatever tokens were taken, the
builder takes all that the filter makes of the next one, and nothing is refused at the end. So a
source that can be read is parsed by the tolerant rules, and one that cannot has the error that
reading has; and by the strict rules what is no error of reading comes from the count of open
tags. -/
theorem refusals_of_parseSource (options : Options) (s : Source) :
    let stream := tokenize options.mode s
    (∀ ts t us f b f' out, stream.tokens = ts ++ t :: us → parsed options ts = .ok (f, b) →
      f.feed t = .ok (f', out) → ∃ b', b.handleAll out = .ok b') ∧
    (∀ f b, stream.error = none → parsed options stream.tokens = .ok (f, b) →
      ∃ out b' d, f.finish = .ok out ∧ b.handleAll out = .ok b' ∧ b'.finish = .ok d) ∧
    (options.mode = .tolerant →
      match stream.error with
      | none => ∃ d, parseSource options s = .ok d
      | some e => parseSource options s = .error e) ∧
    (options.mode = .strict → ∀ e, parseSource options s = .error e →
      (stream.error = some e ∧ ∃ r, parsed options stream.tokens = .ok r) ∨
        ∃ ts t us f b, stream.tokens = ts ++ t :: us ∧ parsed options ts = .ok (f, b) ∧
          f.Refuses t e) := by
  intro stream
  obtain ⟨hspelled, ⟨v, hturn, -⟩, -⟩ := tokenize_faithful options.mode s
  have hrun := (underway_ofOptions options).run hspelled hturn
  refine ⟨?_, fun f b => exists_finish_of_parsed, ?_, ?_⟩
  · intro ts t us f b f' out hts hparsed hfeed
    obtain ⟨u, v, hunder, hturn, -⟩ := underway_of_parsed hts hparsed
    obtain ⟨w, hw, -⟩ := Option.bind_eq_some_iff.mp hturn
    obtain ⟨b', hb', -⟩ := hunder.exists_handleAll (hspelled t (by rw [hts]; simp)) hw hfeed
    exact ⟨b', hb'⟩
  · intro htolerant
    obtain ⟨f, b, hok, -⟩ | ⟨e, front, t, back, f, b, hfront, hparsed, ⟨bal, k, hbal, -⟩, -⟩ :=
      hrun
    · exact parseSource_of_parsed hok
    · obtain ⟨u, v, hunder, -⟩ := underway_of_parsed hfront hparsed
      have hguards := hunder.guards
      rw [htolerant] at hguards
      rw [hguards.1] at hbal
      cases hbal
  · intro hstrict e he
    obtain ⟨f, b, hok, -⟩ | ⟨e', front, t, back, f, b, hfront, hparsed, hrefuses, herror⟩ := hrun
    · refine .inl ⟨?_, _, hok⟩
      have hparse := parseSource_of_parsed hok
      split at hparse
      · obtain ⟨d, hd⟩ := hparse
        rw [he] at hd
        cases hd
      · next e' herror =>
        rw [he] at hparse
        rw [herror, Except.error.inj hparse]
    · rw [parseSource_eq, parsed, herror] at he
      obtain rfl := Except.error.inj he
      exact .inr ⟨front, t, back, f, b, hfront, hparsed, hrefuses⟩

end NaturalTemplate.Markup
