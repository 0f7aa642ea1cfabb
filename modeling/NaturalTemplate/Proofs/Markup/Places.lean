import NaturalTemplate.Proofs.Markup.Spacing

/-!
# Where tokens stand

The tokens of a source follow each other without a gap, and each stands where its text begins, the
parts of a start tag behind its name apart. Where comments are kept, this is still so behind the
filter; where they are discarded, no token comes out of the filter at a place at which none went in,
and the places keep their order.
-/
namespace NaturalTemplate.Markup
open Lexeme

/-- Whether a token is a part of a start tag behind its name. -/
def TokenKind.isInner : TokenKind → Bool
  | .attribute .. | .tagStartEnd .. => true
  | _ => false

/-- Whether something begins with a token, if not the document. -/
def TokenKind.isPlaced : TokenKind → Bool
  | .documentStart | .documentEnd | .attribute .. | .tagStartEnd .. => false
  | _ => true

/-- The places at which something begins. -/
def Token.places (ts : List Token) : List Location :=
  (ts.filter fun t => t.kind.isPlaced).map Token.location

/-- Whether tokens that follow each other from a position on stand where their texts begin. -/
def Token.StandFrom (p : Position) : List Token → Prop
  | [] => True
  | t :: ts =>
    (t.kind.isInner = false → t.location = p.location) ∧ StandFrom (p.advanceBy t.raw.toList) ts

theorem TokenKind.isInner_of_isPlaced {k : TokenKind} (h : k.isPlaced = true) :
    k.isInner = false := by
  cases k <;> simp_all [isPlaced, isInner]

namespace Token

@[simp]
theorem places_nil : places [] = [] := rfl

theorem places_cons {t : Token} (ts : List Token) (h : t.kind.isPlaced = true) :
    places (t :: ts) = t.location :: places ts := by
  simp [places, h]

theorem places_cons_of_not {t : Token} (ts : List Token) (h : t.kind.isPlaced = false) :
    places (t :: ts) = places ts := by
  simp [places, h]

@[simp]
theorem places_append (ts us : List Token) : places (ts ++ us) = places ts ++ places us := by
  simp [places]

theorem places_cons_append (t : Token) (ts : List Token) :
    places (t :: ts) = places [t] ++ places ts :=
  places_append [t] ts

end Token

theorem Token.standFrom_append {p : Position} {ts us : List Token} :
    StandFrom p (ts ++ us) ↔
      StandFrom p ts ∧ StandFrom (p.advanceBy (rawText ts).toList) us := by
  induction ts generalizing p with
  | nil => simp [StandFrom]
  | cons t ts ih =>
    simp only [List.cons_append, StandFrom, ih, rawText_cons, String.toList_append,
      Position.advanceBy_append, and_assoc]

/-! ## Reading -/

theorem Token.Tile.standFrom {p : Position} {ts : List Token} (h : Tile p ts) : StandFrom p ts := by
  induction ts generalizing p with
  | nil => trivial
  | cons t ts ih =>
    refine ⟨fun hinner => ?_, ih h.2⟩
    have hspacing : upToSlash t.kind.spacing = "" := by
      cases hkind : t.kind <;> simp_all [TokenKind.isInner, TokenKind.spacing, upToSlash]
    rw [h.1, hspacing, String.toList_empty, Position.advanceBy_nil]

theorem tokenize_standFrom (mode : Mode) (s : Source) :
    Token.StandFrom .start (tokenize mode s).tokens :=
  (tokenize_tile mode s).standFrom

/-- Whether tokens that have a place have a text. -/
def Token.Solid (ts : List Token) : Prop := ∀ t ∈ ts, t.kind.isPlaced = true → t.raw ≠ ""

theorem Lexeme.solid_lexemes (p : Position) (tag : Tag) : Token.Solid (locate p tag.lexemes) := by
  have hparts : ∀ l ∈ Tag.partLexemes tag.attributes tag.trailing tag.selfClosing,
      l.kind.isPlaced = false := by
    intro l hl
    simp only [Tag.partLexemes, List.mem_append, List.mem_map, List.mem_singleton] at hl
    obtain ⟨a, -, rfl⟩ | rfl := hl <;> rfl
  intro t ht hplaced
  rw [Tag.lexemes, locate, List.mem_cons] at ht
  obtain rfl | ht := ht
  · simp
  · have hkind : t.kind.isPlaced = false :=
      forall_kind_locate (q := fun k => k.isPlaced = false) hparts _ t ht
    rw [hkind] at hplaced
    cases hplaced

theorem Lexeme.solid_of_scanUnit {mode : Mode} {inBlock : Bool} {c : Char} {cs rest : List Char}
    {ls : List Lexeme} (h : scanUnit mode none inBlock (c :: cs) = .ok (ls, rest))
    (p : Position) : Token.Solid (locate p ls) := by
  obtain ⟨l, rfl, -⟩ | ⟨tag, -, rfl⟩ := exists_of_scanUnit h
  · have hraw := scanUnit_rawText_ne_nil (List.cons_ne_nil c cs) h
    intro t ht _
    obtain rfl := List.mem_singleton.mp ht
    simpa using hraw
  · exact solid_lexemes p tag

theorem Token.Solid.append {ts us : List Token} (hts : Solid ts) (hus : Solid us) :
    Solid (ts ++ us) := fun t ht =>
  (List.mem_append.mp ht).elim (hts t) (hus t)

theorem Tokens.read_solid (mode : Mode) (p : Position) (block : Option Location)
    (body : Option String) (cs : List Char) :
    Token.Solid (read mode none p block body cs).tokens := by
  fun_induction read mode none p block body cs with
  | case1 | case4 | case5 | case7 => simp [Token.Solid]
  | case2 p block name cs text rest hrun after hempty ih => exact ih
  | case3 p block name cs text rest hrun after hempty ih =>
    refine Token.Solid.append ?_ ih
    simpa [Token.Solid, Token.text, TokenKind.isPlaced] using hempty
  | case6 p => simp [Token.Solid, TokenKind.isPlaced]
  | case8 p block c cs ls rest hunit ih => exact (solid_of_scanUnit hunit p).append ih

/-- Tokens that stand where their texts begin and have texts stand further on from token to
token. -/
theorem Token.StandFrom.pairwise {p : Position} {ts : List Token} (h : StandFrom p ts)
    (hsolid : Solid ts) :
    (places ts).Pairwise (fun l k => l.offset < k.offset) ∧ ∀ l ∈ places ts,
      p.location.offset ≤ l.offset ∧
        l.offset < (p.advanceBy (rawText ts).toList).location.offset := by
  induction ts generalizing p with
  | nil => simp
  | cons t ts ih =>
    obtain ⟨hplace, hrest⟩ := h
    obtain ⟨ht, hsolid⟩ := List.forall_mem_cons.mp hsolid
    obtain ⟨hpairwise, hbounds⟩ := ih hrest hsolid
    have hoffset : (p.advanceBy t.raw.toList).location.offset =
        p.location.offset + t.raw.utf8ByteSize := by
      rw [Position.offset_advanceBy, String.ofList_toList]
    rw [hoffset] at hbounds
    rw [rawText_cons, String.toList_append, Position.advanceBy_append]
    cases hkind : t.kind.isPlaced with
    | false =>
      rw [places_cons_of_not ts hkind]
      exact ⟨hpairwise, fun l hl => ⟨by have := (hbounds l hl).1; omega, (hbounds l hl).2⟩⟩
    | true =>
      have hsize : t.raw.utf8ByteSize ≠ 0 := by simpa using ht hkind
      rw [places_cons ts hkind, hplace (TokenKind.isInner_of_isPlaced hkind)]
      refine ⟨List.pairwise_cons.mpr ⟨fun k hk => ?_, hpairwise⟩, List.forall_mem_cons.mpr
        ⟨⟨le_rfl, ?_⟩, fun k hk => ⟨?_, (hbounds k hk).2⟩⟩⟩
      · have := (hbounds k hk).1
        omega
      · rw [Position.offset_advanceBy, hoffset]
        omega
      · have := (hbounds k hk).1
        omega

/-- Constructs begin further on from one to the next, and before the end of the source. -/
theorem tokenize_pairwise {mode : Mode} {s : Source} (h : (tokenize mode s).error = none) :
    (Token.places (tokenize mode s).tokens).Pairwise (fun l k => l.offset < k.offset) ∧
      ∀ l ∈ Token.places (tokenize mode s).tokens,
        l.offset < (Position.start.advanceBy s.chars).location.offset := by
  have hsolid : Token.Solid (tokenize mode s).tokens := by
    obtain ⟨cs, failure⟩ := s
    cases failure with
    | some f => exact (Tokens.read_error_ne_none _ f _ _ _ _ h).elim
    | none =>
      refine Token.Solid.append ?_ (Tokens.read_solid mode .start none none cs)
      simp [Token.Solid, TokenKind.isPlaced]
  obtain ⟨hpairwise, hbounds⟩ := (tokenize_standFrom mode s).pairwise hsolid
  rw [(tokenize_faithful mode s).text h, String.toList_ofList] at hbounds
  exact ⟨hpairwise, fun l hl => (hbounds l hl).2⟩

/-! ## The filter -/

namespace Filter

variable {f f' : Filter} {t k : Token} {ts out : List Token} {u v : Turn}

/-- The places of what a filter holds back. -/
def places (f : Filter) : List Location :=
  (f.held.map Held.location).toList ++ (f.fold.map Fold.location).toList

@[simp]
theorem places_tokens (held : Option Held) :
    Token.places (Held.tokens held) = (held.map Held.location).toList := by
  cases held <;> rfl

/-- A comment stays where it is. -/
theorem location_of_feedComment {policy : CommentPolicy} (h : feedComment policy t = some k) :
    k.location = t.location ∧ k.kind.isInner = t.kind.isInner ∧
      k.kind.isPlaced = t.kind.isPlaced := by
  unfold feedComment at h
  split at h
  · cases h
  · next hkind =>
    obtain rfl := Option.some.inj h
    rw [hkind]
    exact ⟨rfl, rfl, rfl⟩
  · obtain rfl := Option.some.inj h
    exact ⟨rfl, rfl, rfl⟩

theorem places_of_feedComment {policy : CommentPolicy} (h : feedComment policy t = some k) :
    Token.places [k] = Token.places [t] := by
  obtain ⟨hlocation, -, hplaced⟩ := location_of_feedComment h
  cases ht : t.kind.isPlaced <;> simp [Token.places, hplaced, ht, hlocation]

/-- Whether no block is folded where blocks are unwrapped. -/
def UnfoldsBlocks (f : Filter) : Prop := f.comments = .discard → f.fold = none

/-- The first stage hands on no place at which no token went in. -/
theorem places_feedBlock (policy : CommentPolicy) {fold : Option Fold}
    (hf : policy = .discard → fold = none) (t : Token) :
    (Token.places (feedBlock policy fold t).2.toList ++
      ((feedBlock policy fold t).1.map Fold.location).toList).Sublist
        ((fold.map Fold.location).toList ++ Token.places [t]) := by
  cases policy with
  | discard =>
    rw [hf rfl, feedBlock_discard]
    split <;> simp
  | keep =>
    cases fold with
    | none =>
      by_cases hstart : t.kind = .blockStart
      · simp [feedBlock, hstart, Token.places, TokenKind.isPlaced]
      · simp [feedBlock_keep_none hstart]
    | some g =>
      by_cases hend : t.kind = .blockEnd
      · simp [feedBlock, hend, Fold.toComment, Token.places, TokenKind.isPlaced]
      · simp [feedBlock_keep_some g hend]

theorem places_feedText (held : Option Held) (t : Token) :
    (Token.places (feedText held t).2 ++
      ((feedText held t).1.map Held.location).toList).Sublist
        ((held.map Held.location).toList ++ Token.places [t]) := by
  cases ht : t.isText with
  | false => simp [feedText_of_not held ht]
  | true =>
    obtain ⟨content, hkind⟩ := Token.exists_of_isText ht
    rw [feedText_text held hkind, Token.places_cons [] (by rw [hkind]; rfl)]
    cases held <;> simp [Held.more]

theorem places_feed (hf : f.UnfoldsBlocks) (h : f.feed t = .ok (f', out)) :
    f'.UnfoldsBlocks ∧ (Token.places out ++ f'.places).Sublist (f.places ++ Token.places [t]) := by
  obtain ⟨hcomments, hfold, hout⟩ := feed_eq_ok h
  have hblock := places_feedBlock f.comments hf t
  rw [← hfold] at hblock
  refine ⟨fun hdiscard => ?_, ?_⟩
  · rw [hcomments] at hdiscard
    rw [hfold, hf hdiscard, hdiscard, feedBlock_discard]
  · unfold places
    split at hout
    · obtain ⟨hheld, rfl⟩ := Prod.mk.inj hout
      rw [hheld, Token.places_nil, List.nil_append, List.append_assoc]
      exact ((List.sublist_append_right _ _).trans hblock).append_left _
    · next k hk =>
      obtain ⟨hheld, rfl⟩ := Prod.mk.inj hout
      have htext := places_feedText f.held k
      obtain ⟨k₁, hk₁, hcomment⟩ := Option.bind_eq_some_iff.mp hk
      rw [hk₁, Option.toList_some, ← places_of_feedComment hcomment] at hblock
      rw [hheld, ← List.append_assoc, List.append_assoc _ _ (Token.places [t])]
      refine (htext.append_right _).trans ?_
      rw [List.append_assoc]
      exact hblock.append_left _

/-- The places of what comes out of a filter are some of those of what went in, in their order. -/
theorem Feeds.places {f f' : Filter} (h : Feeds f ts f' out) (hf : f.UnfoldsBlocks) :
    (Token.places out ++ f'.places).Sublist (f.places ++ Token.places ts) := by
  induction h with
  | nil f => simp
  | @cons f f₁ f' t ts out outs hfeed _ ih =>
    obtain ⟨hf₁, hstep⟩ := places_feed hf hfeed
    rw [Token.places_append, List.append_assoc]
    refine ((ih hf₁).append_left _).trans ?_
    rw [Token.places_cons_append t, ← List.append_assoc, ← List.append_assoc]
    exact hstep.append_right _

/-- What comes out of a filter comes in turn. -/
theorem Feeds.turn {f f' : Filter} (h : Feeds f ts f' out) (hf : f.Sound u)
    (hts : ∀ t ∈ ts, t.Spelled) (hturn : u.after? (ts.map Token.kind) = some v) :
    (outTurn f.fold u).after? (out.map Token.kind) = some (outTurn f'.fold v) := by
  induction h generalizing u with
  | nil f =>
    obtain rfl := Option.some.inj hturn
    rfl
  | cons hfeed _ ih =>
    obtain ⟨ht, hts⟩ := List.forall_mem_cons.mp hts
    obtain ⟨w, hw, hturn⟩ := Option.bind_eq_some_iff.mp hturn
    obtain ⟨-, hf₁, -, hstep, -⟩ := feed_sound hf ht hw hfeed
    rw [List.map_append, Turn.after?_append, hstep, Option.bind_some]
    exact ih hf₁ hts hturn

/-! ### Where comments are kept -/

/-- Whether what a filter holds back stands where its texts begin, if all that came out of the
filter ends at a position. -/
structure StandsFrom (f : Filter) (q : Position) : Prop where
  held : ∀ h ∈ f.held, h.location = q.location
  fold : ∀ g ∈ f.fold, g.location = (q.advanceBy (Held.text f.held).toList).location

/-- The first stages keep a token where it is, or put a block where its mark was. -/
theorem location_of_stages {fold : Option Fold} {l : Location} (hfold : ∀ g ∈ fold, g.location = l)
    (ht : fold = none → t.kind.isInner = false → t.location = l) :
    (∀ g ∈ (feedBlock .keep fold t).1, g.location = l) ∧
      ∀ k, (feedBlock .keep fold t).2.bind (feedComment .keep) = some k →
        (feedBlock .keep fold t).1 = none ∧ (k.kind.isInner = false → k.location = l) := by
  cases fold with
  | none =>
    by_cases hstart : t.kind = .blockStart
    · simp [feedBlock, hstart, ← ht rfl (by rw [hstart]; rfl)]
    · rw [feedBlock_keep_none hstart]
      refine ⟨by simp, fun k hk => ⟨rfl, fun hinner => ?_⟩⟩
      obtain ⟨hlocation, hkind, -⟩ := location_of_feedComment hk
      rw [hlocation]
      exact ht rfl (hkind ▸ hinner)
  | some g =>
    by_cases hend : t.kind = .blockEnd
    · refine ⟨by simp [feedBlock, hend], fun k hk => ⟨by simp [feedBlock, hend], fun _ => ?_⟩⟩
      simp only [feedBlock, hend, Option.bind_some] at hk
      rw [(location_of_feedComment hk).1]
      exact hfold g rfl
    · rw [feedBlock_keep_some g hend]
      exact ⟨by simpa using hfold g rfl, by simp⟩

theorem standsFrom_feed (hkeep : f.comments = .keep) {q : Position} (hf : f.StandsFrom q)
    (ht : Token.StandFrom (q.advanceBy f.pending.toList) [t]) (h : f.feed t = .ok (f', out)) :
    Token.StandFrom q out ∧ f'.StandsFrom (q.advanceBy (Token.rawText out).toList) := by
  obtain ⟨-, hfold, hout⟩ := feed_eq_ok h
  rw [hkeep] at hfold hout
  have hplace : f.fold = none → t.kind.isInner = false →
      t.location = (q.advanceBy (Held.text f.held).toList).location := by
    intro hnone
    simpa [pending, hnone] using ht.1
  obtain ⟨hfolded, hstages⟩ := location_of_stages hf.fold hplace
  rw [← hfold] at hfolded hstages
  split at hout
  -- A token inside a block comes out later, as part of it.
  · obtain ⟨hheld, rfl⟩ := Prod.mk.inj hout
    exact ⟨trivial, by rw [hheld]; exact hf.held, by rw [hheld]; exact hfolded⟩
  · next k hk =>
    obtain ⟨hnone, hlocation⟩ := hstages k hk
    cases htext : k.isText with
    | true =>
      obtain ⟨content, hkind⟩ := Token.exists_of_isText htext
      rw [feedText_text f.held hkind] at hout
      obtain ⟨hheld, rfl⟩ := Prod.mk.inj hout
      refine ⟨trivial, fun m hm => ?_, by simp [hnone]⟩
      rw [hheld] at hm
      obtain rfl := Option.some.inj hm
      have hk := hlocation (by rw [hkind]; rfl)
      cases hprevious : f.held with
      | none => simpa [Held.more, hprevious] using hk
      | some previous => exact hf.held previous hprevious
    | false =>
      rw [feedText_of_not f.held htext] at hout
      obtain ⟨hheld, rfl⟩ := Prod.mk.inj hout
      refine ⟨Token.standFrom_append.mpr ⟨?_, ?_, trivial⟩, by simp [hheld], by simp [hnone]⟩
      · cases hprevious : f.held with
        | none => trivial
        | some previous => exact ⟨fun _ => hf.held previous hprevious, trivial⟩
      · intro hinner
        rw [hlocation hinner]
        cases f.held <;> simp [Held.tokens, Held.toToken]

/-- Where comments are kept, what comes out of a filter stands where its text begins if what went
in did. -/
theorem Feeds.standFrom {f f' : Filter} (h : Feeds f ts f' out) (hkeep : f.comments = .keep)
    {q : Position} (hf : f.StandsFrom q) (hsound : f.Sound u) (hspelled : ∀ t ∈ ts, t.Spelled)
    (hturn : u.after? (ts.map Token.kind) = some v)
    (hts : Token.StandFrom (q.advanceBy f.pending.toList) ts) :
    Token.StandFrom q (out ++ Held.tokens f'.held) := by
  induction h generalizing q u with
  | nil f =>
    cases hheld : f.held with
    | none => trivial
    | some held => exact ⟨fun _ => hf.held held hheld, trivial⟩
  | @cons f f₁ f' t ts out outs hfeed _ ih =>
    obtain ⟨ht, hspelled⟩ := List.forall_mem_cons.mp hspelled
    obtain ⟨w, hw, hturn⟩ := Option.bind_eq_some_iff.mp hturn
    obtain ⟨hcomments, hsound₁, -, -, htext⟩ := feed_sound hsound ht hw hfeed
    obtain ⟨hout, hf₁⟩ := standsFrom_feed hkeep hf ⟨hts.1, trivial⟩ hfeed
    rw [List.append_assoc, Token.standFrom_append]
    -- What came out and what is pending have the text of what was pending and of the token.
    refine ⟨hout, ih (hcomments.trans hkeep) hf₁ hsound₁ hspelled hturn ?_⟩
    have hraw : f.comments.keptText t = t.raw := by simp [hkeep, CommentPolicy.keptText]
    rw [hraw] at htext
    rw [← Position.advanceBy_append, ← String.toList_append, ← htext, String.toList_append,
      Position.advanceBy_append]
    exact hts.2

end Filter
end NaturalTemplate.Markup
