import NaturalTemplate.Proofs.Markup.Blocks
import NaturalTemplate.Proofs.Markup.Trees

/-!
# What the first stages of the filter leave

To the builder, a source that was read by the strict rules is a sequence of tags, texts and leaves;
blocks are unwrapped or folded into one comment, and comments for the parser are dropped or made
ordinary ones. Each leaf is read and filtered again to what it is, wherever its text stands.
-/
namespace NaturalTemplate.Markup
open Lexeme

/-- The node that is no element that a token becomes. -/
def TokenKind.leaf? (k : TokenKind) (l : Location) : Option Node :=
  match k with
  | .comment _ content => some (.comment content l)
  | .cdata content => some (.cdata content l)
  | .docType content => some (.docType content l)
  | .instruction content => some (.instruction content l)
  | _ => none

def Token.leaf? (t : Token) : Option Node := t.kind.leaf? t.location

theorem TokenKind.leaf?_unplaced {k : TokenKind} {l : Location} {n : Node} (h : k.leaf? l = some n)
    (l' : Location) : ∃ m, k.leaf? l' = some m ∧ m.unplaced = n.unplaced := by
  cases k <;> simp_all [leaf?] <;> subst h <;> rfl

theorem Token.render_of_leaf? {t : Token} {n : Node} (h : t.leaf? = some n) (ht : t.Spelled)
    (hkind : t.kind.isParserComment = false) : n.render = t.raw := by
  unfold leaf? at h
  unfold Spelled at ht
  generalize t.kind = k at h ht hkind
  cases k with
  | comment kind content =>
    cases kind with
    | parserLevel => simp [TokenKind.isParserComment] at hkind
    | normal =>
      cases h
      exact (ht _ rfl).symm
  | cdata content | docType content | instruction content =>
    cases h
    exact (ht _ rfl).symm
  | _ => simp [TokenKind.leaf?] at h

/-! ## Tokens that are filtered alike -/

/-- Whether tokens are filtered alike where no block is open. -/
def Alike (policy : CommentPolicy) (ts us : List Token) : Prop :=
  ∀ (f : Filter) (b : Builder), f.comments = policy → f.fold = none →
    buildFiltered f b ts = buildFiltered f b us

namespace Alike

variable {policy : CommentPolicy} {ts us vs : List Token} {t k : Token}

theorem refl (ts : List Token) : Alike policy ts ts := fun _ _ _ _ => rfl

theorem trans (h : Alike policy ts us) (h' : Alike policy us vs) : Alike policy ts vs :=
  fun f b hf hfold => (h f b hf hfold).trans (h' f b hf hfold)

end Alike

theorem Filter.feedBlock_of_not {policy : CommentPolicy} {t : Token}
    (h : t.kind.isBlockMark = false) : feedBlock policy none t = (none, some t) := by
  unfold TokenKind.isBlockMark at h
  cases policy <;> cases hk : t.kind <;> simp_all [feedBlock]

/-- What is left of a filter after a token outside a block. -/
theorem Filter.feed_outside {f f' : Filter} {t : Token} {ts : List Token} (hfold : f.fold = none)
    (hstart : t.kind ≠ .blockStart) (h : f.feed t = .ok (f', ts)) :
    f'.comments = f.comments ∧ f'.fold = none := by
  have hblock : (feedBlock f.comments none t).1 = none := by
    cases f.comments <;> cases hk : t.kind <;> simp_all [feedBlock]
  unfold feed at h
  rw [hfold] at h
  generalize feedBlock f.comments none t = r at h hblock
  obtain ⟨fold, o⟩ := r
  obtain rfl : fold = none := hblock
  simp only at h
  split at h
  · cases h
    exact ⟨rfl, rfl⟩
  · split at h
    · cases h
      exact ⟨rfl, rfl⟩
    · split at h
      · simp at h
      · cases h
        exact ⟨rfl, rfl⟩

namespace Alike

variable {policy : CommentPolicy} {ts us vs : List Token} {t k : Token}

theorem cons (ht : t.kind ≠ .blockStart) (h : Alike policy ts us) :
    Alike policy (t :: ts) (t :: us) := by
  intro f b hf hfold
  simp only [buildFiltered]
  split
  · rfl
  · next f' filtered hfeed =>
    obtain ⟨hcomments, hfold'⟩ := Filter.feed_outside hfold ht hfeed
    split
    · rfl
    · exact h _ _ (hcomments.trans hf) hfold'

theorem append (hvs : ∀ t ∈ vs, t.kind ≠ .blockStart) (h : Alike policy ts us) :
    Alike policy (vs ++ ts) (vs ++ us) := by
  induction vs with
  | nil => exact h
  | cons t vs ih =>
    obtain ⟨ht, hvs⟩ := List.forall_mem_cons.mp hvs
    exact (ih hvs).cons ht

/-- A token is filtered like what it becomes as a comment. -/
theorem of_feedComment (ht : t.kind.isBlockMark = false) (hk : k.isParserOnly = false)
    (h : Filter.feedComment policy t = some k) (ts : List Token) :
    Alike policy (t :: ts) (k :: ts) := by
  rintro ⟨comments, fold, held, balance⟩ b rfl hfold
  obtain rfl : fold = none := hfold
  simp only [Token.isParserOnly, Bool.or_eq_false_iff] at hk
  have hfeed : ∀ f : Filter, f.comments = comments → f.fold = none → f.feed t = f.feed k := by
    rintro ⟨comments, fold, held, balance⟩ rfl hfold
    obtain rfl : fold = none := hfold
    simp only [Filter.feed, Filter.feedBlock_of_not ht, Filter.feedBlock_of_not hk.2,
      Option.bind_some, h, Filter.feedComment_of_not hk.1]
  simp only [buildFiltered, hfeed ⟨comments, none, held, balance⟩ rfl rfl]

theorem of_feedComment_eq_none (ht : t.kind.isBlockMark = false)
    (h : Filter.feedComment policy t = none) (ts : List Token) : Alike policy (t :: ts) ts := by
  rintro ⟨comments, fold, held, balance⟩ b rfl hfold
  obtain rfl : fold = none := hfold
  simp [buildFiltered, Filter.feed, Filter.feedBlock_of_not ht, h, Builder.handleAll]

theorem of_blockMark (ht : t.kind.isBlockMark = true) (ts : List Token) :
    Alike .discard (t :: ts) ts := by
  rintro ⟨comments, fold, held, balance⟩ b rfl hfold
  obtain rfl : fold = none := hfold
  simp [buildFiltered, Filter.feed, Filter.feedBlock_discard, ht, Builder.handleAll]

end Alike

/-! ## Folded blocks -/

/-- In a block that is folded, tokens only add their text. -/
theorem buildFiltered_folding {f : Filter} (hf : f.comments = .keep) (b : Builder)
    {ts : List Token} (hts : ∀ t ∈ ts, t.kind.isBlockMark = false) (g : Fold) (us : List Token) :
    buildFiltered { f with fold := some g } b (ts ++ us) =
      buildFiltered { f with fold := some { g with raw := g.raw ++ Token.rawText ts } } b us := by
  induction ts generalizing g with
  | nil => simp
  | cons t ts ih =>
    obtain ⟨ht, hts⟩ := List.forall_mem_cons.mp hts
    have hend : t.kind ≠ .blockEnd := by
      intro hk
      simp [hk, TokenKind.isBlockMark] at ht
    have hfeed : Filter.feed { f with fold := some g } t =
        .ok ({ f with fold := some { g with raw := g.raw ++ t.raw } }, []) := by
      simp [Filter.feed, hf, Filter.feedBlock_keep_some g hend]
    rw [List.cons_append, buildFiltered, hfeed]
    simp only [Builder.handleAll]
    rw [ih hts]
    simp [String.append_assoc]

/-- A block is filtered like the comment that it becomes. -/
theorem Alike.of_block {start stop : Token} {inner : List Token} (hstart : start.kind = .blockStart)
    (hstop : stop.kind = .blockEnd) (hinner : ∀ t ∈ inner, t.kind.isBlockMark = false)
    (us : List Token) :
    Alike .keep (start :: (inner ++ stop :: us))
      (Fold.toComment ⟨start.location, start.raw ++ Token.rawText inner ++ stop.raw⟩ :: us) := by
  rintro ⟨comments, fold, held, balance⟩ b hf hfold
  obtain rfl : comments = .keep := hf
  obtain rfl : fold = none := hfold
  have hopen : Filter.feed ⟨.keep, none, held, balance⟩ start =
      .ok (⟨.keep, some ⟨start.location, start.raw⟩, held, balance⟩, []) := by
    simp [Filter.feed, Filter.feedBlock, hstart]
  have hfolding := @buildFiltered_folding ⟨.keep, none, held, balance⟩ rfl b inner hinner
    ⟨start.location, start.raw⟩ (stop :: us)
  rw [buildFiltered, hopen]
  simp only [Builder.handleAll]
  have hclose : ∀ g : Fold, Filter.feed ⟨.keep, some g, held, balance⟩ stop =
      Filter.feed ⟨.keep, none, held, balance⟩
        { g with raw := g.raw ++ stop.raw : Fold }.toComment := by
    intro g
    simp [Filter.feed, Filter.feedBlock, hstop, Fold.toComment]
  rw [hfolding, buildFiltered, hclose, buildFiltered]

/-! ## Leaves -/

/-- Whether a node that is no element is read and filtered to itself wherever its text stands. -/
structure Readable (policy : CommentPolicy) (n : Node) : Prop where
  opens : ∀ rest, opensMarkup none (n.render.toList ++ rest) = .ok true
  read : ∀ (p : Position) (rest : List Char), ∃ ts t m,
    Tokens.read .strict none p none none (n.render.toList ++ rest) =
      (Tokens.read .strict none (p.advanceBy n.render.toList) none none rest).prepend ts ∧
    (∀ us, Alike policy (ts ++ us) (t :: us)) ∧ t.isParserOnly = false ∧ t.leaf? = some m ∧
    m.unplaced = n.unplaced

theorem Filter.feedComment_location {policy : CommentPolicy} {t k : Token}
    (h : feedComment policy t = some k) (l : Location) :
    feedComment policy { t with location := l } = some { k with location := l } := by
  obtain ⟨kind, raw, location⟩ := t
  unfold feedComment at h ⊢
  split at h <;> simp_all
  · subst h
    exact ⟨rfl, rfl⟩
  · subst h
    exact ⟨rfl, rfl⟩

theorem Filter.exists_leaf?_of_feedComment {policy : CommentPolicy} {t k : Token}
    (ht : t.kind.isLeaf = true) (h : feedComment policy t = some k) : ∃ n, k.leaf? = some n := by
  unfold feedComment at h
  split at h
  · simp at h
  · cases h
    exact ⟨_, rfl⟩
  · cases h
    unfold Token.leaf?
    generalize t.kind = kind at ht
    cases kind <;> simp_all [TokenKind.isLeaf, TokenKind.leaf?]

theorem TokenKind.isBlockMark_of_isLeaf {k : TokenKind} (h : k.isLeaf = true) :
    k.isBlockMark = false := by
  cases k <;> simp_all [isLeaf, isBlockMark]

theorem Lexeme.Closed.spelled {ls : List Lexeme} (h : Closed ls) : ∀ l ∈ ls, l.Spelled :=
  (@isUnit_of_scanUnit .strict none _ [] none ls (h.scanUnit false [])).1

/-- A leaf that was read is read again. -/
theorem readable_of_closed {policy : CommentPolicy} {l : Lexeme} {place : Location} {k : Token}
    {n : Node} (hclosed : Closed [l]) (hleaf : l.kind.isLeaf = true)
    (hk : Filter.feedComment policy ⟨l.kind, String.ofList l.raw, place⟩ = some k)
    (hn : k.leaf? = some n) : Readable policy n := by
  have hmark := TokenKind.isBlockMark_of_isLeaf hleaf
  have hspelled : Token.Spelled ⟨l.kind, String.ofList l.raw, place⟩ := hclosed.spelled l (by simp)
  obtain ⟨⟨hk', honly⟩, hraw⟩ := Filter.feedComment_eq_some hspelled hmark hk
  have hcomment : k.kind.isParserComment = false := by
    simp only [Token.isParserOnly, Bool.or_eq_false_iff] at honly
    exact honly.1
  have htext : n.render.toList = rawText [l] := by
    rw [Token.render_of_leaf? hn hk' hcomment, hraw]
    simp
  constructor
  · rw [htext]
    exact hclosed.opens
  · intro p rest
    have hblock := (Shape.leaf true hleaf hclosed).blockAfter_eq none p.location
    have hread := Tokens.read_closed hclosed hblock rest
    let place' := (p.advanceBy l.lead).location
    obtain ⟨m, hm, heq⟩ := TokenKind.leaf?_unplaced hn place'
    have halike := @Alike.of_feedComment policy _ { k with location := place' } hmark honly
      (Filter.feedComment_location hk place')
    refine ⟨locate p [l], { k with location := place' }, m, ?_, halike, honly, hm, heq⟩
    rw [htext, hread]

theorem opensMarkup_blockStart (rest : List Char) :
    opensMarkup none (Mark.blockStart ++ rest) = .ok true := by
  rw [opensMarkup_none]
  rfl

theorem scanUnit_blockStart (rest : List Char) :
    scanUnit .strict none false (Mark.blockStart ++ rest) =
      .ok ([⟨.blockStart, Mark.blockStart⟩], rest) := by
  have hmark : Mark.blockStart.isPrefixOf (Mark.blockStart ++ rest) = true := by simp
  rw [scanUnit_of_opens false (opensMarkup_blockStart rest), scanMarkup, construct_none,
    if_pos hmark]
  rfl

theorem Tokens.Inner.kinds {ls : List Lexeme} (h : Tokens.Inner ls) :
    ∀ l ∈ ls, l.kind.isBlockMark = false := by
  intro l hl
  obtain hshape | ⟨text, -, rfl⟩ := h
  · cases hshape with
    | tag _ ht =>
      simp only [Tag.lexemes, Tag.partLexemes, List.mem_cons, List.mem_append, List.mem_map,
        List.not_mem_nil, or_false] at hl
      obtain rfl | ⟨a, -, rfl⟩ | rfl := hl <;> rfl
    | endTag _ hname hspace =>
      rw [List.mem_singleton.mp hl]
      rfl
    | leaf _ hkind hclosed =>
      rw [List.mem_singleton.mp hl]
      exact TokenKind.isBlockMark_of_isLeaf hkind
  · rw [List.mem_singleton.mp hl]
    rfl

theorem Lexeme.forall_kind_locate {q : TokenKind → Prop} {ls : List Lexeme}
    (h : ∀ l ∈ ls, q l.kind) (p : Position) : ∀ t ∈ locate p ls, q t.kind := by
  intro t ht
  have hmem : t.kind ∈ (locate p ls).map Token.kind := List.mem_map_of_mem ht
  rw [map_kind_locate] at hmem
  obtain ⟨l, hl, hkind⟩ := List.mem_map.mp hmem
  rw [← hkind]
  exact h l hl

/-- The comment that a block at some place is folded into. -/
def blockComment (l : Location) (inner : List Lexeme) : Token :=
  Fold.toComment ⟨l, "<!--/*/" ++ String.ofList (rawText inner) ++ "/*/-->"⟩

theorem alike_blockComment {units : List (List Lexeme)} (hunits : ∀ ls ∈ units, Tokens.Inner ls)
    (p q : Position) (us : List Token) :
    Alike .keep (locate p [⟨.blockStart, Mark.blockStart⟩] ++
        (locate q (units.flatten ++ [⟨.blockEnd, Mark.blockEnd⟩]) ++ us))
      (blockComment p.location units.flatten :: us) := by
  have hkinds : ∀ l ∈ units.flatten, l.kind.isBlockMark = false := by
    intro l hl
    obtain ⟨ls, hls, hl⟩ := List.mem_flatten.mp hl
    exact (hunits ls hls).kinds l hl
  have hinner : ∀ t ∈ locate q units.flatten, t.kind.isBlockMark = false :=
    forall_kind_locate (q := fun k => k.isBlockMark = false) hkinds q
  let start : Token := ⟨.blockStart, String.ofList Mark.blockStart, p.location⟩
  let stop : Token := ⟨.blockEnd, String.ofList Mark.blockEnd,
    (q.advanceBy (rawText units.flatten)).location⟩
  have hstart : start.raw = "<!--/*/" := String.toList_inj.mp rfl
  have hstop : stop.raw = "/*/-->" := String.toList_inj.mp rfl
  have halike := @Alike.of_block start stop _ rfl rfl hinner us
  rw [rawText_locate, hstart, hstop] at halike
  rw [locate_append, List.append_assoc]
  exact halike

/-- A folded block is read again. -/
theorem readable_of_block {units : List (List Lexeme)} (hunits : ∀ ls ∈ units, Tokens.Inner ls)
    (hends : Tokens.EndsBlock units) {place : Location} {n : Node}
    (hn : (blockComment place units.flatten).leaf? = some n) : Readable .keep n := by
  have hraw : "<!--/*/" ++ String.ofList (rawText units.flatten) ++ "/*/-->" =
      "<!--" ++ ("/*/" ++ String.ofList (rawText units.flatten) ++ "/*/") ++ "-->" := by
    simp [← String.toList_inj]
  have hspelled : (blockComment place units.flatten).Spelled :=
    (@Filter.toComment_spelled ⟨place, _⟩ _ hraw).1
  have htext : n.render.toList = Mark.blockStart ++ (rawText units.flatten ++ Mark.blockEnd) := by
    rw [Token.render_of_leaf? hn hspelled rfl]
    simp [blockComment, Fold.toComment, Mark.blockStart, Mark.blockEnd]
  constructor
  · intro rest
    rw [htext, List.append_assoc]
    exact opensMarkup_blockStart _
  · intro p rest
    have hread : Tokens.read .strict none p none none (n.render.toList ++ rest) =
        (Tokens.read .strict none (p.advanceBy n.render.toList) none none rest).prepend
          (locate p [⟨.blockStart, Mark.blockStart⟩] ++
            locate (p.advanceBy Mark.blockStart)
              (units.flatten ++ [⟨.blockEnd, Mark.blockEnd⟩])) := by
      have hscan := scanUnit_blockStart (rawText units.flatten ++ Mark.blockEnd ++ rest)
      have hstep := @Tokens.read_of_scanUnit p none _ _ _ (by simp [Mark.blockStart]) hscan
      rw [htext, List.append_assoc, List.append_assoc, ← List.append_assoc (rawText _), hstep]
      simp only [rawText_cons, rawText_nil, List.append_nil, blockAfter, List.head?_cons,
        Option.map_some]
      rw [hends, Tokens.prepend_prepend, Position.advanceBy_append p]
    obtain ⟨m, hm, heq⟩ := TokenKind.leaf?_unplaced hn p.location
    refine ⟨_, blockComment p.location units.flatten, m, hread, fun us => ?_, rfl, hm, heq⟩
    rw [List.append_assoc]
    exact alike_blockComment hunits p _ us

/-! ## Sequences of tags, texts and leaves -/

/-- What is left to build of a source, its end included. -/
inductive Plain (policy : CommentPolicy) : List Token → Prop where
  | done (l : Location) : Plain policy [⟨.documentEnd, "", l⟩]
  | text {t : Token} {content : String} {ts : List Token} (ht : t.kind = .text content)
    (h : Plain policy ts) : Plain policy (t :: ts)
  | tag (p : Position) {tag : Tag} {ts : List Token} (ht : tag.IsStrict) (h : Plain policy ts) :
    Plain policy (locate p tag.lexemes ++ ts)
  | endTag (p : Position) {name space : String} {ts : List Token} (hname : IsTagName name)
    (hspace : IsSpace space) (h : Plain policy ts) :
    Plain policy (locate p [endTagLexeme name space] ++ ts)
  | leaf {t : Token} {n : Node} {ts : List Token} (ht : t.leaf? = some n)
    (honly : t.isParserOnly = false) (hn : Readable policy n) (h : Plain policy ts) :
    Plain policy (t :: ts)

variable {policy : CommentPolicy} {us ts : List Token}

/-- Tokens that are filtered like a plain sequence. -/
def Filtered (policy : CommentPolicy) (us : List Token) : Prop :=
  ∃ ts, Plain policy ts ∧ Alike policy us ts

theorem Filtered.of_alike {vs : List Token} (hus : Filtered policy us) (h : Alike policy vs us) :
    Filtered policy vs := by
  obtain ⟨ts, hts, halike⟩ := hus
  exact ⟨ts, hts, h.trans halike⟩

theorem Filtered.unit (hus : Filtered policy us) {ls : List Lexeme} (hls : Tokens.Inner ls)
    (p : Position) : Filtered policy (locate p ls ++ us) := by
  obtain ⟨ts, hts, halike⟩ := hus
  have hkinds := forall_kind_locate (q := fun k => k.isBlockMark = false) hls.kinds p
  have happend : Alike policy (locate p ls ++ us) (locate p ls ++ ts) := by
    refine halike.append fun t ht hk => ?_
    have := hkinds t ht
    simp [hk, TokenKind.isBlockMark] at this
  refine .of_alike ?_ happend
  obtain hshape | ⟨text, -, rfl⟩ := hls
  · cases hshape with
    | tag _ ht => exact ⟨_, .tag p ht hts, .refl _⟩
    | endTag _ hname hspace => exact ⟨_, .endTag p hname hspace hts, .refl _⟩
    | @leaf _ l hkind hclosed =>
      have hmark := TokenKind.isBlockMark_of_isLeaf hkind
      cases hk : Filter.feedComment policy ⟨l.kind, String.ofList l.raw,
          (p.advanceBy l.lead).location⟩ with
      | none => exact ⟨ts, hts, .of_feedComment_eq_none hmark hk ts⟩
      | some k =>
        have hspelled : Token.Spelled
            ⟨l.kind, String.ofList l.raw, (p.advanceBy l.lead).location⟩ :=
          hclosed.spelled l (by simp)
        have honly : k.isParserOnly = false := (Filter.feedComment_eq_some hspelled hmark hk).1.2
        obtain ⟨n, hn⟩ := Filter.exists_leaf?_of_feedComment hkind hk
        exact ⟨k :: ts, .leaf hn honly (readable_of_closed hclosed hkind hk hn) hts,
          .of_feedComment hmark honly hk ts⟩
  · exact ⟨_, .text rfl hts, .refl _⟩

theorem Filtered.units (hus : Filtered policy us) {units : List (List Lexeme)}
    (hunits : ∀ ls ∈ units, Tokens.Inner ls) (p : Position) :
    Filtered policy (locate p units.flatten ++ us) := by
  induction units generalizing p with
  | nil => exact hus
  | cons ls units ih =>
    obtain ⟨hls, hunits⟩ := List.forall_mem_cons.mp hunits
    rw [List.flatten_cons, locate_append, List.append_assoc]
    exact (ih hunits _).unit hls p

/-- A block is folded or unwrapped. -/
theorem Filtered.block (hus : Filtered policy us) {units : List (List Lexeme)}
    (hunits : ∀ ls ∈ units, Tokens.Inner ls) (hends : Tokens.EndsBlock units) (p q : Position) :
    Filtered policy (locate p [⟨.blockStart, Mark.blockStart⟩] ++
      (locate q (units.flatten ++ [⟨.blockEnd, Mark.blockEnd⟩]) ++ us)) := by
  cases policy with
  | keep =>
    obtain ⟨ts, hts, halike⟩ := hus
    obtain ⟨n, hn⟩ : ∃ n, (blockComment p.location units.flatten).leaf? = some n := ⟨_, rfl⟩
    have hcons : Alike .keep (blockComment p.location units.flatten :: us)
        (blockComment p.location units.flatten :: ts) :=
      halike.cons (by simp [blockComment, Fold.toComment])
    exact ⟨_, .leaf hn rfl (readable_of_block hunits hends hn) hts,
      (alike_blockComment hunits p q us).trans hcons⟩
  | discard =>
    refine .of_alike ?_ (.of_blockMark rfl _)
    rw [locate_append, List.append_assoc]
    exact (hus.of_alike (.of_blockMark rfl us)).units hunits q

theorem cases_of_shape {ls : List Lexeme} (h : Shape false ls) :
    ls = [⟨.blockStart, Mark.blockStart⟩] ∨ Shape true ls := by
  cases h with
  | blockStart => exact .inl rfl
  | tag _ ht => exact .inr (.tag true ht)
  | endTag _ hname hspace => exact .inr (.endTag true hname hspace)
  | leaf _ hkind hclosed => exact .inr (.leaf true hkind hclosed)

theorem Tokens.Inner.blockAfter_eq {ls : List Lexeme} (h : Tokens.Inner ls)
    (block : Option Location) (l : Location) : blockAfter block l ls = block := by
  obtain hshape | ⟨text, -, rfl⟩ := h
  · exact hshape.blockAfter_eq block l
  · rfl

/-- A source that was read leaves a plain sequence to build. -/
theorem filtered_of_read {p : Position} {cs : List Char}
    (h : (Tokens.read .strict none p none none cs).error = none) :
    Filtered policy (Tokens.read .strict none p none none cs).tokens := by
  induction hn : cs.length using Nat.strong_induction_on generalizing p cs with
  | _ n ih =>
    obtain ⟨rfl, -⟩ | ⟨ls, rest, hcs, hlength, hscan, herror⟩ := Tokens.cases_of_read h
    · rw [Tokens.read]
      exact ⟨_, .done p.location, .refl _⟩
    rw [Tokens.read_of_scanUnit hcs hscan]
    have hunit : Tokens.Inner ls → Filtered policy
        ((Tokens.read .strict none (p.advanceBy (rawText ls)) (blockAfter none p.location ls) none
          rest).prepend (locate p ls)).tokens := by
      intro hinner
      rw [hinner.blockAfter_eq] at herror ⊢
      exact (ih _ (hn ▸ hlength) herror rfl).unit hinner p
    obtain ⟨hblock, -⟩ | hshape | ⟨text, hne, rfl, -⟩ := cases_of_scanUnit hcs hscan
    · simp at hblock
    · obtain rfl | hshape := cases_of_shape hshape
      · obtain ⟨units, more, rfl, hunits, hends, -⟩ := Tokens.exists_block herror
        have hmore : more.length < n := by
          simp only [List.length_append] at hlength
          omega
        have hafter : blockAfter none p.location [⟨.blockStart, Mark.blockStart⟩] =
          some p.location := rfl
        rw [hafter, hends] at herror
        rw [hafter, hends]
        exact (ih _ hmore herror rfl).block hunits hends p _
      · exact hunit (.inl hshape)
    · exact hunit (.inr ⟨text, hne, rfl⟩)

end NaturalTemplate.Markup
