import NaturalTemplate.Markup.Parse
import NaturalTemplate.Proofs.Markup.Spelling

/-!
# Documents are written as they were read

What the filter holds back and what the builder has built so far is, written out, the text of the
tokens that were taken. A document that was parsed is therefore written as its source, less the
comments and marks that are for the parser only where these are discarded.
-/
namespace NaturalTemplate.Markup

def TokenKind.isParserComment : TokenKind → Bool
  | .comment .parserLevel _ => true
  | _ => false

def TokenKind.isBlockMark : TokenKind → Bool
  | .blockStart | .blockEnd => true
  | _ => false

/-- Whether a token is for the parser only: a parser-level comment, or the mark of a block. -/
def Token.isParserOnly (t : Token) : Bool := t.kind.isParserComment || t.kind.isBlockMark

/-- Whether a token can be written back from what is built of it. -/
def Token.Writable (t : Token) : Prop := t.Spelled ∧ t.isParserOnly = false

theorem TokenKind.isBlockMark_eq_false {k : TokenKind} (hstart : k ≠ .blockStart)
    (hend : k ≠ .blockEnd) : k.isBlockMark = false := by
  unfold TokenKind.isBlockMark
  split <;> simp_all

theorem TokenKind.eq_of_isParserComment {k : TokenKind} (h : k.isParserComment = true) :
    ∃ content, k = .comment .parserLevel content := by
  unfold isParserComment at h
  split at h
  · exact ⟨_, rfl⟩
  · simp at h

/-- The text of a token that reaches the document. -/
def CommentPolicy.keptText (p : CommentPolicy) (t : Token) : String :=
  if p = .discard ∧ t.isParserOnly then "" else t.raw

/-! ## The filter -/

/-- The text of a block that is being folded. -/
def Fold.text (o : Option Fold) : String := (o.map Fold.raw).getD ""

/-- The text that waits for more text to join. -/
def Held.text (h : Option Held) : String := (h.map Held.raw).getD ""

@[simp] theorem Fold.text_none : Fold.text none = "" := rfl

@[simp] theorem Fold.text_some (o : Fold) : Fold.text (some o) = o.raw := rfl

@[simp] theorem Held.text_none : Held.text none = "" := rfl

@[simp] theorem Held.text_some (h : Held) : Held.text (some h) = h.raw := rfl

/-- What is open in the tokens that come out of a filter, which folds blocks or unwraps them. -/
def Turn.unblocked (u : Turn) : Turn := { inTag := u.inTag }

theorem Turn.next?_blockStart {u v : Turn} (h : u.next? .blockStart = some v) :
    u = {} ∧ v = { inBlock := true } := by
  cases u
  simp only [Turn.next?] at h
  split at h <;> simp_all

theorem Turn.next?_blockEnd {u v : Turn} (h : u.next? .blockEnd = some v) :
    u = { inBlock := true } ∧ v = {} := by
  cases u
  simp only [Turn.next?] at h
  split at h <;> simp_all

theorem Turn.next?_other {u v : Turn} {k : TokenKind} (h : u.next? k = some v)
    (hk : u.next? k = if u.inTag then none else some u) : u.inTag = false ∧ u = v := by
  rw [hk] at h
  split at h <;> simp_all

theorem Turn.next?_unblocked {u v : Turn} {k : TokenKind} (h : u.next? k = some v)
    (hstart : k ≠ .blockStart) (hend : k ≠ .blockEnd) :
    u.unblocked.next? k = some v.unblocked ∧ v.inBlock = u.inBlock := by
  cases k <;> simp_all [Turn.next?, Turn.unblocked] <;> grind

namespace Filter

/-- The state of a fold after tokens that came in turn. -/
structure Folding (comments : CommentPolicy) (fold : Option Fold) (u : Turn) : Prop where
  isSome_eq : fold.isSome = (decide (comments = .keep) && u.inBlock)
  raw : ∀ f ∈ fold, ∃ s, f.raw = "<!--" ++ s

/-- What is open in the tokens that come out, where those inside a fold do not. -/
def outTurn (fold : Option Fold) (u : Turn) : Turn :=
  if fold.isSome then {} else u.unblocked

theorem toComment_spelled {f : Fold} {s : String} (h : f.raw = "<!--" ++ s ++ "-->") :
    f.toComment.Spelled ∧ f.toComment.kind.isBlockMark = false := by
  refine ⟨fun t ht => ?_, rfl⟩
  simp only [Fold.toComment, TokenKind.spelling?, Option.mem_def, Option.some.injEq] at ht ⊢
  rw [← ht, h, ← String.toList_inj]
  simp

theorem feedComment_of_not {p : CommentPolicy} {t : Token} (h : t.kind.isParserComment = false) :
    feedComment p t = some t := by
  unfold feedComment
  split <;> simp_all [TokenKind.isParserComment]

/-- What a token becomes as a comment is written like the token. -/
theorem feedComment_eq_some {policy : CommentPolicy} {t k : Token} (ht : t.Spelled)
    (hmark : t.kind.isBlockMark = false) (h : feedComment policy t = some k) :
    k.Writable ∧ k.raw = t.raw := by
  by_cases hc : t.kind.isParserComment = true
  · obtain ⟨content, hkind⟩ := TokenKind.eq_of_isParserComment hc
    have hraw : t.raw = "<!--/*" ++ content ++ "*/-->" :=
      ht _ (by simp [hkind, TokenKind.spelling?])
    cases policy with
    | discard => simp [feedComment, hkind] at h
    | keep =>
      obtain rfl : _ = k := by simpa [feedComment, hkind] using h
      simp [Token.Writable, Token.Spelled, TokenKind.spelling?, Token.isParserOnly,
        TokenKind.isBlockMark, TokenKind.isParserComment, hraw, ← String.toList_inj]
  · rw [Bool.not_eq_true] at hc
    rw [feedComment_of_not hc, Option.some.injEq] at h
    subst h
    exact ⟨⟨ht, by simp [Token.isParserOnly, hc, hmark]⟩, rfl⟩

theorem feedComment_sound {p : CommentPolicy} {t : Token} {u v : Turn}
    (ht : t.Spelled ∧ t.kind.isBlockMark = false) (hturn : u.next? t.kind = some v) :
    (∀ k ∈ feedComment p t, k.Writable) ∧
      u.after? ((feedComment p t).toList.map Token.kind) = some v ∧
      Token.rawText (feedComment p t).toList =
        if p = .discard ∧ t.kind.isParserComment then "" else t.raw := by
  by_cases hc : t.kind.isParserComment = true
  · obtain ⟨content, hkind⟩ := TokenKind.eq_of_isParserComment hc
    rw [hkind] at hturn
    cases p with
    | discard =>
      have huv : u = v := by
        simp only [Turn.next?] at hturn
        split at hturn <;> simp_all
      simp [feedComment, hkind, huv, TokenKind.isParserComment]
    | keep =>
      refine ⟨fun k hk => (feedComment_eq_some ht.1 ht.2 hk).1, ?_, by simp [feedComment, hkind]⟩
      simpa [feedComment, hkind, Turn.next?] using hturn
  · rw [Bool.not_eq_true] at hc
    rw [feedComment_of_not hc]
    exact ⟨by simp [Token.Writable, Token.isParserOnly, ht, hc], by simp [hturn], by simp [hc]⟩

theorem feedBlock_discard (fold : Option Fold) (t : Token) :
    feedBlock .discard fold t = (fold, if t.kind.isBlockMark then none else some t) := by
  cases h : t.kind <;> simp [feedBlock, h, TokenKind.isBlockMark]

theorem feedBlock_keep_none {t : Token} (h : t.kind ≠ .blockStart) :
    feedBlock .keep none t = (none, some t) := by
  cases hk : t.kind <;> simp_all [feedBlock]

theorem feedBlock_keep_some {t : Token} (f : Fold) (h : t.kind ≠ .blockEnd) :
    feedBlock .keep (some f) t = (some { f with raw := f.raw ++ t.raw }, none) := by
  cases hk : t.kind <;> simp_all [feedBlock]

/-- What the first stage makes of a token that comes in turn: no text is lost but that of the marks
of a block that is unwrapped. -/
structure FeedsBlock (p : CommentPolicy) (fold : Option Fold) (t : Token) (u v : Turn)
    (fold' : Option Fold) (o : Option Token) : Prop where
  folding : Folding p fold' v
  kept : ∀ k ∈ o, k.Spelled ∧ k.kind.isBlockMark = false
  turn : (outTurn fold u).after? (o.toList.map Token.kind) = some (outTurn fold' v)
  text : Fold.text fold ++ (if p = .discard ∧ t.kind.isBlockMark then "" else t.raw) =
    Token.rawText o.toList ++ Fold.text fold'

section
variable {t : Token} {u v : Turn}

/-- Blocks are unwrapped. -/
theorem feedsBlock_discard (ht : t.Spelled) (hturn : u.next? t.kind = some v) :
    FeedsBlock .discard none t u v none (if t.kind.isBlockMark then none else some t) := by
  by_cases hm : t.kind.isBlockMark = true
  · have huv : u.unblocked = v.unblocked := by
      unfold TokenKind.isBlockMark at hm
      split at hm
      next hk =>
        rw [hk] at hturn
        obtain ⟨rfl, rfl⟩ := Turn.next?_blockStart hturn
        rfl
      next hk =>
        rw [hk] at hturn
        obtain ⟨rfl, rfl⟩ := Turn.next?_blockEnd hturn
        rfl
      · simp at hm
    exact ⟨⟨by simp, by simp⟩, by simp [hm], by simp [hm, outTurn, huv], by simp [hm]⟩
  · have hnext := (Turn.next?_unblocked hturn (by rintro h; simp [h, TokenKind.isBlockMark] at hm)
      (by rintro h; simp [h, TokenKind.isBlockMark] at hm)).1
    exact ⟨⟨by simp, by simp⟩, by simp [hm, ht], by simp [hm, outTurn, hnext], by simp [hm]⟩

/-- Outside blocks a token is handed on, or begins a block. -/
theorem feedsBlock_keep_none (hf : Folding .keep none u) (ht : t.Spelled)
    (hturn : u.next? t.kind = some v) :
    FeedsBlock .keep none t u v (feedBlock .keep none t).1 (feedBlock .keep none t).2 := by
  have hblock : u.inBlock = false := by simpa using hf.isSome_eq.symm
  have hend : t.kind ≠ .blockEnd := by
    intro hk
    rw [hk] at hturn
    simp [(Turn.next?_blockEnd hturn).1] at hblock
  by_cases hstart : t.kind = .blockStart
  · rw [hstart] at hturn
    obtain ⟨rfl, rfl⟩ := Turn.next?_blockStart hturn
    have htext : t.raw = "<!--/*/" := ht _ (by simp [hstart, TokenKind.spelling?])
    have hres : feedBlock .keep none t = (some ⟨t.location, t.raw⟩, none) := by
      simp [feedBlock, hstart]
    rw [hres]
    refine ⟨⟨by simp, ?_⟩, by simp, by simp [outTurn, Turn.unblocked], by simp⟩
    intro f hf
    obtain rfl : ⟨t.location, t.raw⟩ = f := by simpa using hf
    exact ⟨"/*/", htext⟩
  · obtain ⟨hnext, hv⟩ := Turn.next?_unblocked hturn hstart hend
    rw [feedBlock_keep_none hstart]
    have hkept := And.intro ht (TokenKind.isBlockMark_eq_false hstart hend)
    exact ⟨⟨by simp [hv, hblock], by simp⟩, by simpa using hkept, by simp [outTurn, hnext],
      by simp⟩

/-- Inside a block a token is folded, or ends the block. -/
theorem feedsBlock_keep_some {f : Fold} (hf : Folding .keep (some f) u) (ht : t.Spelled)
    (hturn : u.next? t.kind = some v) :
    FeedsBlock .keep (some f) t u v (feedBlock .keep (some f) t).1
      (feedBlock .keep (some f) t).2 := by
  have hblock : u.inBlock = true := by simpa using hf.isSome_eq.symm
  obtain ⟨s, hs⟩ := hf.raw f rfl
  by_cases hend : t.kind = .blockEnd
  · rw [hend] at hturn
    obtain ⟨rfl, rfl⟩ := Turn.next?_blockEnd hturn
    have htext : t.raw = "/*/-->" := ht _ (by simp [hend, TokenKind.spelling?])
    have hres : feedBlock .keep (some f) t =
        (none, some { f with raw := f.raw ++ t.raw : Fold }.toComment) := by
      simp [feedBlock, hend]
    have hkept := toComment_spelled (f := { f with raw := f.raw ++ t.raw })
      (s := s ++ "/*/") (by simp [hs, htext, ← String.toList_inj])
    rw [hres]
    refine ⟨⟨by simp, by simp⟩, by simpa using hkept, ?_, ?_⟩
    · simp [Fold.toComment, outTurn, Turn.unblocked, Turn.next?]
    · simp [Fold.toComment]
  · have hstart : t.kind ≠ .blockStart := by
      intro hk
      rw [hk] at hturn
      simp [(Turn.next?_blockStart hturn).1] at hblock
    obtain ⟨-, hv⟩ := Turn.next?_unblocked hturn hstart hend
    rw [feedBlock_keep_some f hend]
    refine ⟨⟨by simp [hv, hblock], ?_⟩, by simp, by simp [outTurn], by simp⟩
    intro g hg
    obtain rfl := Option.some.inj hg
    exact ⟨s ++ t.raw, by simp [hs, String.append_assoc]⟩

end

/-- Unwrapping or folding blocks loses no text but that of the marks of a block that is
unwrapped. -/
theorem feedBlock_sound {p : CommentPolicy} {fold : Option Fold} {t : Token} {u v : Turn}
    (hf : Folding p fold u) (ht : t.Spelled) (hturn : u.next? t.kind = some v) :
    FeedsBlock p fold t u v (feedBlock p fold t).1 (feedBlock p fold t).2 := by
  cases p with
  | discard =>
    obtain rfl : fold = none := by simpa using hf.isSome_eq
    rw [feedBlock_discard]
    exact feedsBlock_discard ht hturn
  | keep =>
    cases fold with
    | none => exact feedsBlock_keep_none hf ht hturn
    | some f => exact feedsBlock_keep_some hf ht hturn

/-- Text that waits is spelled as it is, and does not wait inside a tag. -/
def Waiting (held : Option Held) (u : Turn) : Prop :=
  ∀ h ∈ held, h.content = h.raw ∧ u.inTag = false

/-- Joining texts loses no text. -/
theorem feedText_sound {held : Option Held} {t : Token} {u v : Turn} (hw : Waiting held u)
    (ht : t.Writable) (hturn : u.next? t.kind = some v) :
    Waiting (feedText held t).1 v ∧ (∀ k ∈ (feedText held t).2, k.Writable) ∧
      u.after? ((feedText held t).2.map Token.kind) = some v ∧
      Held.text held ++ t.raw =
        Token.rawText (feedText held t).2 ++ Held.text (feedText held t).1 := by
  unfold feedText
  split
  next content hkind =>
    have hraw : t.raw = content := ht.1 _ (by simp [hkind, TokenKind.spelling?])
    simp only [hkind, Turn.next?, Option.ite_none_left_eq_some, Bool.not_eq_true,
      Option.some.injEq] at hturn
    obtain ⟨htag, rfl⟩ := hturn
    simp_all [Waiting]
  next content h hkind =>
    have hraw : t.raw = content := ht.1 _ (by simp [hkind, TokenKind.spelling?])
    simp only [hkind, Turn.next?, Option.ite_none_left_eq_some, Bool.not_eq_true,
      Option.some.injEq] at hturn
    obtain ⟨htag, rfl⟩ := hturn
    simp_all [Waiting]
  · exact ⟨by simp [Waiting], by simpa using ht, by simp [hturn], by simp⟩
  next h _ =>
    obtain ⟨hcontent, htag⟩ := hw h rfl
    refine ⟨by simp [Waiting], ?_, ?_, by simp [Held.toToken]⟩
    · have hheld : h.toToken.Writable := by
        refine ⟨?_, rfl⟩
        simp [Token.Spelled, Held.toToken, TokenKind.spelling?, hcontent]
      simp [ht, hheld]
    · have htext : u.next? (.text h.content) = some u := by simp [Turn.next?, htag]
      simp [Held.toToken, htext, hturn]

/-- The state of a filter after tokens that came in turn. -/
structure Sound (f : Filter) (u : Turn) : Prop where
  folding : Folding f.comments f.fold u
  waiting : Waiting f.held (outTurn f.fold u)

/-- The text that a filter holds back. -/
def pending (f : Filter) : String := Held.text f.held ++ Fold.text f.fold

/-- The first two stages together. -/
theorem unfold_sound {p : CommentPolicy} {fold fold' : Option Fold} {o : Option Token} {t : Token}
    {u v : Turn} (hf : Folding p fold u) (ht : t.Spelled) (hturn : u.next? t.kind = some v)
    (h : feedBlock p fold t = (fold', o)) :
    Folding p fold' v ∧ (∀ k ∈ o.bind (feedComment p), k.Writable) ∧
      (outTurn fold u).after? ((o.bind (feedComment p)).toList.map Token.kind) =
        some (outTurn fold' v) ∧
      Fold.text fold ++ p.keptText t =
        Token.rawText (o.bind (feedComment p)).toList ++ Fold.text fold' := by
  have hblock := feedBlock_sound hf ht hturn
  rw [h] at hblock
  obtain ⟨hfold, hkept, houter, htext⟩ := hblock
  cases o with
  | none =>
    refine ⟨hfold, by simp, houter, ?_⟩
    cases p with
    | keep => simpa [CommentPolicy.keptText] using htext
    | discard =>
      have hm : t.kind.isBlockMark = true := by
        rw [feedBlock_discard] at h
        by_contra hm
        simp [hm] at h
      simpa [CommentPolicy.keptText, Token.isParserOnly, hm] using htext
  | some k =>
    have hnext : (outTurn fold u).next? k.kind = some (outTurn fold' v) := by simpa using houter
    obtain ⟨hout, hturn', hraw⟩ := feedComment_sound (p := p) (hkept k rfl) hnext
    refine ⟨hfold, by simpa using hout, by simpa using hturn', ?_⟩
    rw [Option.bind_some, hraw]
    cases p with
    | keep => simpa [CommentPolicy.keptText] using htext
    | discard =>
      rw [feedBlock_discard] at h
      by_cases hm : t.kind.isBlockMark = true
      · simp [hm] at h
      · simp only [hm, Prod.mk.injEq] at h
        obtain ⟨rfl, hk⟩ := h
        obtain rfl : t = k := by simpa using hk
        obtain rfl : fold = none := by simpa using hf.isSome_eq
        simp [CommentPolicy.keptText, Token.isParserOnly, hm]

theorem feed_sound {f f' : Filter} {t : Token} {ts : List Token} {u v : Turn} (hf : f.Sound u)
    (ht : t.Spelled) (hturn : u.next? t.kind = some v) (h : f.feed t = .ok (f', ts)) :
    f'.comments = f.comments ∧ f'.Sound v ∧ (∀ k ∈ ts, k.Writable) ∧
      (outTurn f.fold u).after? (ts.map Token.kind) = some (outTurn f'.fold v) ∧
      f.pending ++ f.comments.keptText t = Token.rawText ts ++ f'.pending := by
  obtain ⟨hfolding, hwaiting⟩ := hf
  unfold feed at h
  generalize hblock : feedBlock f.comments f.fold t = r at h
  obtain ⟨fold', o⟩ := r
  obtain ⟨hfold, hkept, houter, htext⟩ := unfold_sound hfolding ht hturn hblock
  simp only at h
  split at h
  next hnone =>
    simp only [Except.ok.injEq, Prod.mk.injEq] at h
    obtain ⟨rfl, rfl⟩ := h
    rw [hnone] at houter htext
    have hsame : outTurn f.fold u = outTurn fold' v := by simpa using houter
    refine ⟨rfl, ⟨hfold, ?_⟩, by simp, by simp [hsame], ?_⟩
    · rw [← hsame]
      exact hwaiting
    · simp only [pending, String.append_assoc, htext]
      simp
  next k hsome =>
    rw [hsome] at houter htext hkept
    have hnext : (outTurn f.fold u).next? k.kind = some (outTurn fold' v) := by simpa using houter
    obtain ⟨hheld, hout, hturn', hraw⟩ := feedText_sound hwaiting (hkept k rfl) hnext
    have hall : f.pending ++ f.comments.keptText t =
        Token.rawText (feedText f.held k).2 ++
          (Held.text (feedText f.held k).1 ++ Fold.text fold') := by
      have hk : Fold.text f.fold ++ f.comments.keptText t = k.raw ++ Fold.text fold' := by
        simpa using htext
      rw [pending, String.append_assoc, hk, ← String.append_assoc, hraw, String.append_assoc]
    split at h
    · simp only [Except.ok.injEq, Prod.mk.injEq] at h
      obtain ⟨rfl, rfl⟩ := h
      exact ⟨rfl, ⟨hfold, hheld⟩, hout, hturn', hall⟩
    · split at h
      · simp at h
      · simp only [Except.ok.injEq, Prod.mk.injEq] at h
        obtain ⟨rfl, rfl⟩ := h
        exact ⟨rfl, ⟨hfold, hheld⟩, hout, hturn', hall⟩

end Filter

/-! ## The builder -/

/-- The text of a start tag that is being read. -/
def Tag.opening (t : Tag) : String :=
  "<" ++ t.name ++ String.join (t.attributes.map Attribute.render)

/-- The text of an element without its end tag. -/
def OpenElement.written (o : OpenElement) : String :=
  o.tag.render ++ Node.renderAll o.children.reverse

namespace Builder

/-- The text of what was built so far. -/
def written (b : Builder) : String :=
  Node.renderAll b.roots.reverse ++ String.join (b.opened.reverse.map OpenElement.written) ++
    (b.starting.map Tag.opening).getD ""

theorem written_append {b : Builder} {n : Node} (h : b.starting = none) :
    (b.append n).written = b.written ++ n.render := by
  unfold append
  split
  next hopened =>
    simp [written, h, hopened, Node.renderAll_append, Node.renderAll]
  next o opened hopened =>
    simp [written, h, hopened, OpenElement.written, Node.renderAll_append, Node.renderAll,
      String.join_append, String.append_assoc]

theorem starting_append (b : Builder) (n : Node) : (b.append n).starting = b.starting := by
  unfold append
  split <;> rfl

/-- The end tag is all that closing an element adds. -/
theorem written_close {b : Builder} {e : EndTag} (hs : b.starting = none) (ho : b.opened ≠ []) :
    (b.close e).written = b.written ++ e.render := by
  unfold close
  split
  · contradiction
  next o opened hopened =>
    rw [written_append (by exact hs)]
    simp [written, hs, hopened, OpenElement.written, Node.render, String.join_append,
      String.append_assoc]

theorem starting_close (b : Builder) (e : EndTag) : (b.close e).starting = b.starting := by
  unfold close
  split
  · rfl
  · rw [starting_append]

theorem length_opened_close (b : Builder) (e : EndTag) :
    (b.close e).opened.length = b.opened.length - 1 := by
  unfold close
  split
  next hopened => simp [hopened]
  next o opened hopened =>
    unfold append
    split
    next hnil => simp_all
    next o' opened' hcons => simp_all

theorem length_opened_closeImplicit (b : Builder) (n : Nat) :
    (b.closeImplicit n).opened.length = b.opened.length - n := by
  induction n with
  | zero => rfl
  | succ n ih =>
    have hstep := length_opened_close (b.closeImplicit n) .implicit
    rw [ih] at hstep
    show ((b.closeImplicit n).close .implicit).opened.length = _
    omega

theorem written_closeImplicit {b : Builder} (n : Nat) (hs : b.starting = none) :
    (b.closeImplicit n).written = b.written ∧ (b.closeImplicit n).starting = none := by
  induction n with
  | zero => exact ⟨rfl, hs⟩
  | succ n ih =>
    obtain ⟨hwritten, hnone⟩ := ih
    show ((b.closeImplicit n).close .implicit).written = _ ∧
      ((b.closeImplicit n).close .implicit).starting = none
    refine ⟨?_, by rw [starting_close, hnone]⟩
    by_cases ho : (b.closeImplicit n).opened = []
    · rw [close, ho, hwritten]
    · rw [written_close hnone ho, hwritten]
      simp [EndTag.render]

theorem written_handleEndTag {b b' : Builder} {name raw : String} {l : Location}
    (hs : b.starting = none) (h : b.handleEndTag name raw l = .ok b') :
    b'.written = b.written ++ raw ∧ b'.starting = none := by
  unfold handleEndTag at h
  split at h
  · split at h
    · simp at h
    next o opened hopened =>
      split at h
      · obtain rfl := Except.ok.inj h
        exact ⟨written_close hs (by simp [hopened]), by rw [starting_close, hs]⟩
      · simp at h
  · split at h
    · obtain rfl := Except.ok.inj h
      exact ⟨written_append hs, by rw [starting_append, hs]⟩
    next depth hfind =>
      obtain rfl := Except.ok.inj h
      obtain ⟨hwritten, hnone⟩ := written_closeImplicit depth hs
      have hdepth : depth < b.opened.length := (List.findIdx?_eq_some_iff_getElem.mp hfind).1
      have hopened : (b.closeImplicit depth).opened ≠ [] := by
        apply List.ne_nil_of_length_pos
        rw [length_opened_closeImplicit]
        omega
      rw [written_close hnone hopened, hwritten, starting_close]
      exact ⟨rfl, hnone⟩

/-- A token that becomes a node adds its own text. -/
theorem written_handle_leaf {b : Builder} {n : Node} {t : Token} {u v : Turn}
    (hb : b.starting.isSome = u.inTag) (htag : u.inTag = false) (huv : u = v)
    (hn : n.render = t.raw) :
    (b.append n).written = b.written ++ t.raw ∧ (b.append n).starting.isSome = v.inTag := by
  have hs : b.starting = none := by simpa [htag] using hb
  rw [written_append hs, hn, starting_append, ← huv]
  exact ⟨rfl, hb⟩

/-- A token adds its own text. -/
theorem written_handle {b b' : Builder} {t : Token} {u v : Turn}
    (hb : b.starting.isSome = u.inTag) (ht : t.Writable) (hturn : u.next? t.kind = some v)
    (h : b.handle t = .ok b') :
    b'.written = b.written ++ t.raw ∧ b'.starting.isSome = v.inTag := by
  obtain ⟨ht, hmark⟩ := ht
  unfold handle at h
  unfold Token.Spelled at ht
  unfold Token.isParserOnly at hmark
  generalize t.kind = k at h ht hturn hmark
  cases k with
  | blockStart | blockEnd => simp [TokenKind.isBlockMark] at hmark
  | documentStart | documentEnd =>
    obtain ⟨-, rfl⟩ := Turn.next?_other hturn rfl
    obtain rfl := Except.ok.inj h
    simp [ht "" rfl, hb]
  | tagStart name =>
    simp only [Turn.next?, Option.ite_none_left_eq_some, Bool.not_eq_true,
      Option.some.injEq] at hturn
    obtain ⟨htag, rfl⟩ := hturn
    have hs : b.starting = none := by simpa [htag] using hb
    obtain rfl := Except.ok.inj h
    simp [written, hs, Tag.opening, ht _ rfl]
  | «attribute» leading name operator value quote =>
    simp only [Turn.next?, Option.ite_none_right_eq_some, Option.some.injEq] at hturn
    obtain ⟨htag, rfl⟩ := hturn
    cases hs : b.starting with
    | none => simp [hs, htag] at hb
    | some tag =>
      simp only [hs] at h
      obtain rfl := Except.ok.inj h
      simp [written, hs, Tag.opening, ht _ rfl, htag, String.join_append, String.append_assoc,
        Attribute.render]
  | tagStartEnd trailing selfClosing =>
    simp only [Turn.next?, Option.ite_none_right_eq_some, Option.some.injEq] at hturn
    obtain ⟨htag, rfl⟩ := hturn
    cases hs : b.starting with
    | none => simp [hs, htag] at hb
    | some tag =>
      simp only [hs] at h
      have hrender : ({ tag with trailing, selfClosing } : Tag).render = tag.opening ++ t.raw := by
        rw [ht _ rfl, Tag.render, Tag.opening, String.append_assoc]
      split at h
      · obtain rfl := Except.ok.inj h
        rw [written_append (by rfl), starting_append]
        simp [written, hs, Node.render, Node.renderAll, EndTag.render, hrender, String.append_assoc]
      · obtain rfl := Except.ok.inj h
        simp [written, hs, OpenElement.written, Node.renderAll, hrender, String.join_append,
          String.append_assoc]
  | tagEnd name =>
    obtain ⟨htag, rfl⟩ := Turn.next?_other hturn rfl
    have hs : b.starting = none := by simpa [htag] using hb
    obtain ⟨hwritten, hnone⟩ := written_handleEndTag hs h
    simp [hwritten, hnone, htag]
  | text content | cdata content | docType content | instruction content =>
    obtain ⟨htag, huv⟩ := Turn.next?_other hturn rfl
    obtain rfl := Except.ok.inj h
    exact written_handle_leaf hb htag huv (ht _ rfl).symm
  | comment kind content =>
    cases kind with
    | parserLevel => simp [TokenKind.isParserComment] at hmark
    | normal =>
      obtain ⟨htag, huv⟩ := Turn.next?_other hturn rfl
      obtain rfl := Except.ok.inj h
      exact written_handle_leaf hb htag huv (ht _ rfl).symm

theorem written_handleAll {b b' : Builder} {ts : List Token} {u v : Turn}
    (hb : b.starting.isSome = u.inTag) (hts : ∀ t ∈ ts, t.Writable)
    (hturn : u.after? (ts.map Token.kind) = some v) (h : b.handleAll ts = .ok b') :
    b'.written = b.written ++ Token.rawText ts ∧ b'.starting.isSome = v.inTag := by
  induction ts generalizing b u with
  | nil =>
    obtain rfl := Except.ok.inj h
    obtain rfl := Option.some.inj hturn
    exact ⟨by simp, hb⟩
  | cons t ts ih =>
    obtain ⟨ht, hts⟩ := List.forall_mem_cons.mp hts
    obtain ⟨w, hw, hturn⟩ := Option.bind_eq_some_iff.mp hturn
    unfold handleAll at h
    split at h
    · simp at h
    next b₁ hstep =>
      obtain ⟨hwritten, hb₁⟩ := written_handle hb ht hw hstep
      obtain ⟨hrest, hb'⟩ := ih hb₁ hts hturn h
      refine ⟨?_, hb'⟩
      rw [hrest, hwritten, Token.rawText_cons, String.append_assoc]

theorem written_finish {b : Builder} {d : Document} (h : b.finish = .ok d) :
    d.render = b.written := by
  unfold finish at h
  split at h
  · simp at h
  · simp at h
  next hs hopened =>
    obtain rfl := Except.ok.inj h
    obtain ⟨hwritten, hnone⟩ := written_closeImplicit b.opened.length hs
    have hempty : (b.closeImplicit b.opened.length).opened = [] := by
      apply List.eq_nil_of_length_eq_zero
      rw [length_opened_closeImplicit]
      omega
    rw [← hwritten, Document.render, written, hempty, hnone]
    simp

end Builder

/-! ## From source to document -/

/-- The texts of the tokens that reach the document. -/
def CommentPolicy.keptTexts (p : CommentPolicy) (ts : List Token) : String :=
  String.join (ts.map p.keptText)

theorem written_buildFiltered {f f' : Filter} {b b' : Builder} {ts : List Token} {u v : Turn}
    (hf : f.Sound u) (hb : b.starting.isSome = (Filter.outTurn f.fold u).inTag)
    (hts : ∀ t ∈ ts, t.Spelled) (hturn : u.after? (ts.map Token.kind) = some v)
    (h : buildFiltered f b ts = .ok (f', b')) :
    f'.Sound v ∧ b'.starting.isSome = (Filter.outTurn f'.fold v).inTag ∧
      b'.written ++ f'.pending = b.written ++ f.pending ++ f.comments.keptTexts ts := by
  induction ts generalizing f b u with
  | nil =>
    simp only [buildFiltered, Except.ok.injEq, Prod.mk.injEq] at h
    obtain ⟨rfl, rfl⟩ := h
    obtain rfl := Option.some.inj hturn
    exact ⟨hf, hb, by simp [CommentPolicy.keptTexts]⟩
  | cons t ts ih =>
    obtain ⟨ht, hts⟩ := List.forall_mem_cons.mp hts
    obtain ⟨w, hw, hturn⟩ := Option.bind_eq_some_iff.mp hturn
    unfold buildFiltered at h
    split at h
    · simp at h
    next f₁ filtered hfeed =>
      obtain ⟨hcomments, hf₁, hfiltered, houter, htext⟩ := Filter.feed_sound hf ht hw hfeed
      split at h
      · simp at h
      next b₁ hhandle =>
        obtain ⟨hwritten, hb₁⟩ := Builder.written_handleAll hb hfiltered houter hhandle
        obtain ⟨hf', hb', hrest⟩ := ih hf₁ hb₁ hts hturn h
        refine ⟨hf', hb', ?_⟩
        calc b'.written ++ f'.pending
            = b₁.written ++ f₁.pending ++ f₁.comments.keptTexts ts := hrest
          _ = b.written ++ (Token.rawText filtered ++ f₁.pending) ++ f.comments.keptTexts ts := by
              rw [hwritten, hcomments]
              simp only [String.append_assoc]
          _ = b.written ++ (f.pending ++ f.comments.keptText t) ++ f.comments.keptTexts ts := by
              rw [htext]
          _ = b.written ++ f.pending ++ f.comments.keptTexts (t :: ts) := by
              simp [CommentPolicy.keptTexts, String.append_assoc]

/-- What the filter still holds at the end is handed on. -/
theorem Filter.finish_sound {f : Filter} {ts : List Token} (hf : f.Sound {})
    (h : f.finish = .ok ts) :
    f.fold = none ∧ (∀ t ∈ ts, t.Writable) ∧ ({} : Turn).after? (ts.map Token.kind) = some {} ∧
      Token.rawText ts = f.pending := by
  have hts : ts = (f.held.map Held.toToken).toList ∧ f.fold = none := by
    unfold finish at h
    split at h
    · simp at h
    next hfold =>
      split at h
      · exact ⟨(Except.ok.inj h).symm, hfold⟩
      next b _ =>
        cases hb : b.feedAll (f.held.map Held.toToken).toList with
        | error e => simp [hb, Except.map] at h
        | ok b' =>
          simp only [hb, Except.map, Except.ok.injEq] at h
          exact ⟨h.symm, hfold⟩
  obtain ⟨rfl, hfold⟩ := hts
  cases hheld : f.held with
  | none => simp [hfold, pending, hheld]
  | some k =>
    have hk := (hf.waiting k hheld).1
    simp [hfold, pending, hheld, Held.toToken, Token.Writable, Token.Spelled, Token.isParserOnly,
      TokenKind.spelling?, TokenKind.isParserComment, TokenKind.isBlockMark, Turn.next?, hk]

theorem Filter.ofOptions_sound (options : Options) : (Filter.ofOptions options).Sound {} := by
  refine ⟨⟨by simp [ofOptions], by simp [ofOptions]⟩, by simp [ofOptions, Waiting]⟩

/-- How a document comes about: the tokens are built up behind the filter, and what the filter still
holds follows at the end. -/
theorem parseSource_eq_ok {options : Options} {s : Source} {d : Document}
    (h : parseSource options s = .ok d) :
    (tokenize options.mode s).error = none ∧ ∃ f b ts b',
      buildFiltered (.ofOptions options) { mode := options.mode }
        (tokenize options.mode s).tokens = .ok (f, b) ∧
      f.finish = .ok ts ∧ b.handleAll ts = .ok b' ∧ b'.finish = .ok d := by
  unfold parseSource at h
  simp only [bind, Except.bind] at h
  split at h
  · simp at h
  next r hbuild =>
  obtain ⟨f, b⟩ := r
  simp only at h
  split at h
  · simp [throw, throwThe, MonadExceptOf.throw] at h
  next herror =>
  split at h
  · simp at h
  next ts hfinish =>
  split at h
  · simp at h
  next b' hhandle =>
  exact ⟨herror, f, b, ts, b', hbuild, hfinish, hhandle, h⟩

/-- A document that was parsed is written as the texts of the tokens that reach it. -/
theorem render_of_parseSource {options : Options} {s : Source} {d : Document}
    (h : parseSource options s = .ok d) :
    (tokenize options.mode s).error = none ∧
      d.render = options.comments.keptTexts (tokenize options.mode s).tokens := by
  obtain ⟨hspelled, ⟨v, hturn, hend⟩, -⟩ := tokenize_faithful options.mode s
  obtain ⟨herror, f, b, ts, b', hbuild, hfinish, hhandle, hdone⟩ := parseSource_eq_ok h
  refine ⟨herror, ?_⟩
  obtain rfl := hend herror
  obtain ⟨hf, hb, htext⟩ := written_buildFiltered (Filter.ofOptions_sound options) rfl hspelled
    hturn hbuild
  obtain ⟨hfold, hts, hlast, hpending⟩ := Filter.finish_sound hf hfinish
  have hb₀ : b.starting.isSome = ({} : Turn).inTag := by
    simpa [Filter.outTurn, Turn.unblocked, hfold] using hb
  obtain ⟨hwritten, -⟩ := Builder.written_handleAll hb₀ hts hlast hhandle
  rw [Builder.written_finish hdone, hwritten, hpending, htext]
  simp [Builder.written, Filter.pending, Filter.ofOptions, Node.renderAll]

theorem keptTexts_keep (ts : List Token) : CommentPolicy.keep.keptTexts ts = Token.rawText ts := by
  have hkeep : CommentPolicy.keep.keptText = Token.raw := by
    funext t
    simp [CommentPolicy.keptText]
  simp [CommentPolicy.keptTexts, Token.rawText, hkeep]

theorem keptTexts_discard (ts : List Token) :
    CommentPolicy.discard.keptTexts ts = Token.rawText (ts.filter fun t => !t.isParserOnly) := by
  induction ts with
  | nil => rfl
  | cons t ts ih =>
    cases ht : t.isParserOnly <;> simp_all [CommentPolicy.keptTexts, CommentPolicy.keptText]

/-- A document that was parsed is written as its source where the comments for the parser are kept,
and without the tokens that are for the parser only where they are discarded. -/
theorem render_parse {options : Options} {s : String} {d : Document}
    (h : parse options s = .ok d) :
    d.render = match options.comments with
      | .keep => s
      | .discard => String.join
          (((tokenize options.mode (.ofString s)).tokens.filter fun t => !t.isParserOnly).map
            Token.raw) := by
  obtain ⟨herror, hrender⟩ := render_of_parseSource h
  cases hcomments : options.comments with
  | keep =>
    rw [hrender, hcomments, keptTexts_keep, (tokenize_faithful ..).text herror]
    simp [Source.ofString]
  | discard =>
    rw [hrender, hcomments, keptTexts_discard, Token.rawText]

theorem render_parse_stray_marks : ∃ d,
    parse {} "<p a=1/ b='2' / >x<!--/* n */-->y<br></i ><!--/*/<b>z/*/--></P >" = .ok d ∧
      d.render = "<p a=1/ b='2' / >xy<br></i ><b>z</P >" := by
  have hok :
      (parse {} "<p a=1/ b='2' / >x<!--/* n */-->y<br></i ><!--/*/<b>z/*/--></P >").isOk := by
    decide +kernel
  match h : parse {} "<p a=1/ b='2' / >x<!--/* n */-->y<br></i ><!--/*/<b>z/*/--></P >" with
  | .ok d =>
    refine ⟨d, rfl, ?_⟩
    rw [render_parse h]
    decide +kernel
  | .error e =>
    rw [h] at hok
    contradiction

end NaturalTemplate.Markup
