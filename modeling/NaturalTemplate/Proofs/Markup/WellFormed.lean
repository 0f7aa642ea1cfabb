import NaturalTemplate.Proofs.Markup.Reparse
import NaturalTemplate.Proofs.Markup.Tolerant

/-!
# Well-formed documents

A document is well formed if each part of it is written as what it is: names that are read as names,
values in quotes that they do not contain, end tags that close their own elements, texts that
nothing in them ends, and comments and declarations that end where they are said to end. Such a
document is parsed again from what is written of it, whatever becomes of comments; strict rules only
ask for double quotes.
-/
namespace NaturalTemplate.Markup
open Lexeme

/-- With space in front and a name, and without a value or with one in quotes. -/
structure Attribute.IsWellFormed (a : Attribute) : Prop extends a.IsApart where
  value : a.TolerantValue
  quote : a.quote ≠ .unquoted

structure Tag.IsWellFormed (t : Tag) : Prop where
  name : IsTagName t.name
  body : isRawText t.name = false
  attributes : ∀ a ∈ t.attributes, a.IsWellFormed
  trailing : IsSpace t.trailing

/-- An element that closes itself or is void has no children, and any other has its end tag. -/
def Tag.ClosesWith (t : Tag) (children : List Node) (endTag : EndTag) : Prop :=
  if t.selfClosing || isVoid t.name then children = [] ∧ endTag = .void
  else endTag = .explicit ("</" ++ t.name ++ ">")

/-- What holds of each node of a well-formed document by itself and of the row of its children. -/
def Node.IsWellFormed : Node → Prop
  | element tag children endTag =>
    tag.IsWellFormed ∧ tag.ClosesWith children endTag ∧ Joined children
  | text content _ => '<' ∉ content.toList
  | comment content _ =>
    ¬ Mark.commentEnd <:+: content.toList ∧ ¬ ['/', '*'] <+: content.toList
  | cdata content _ => ¬ Mark.cdataEnd <:+: content.toList
  | docType content _ =>
    Text.fold "DOCTYPE".toList <+: Text.fold content.toList ∧ '>' ∉ content.toList
  | instruction content _ => ¬ Mark.instructionEnd <:+: content.toList
  | unmatched .. => False

structure Document.IsWellFormed (d : Document) : Prop where
  nodes : Node.EverywhereIn Node.IsWellFormed d.nodes
  joined : Node.Joined d.nodes

/-- Whether no attribute of a node has its value in single quotes. -/
def Node.HasNoSingleQuote : Node → Prop
  | element tag _ _ => ∀ a ∈ tag.attributes, a.quote ≠ .single
  | _ => True

def Document.HasNoSingleQuote (d : Document) : Prop :=
  Node.EverywhereIn Node.HasNoSingleQuote d.nodes

/-- A document without the places of its nodes. -/
def Document.unplaced (d : Document) : Document := ⟨Node.unplacedAll d.nodes⟩

/-! ## Start tags -/

namespace Attribute.IsWellFormed

variable {a : Attribute}

theorem isTolerant (h : a.IsWellFormed) : a.IsTolerant :=
  ⟨fun c hc => .inl (h.leading.2 c hc), .inl h.name, h.value⟩

theorem isStrict (h : a.IsWellFormed) (hsingle : a.quote ≠ .single) : a.IsStrict := by
  refine ⟨h.leading, h.name, ?_⟩
  cases h.value with
  | missing hoperator hvalue hquote => exact .missing hoperator hvalue hquote
  | written hfront hback hoperator hvalue hallows =>
    cases hquote : a.quote with
    | double =>
      rw [hquote] at hallows
      exact .quoted hfront hback hoperator hvalue hallows hquote
    | single => exact absurd hquote hsingle
    | unquoted => exact absurd hquote h.quote
    | none =>
      rw [hquote] at hallows
      exact hallows.elim

/-- A value in quotes ends with them, and a name without value where an attribute can end. -/
theorem stops (h : a.IsWellFormed) {tail : List Char} (htail : EndsAttribute tail) :
    a.Stops tail := by
  obtain ⟨d, ds, hds, hd⟩ := htail.exists_cons
  obtain ⟨space, c, rest, rfl, hspace, hblank, hequals, -⟩ := htail
  unfold Attribute.Stops
  cases hquote : a.quote with
  | double | single => trivial
  | unquoted => exact absurd hquote h.quote
  | none =>
    refine ⟨fun _ e he => ?_, ?_⟩
    · rw [hds] at he
      exact Option.some.inj he ▸ hd
    · have hdrop := (Source.takeWhile_run hspace hblank rest).2
      rw [hdrop]
      simpa using hequals

end Attribute.IsWellFormed

/-- A start tag whose parts are set apart is ended by nothing that comes behind it. -/
theorem Tag.stops_of_isWellFormed {t : Tag} (hattributes : ∀ a ∈ t.attributes, a.IsWellFormed)
    (htrailing : IsSpace t.trailing) (rest : List Char) : t.Stops rest := by
  obtain ⟨name, attributes, trailing, selfClosing, location⟩ := t
  dsimp only at hattributes htrailing
  constructor
  · obtain ⟨d, ds, hds, hd⟩ := exists_cons_parts (fun a ha => (hattributes a ha).toIsApart)
      htrailing selfClosing rest
    intro c hc
    rw [hds] at hc
    exact Option.some.inj hc ▸ hd
  · induction attributes with
    | nil =>
      refine ⟨fun c hc => .inl (htrailing c hc), fun _ hlast => ?_⟩
      have hmem := List.mem_of_getLast? hlast
      exact absurd (htrailing '/' hmem) (by decide)
    | cons a attributes ih =>
      obtain ⟨ha, hattributes⟩ := List.forall_mem_cons.mp hattributes
      have hends := endsAttribute_parts (fun a ha => (hattributes a ha).toIsApart) htrailing
        selfClosing rest
      exact ⟨ha.isTolerant, ha.stops hends, ih hattributes⟩

namespace Tag.IsWellFormed

variable {t : Tag}

theorem isStrict (h : t.IsWellFormed) (hsingle : ∀ a ∈ t.attributes, a.quote ≠ .single) :
    t.IsStrict :=
  ⟨h.name, fun a ha => (h.attributes a ha).isStrict (hsingle a ha), h.trailing⟩

theorem stops (h : t.IsWellFormed) (rest : List Char) : t.Stops rest :=
  stops_of_isWellFormed h.attributes h.trailing rest

theorem rawTextAfter_eq (h : t.IsWellFormed) (mode : Mode) :
    rawTextAfter mode t.lexemes = none := by
  have hlast : t.lexemes.getLast?.map Lexeme.kind =
      some (.tagStartEnd t.trailing t.selfClosing) := by
    rw [Tag.lexemes, Tag.partLexemes, List.getLast?_cons, List.getLast?_append]
    rfl
  unfold rawTextAfter
  rw [hlast]
  split
  · next name _ _ hname _ =>
    cases hname
    simp [h.body]
  · rfl

theorem isStable (h : t.IsWellFormed) : t.IsStable .tolerant := by
  refine ⟨h.name, fun p rest => ?_⟩
  obtain ⟨hopens, hconstruct⟩ := opens_tag h.name rest
  refine .of_scanMarkup hopens ?_ (fun _ => rfl) (h.rawTextAfter_eq .tolerant) p
  rw [scanMarkup, hconstruct]
  exact (scanStartTag_tolerant_iff h.name rest).mpr (h.stops rest)

end Tag.IsWellFormed

/-! ## Leaves -/

theorem Lexeme.Construct.Delimits.exists_stop {k : Construct} {start stop : List Char}
    {cause : Malformation} {kind : String → TokenKind} (hk : k.Delimits start stop cause kind) :
    ∃ front, stop = front ++ ['>'] ∧ '>' ∉ front := by
  cases hk
  · exact ⟨['*', '/', '-', '-'], rfl, by decide⟩
  · exact ⟨['-', '-'], rfl, by decide⟩
  · exact ⟨[']', ']'], rfl, by decide⟩
  · exact ⟨[], rfl, by decide⟩
  · exact ⟨['?'], rfl, by decide⟩

/-- What stands between two marks is read up to the second one. -/
theorem scanMarkup_delimited {k : Construct} {start stop : List Char} {cause : Malformation}
    {kind : String → TokenKind} (hk : k.Delimits start stop cause kind) {content rest : List Char}
    (hcontent : ¬ stop <:+: content)
    (hconstruct : construct none (start ++ content ++ stop ++ rest) = .ok k) (mode : Mode)
    (inBlock : Bool) :
    scanMarkup mode none inBlock (start ++ content ++ stop ++ rest) =
      .ok ([⟨kind (String.ofList content), start ++ content ++ stop⟩], rest) := by
  obtain ⟨front, rfl, hfront⟩ := hk.exists_stop
  have hsplit := Text.splitAt?_of_last hfront hcontent rest
  rw [scanMarkup_of_delimits hk mode inBlock hconstruct, scanDelimited]
  simp only [List.append_assoc, List.drop_left, List.take_left, Source.readUntil_none] at hsplit ⊢
  rw [hsplit]
  simp [Except.map, one]

theorem isStableLeaf_of_delimits {mode : Mode} {policy : CommentPolicy} {n : Node} {k : Construct}
    {start stop : List Char} {cause : Malformation} {kind : String → TokenKind}
    (hk : k.Delimits start stop cause kind) {content : String}
    (hrender : n.render.toList = start ++ content.toList ++ stop)
    (hleaf : (kind content).leaf? n.location = some n)
    (honly : (kind content).isParserComment = false) (hcontent : ¬ stop <:+: content.toList)
    (hopens : ∀ rest, opensMarkup none (start ++ content.toList ++ stop ++ rest) = .ok true)
    (hconstruct : ∀ rest, construct none (start ++ content.toList ++ stop ++ rest) = .ok k) :
    n.IsStableLeaf mode policy := by
  let l : Lexeme := ⟨kind content, n.render.toList⟩
  have hraw : rawText [l] = n.render.toList := by simp [l]
  refine ⟨fun rest => hrender ▸ hopens rest, fun rest p => ?_⟩
  have hread : Reads mode p (rawText [l]) rest (locate p [l]) := by
    refine .of_scanMarkup ?_ ?_ ?_ ?_ p
    · rw [hraw, hrender]
      exact hopens rest
    · have hscan := scanMarkup_delimited hk hcontent (hconstruct rest) mode false
      rw [String.ofList_toList] at hscan
      rw [hraw, hrender, hscan]
      simp only [l, hrender]
    · intro location
      cases hk <;> rfl
    · cases hk <;> cases mode <;> rfl
  rw [hraw] at hread
  obtain ⟨m, hm, heq⟩ := TokenKind.leaf?_unplaced hleaf (p.advanceBy l.lead).location
  let t : Token := ⟨kind content, String.ofList l.raw, (p.advanceBy l.lead).location⟩
  have honly' : t.isParserOnly = false := by
    cases hk <;> simp_all [t, Token.isParserOnly, TokenKind.isBlockMark]
  exact ⟨_, hread, builds_leaf (fun us => .refl _) honly' hm heq⟩

/-- A comment that does not go on with a slash and a star is no comment for the parser. -/
theorem construct_comment {content : List Char} (h : ¬ ['/', '*'] <+: content) (rest : List Char) :
    construct none (Mark.commentStart ++ content ++ Mark.commentEnd ++ rest) = .ok .comment := by
  have hstar : ¬ ['/', '*'] <+: content ++ (Mark.commentEnd ++ rest) := by
    cases content with
    | nil => simp [Mark.commentEnd]
    | cons c content =>
      change ¬ ['/', '*'] <+: (c :: content) ++ '-' :: (['-', '>'] ++ rest)
      rwa [Source.prefix_append_cons (List.cons_ne_nil c content) (by decide)]
  have hparser : ¬ Mark.parserCommentStart <+:
      Mark.commentStart ++ (content ++ (Mark.commentEnd ++ rest)) := fun hbegins =>
    hstar ((List.prefix_append_right_inj Mark.commentStart).mp hbegins)
  have hblock : ¬ Mark.blockStart <+:
      Mark.commentStart ++ (content ++ (Mark.commentEnd ++ rest)) := fun hbegins =>
    hparser (List.IsPrefix.trans ⟨['/'], rfl⟩ hbegins)
  rw [construct_none, List.append_assoc, List.append_assoc]
  simp [hparser, hblock]

/-- What goes on like a declaration of the document type is one. -/
theorem opens_docType {cs : List Char} (h : Text.fold "DOCTYPE".toList <+: Text.fold cs) :
    opensMarkup none (Mark.declarationStart ++ cs) = .ok true ∧
      construct none (Mark.declarationStart ++ cs) = .ok .docType := by
  have hmark : Text.fold Mark.docTypeStart <+: Text.fold (Mark.declarationStart ++ cs) := by
    rw [fold_append]
    exact (List.prefix_append_right_inj (Text.fold Mark.declarationStart)).mpr h
  have hfirst : ∀ c ∈ cs.head?, c ≠ '-' ∧ c ≠ '[' := by
    cases cs with
    | nil => simp
    | cons c cs =>
      have hlower : 'd' = c.toLower := (List.cons_prefix_cons.mp h).1
      rintro d hd
      obtain rfl : c = d := Option.some.inj hd
      constructor <;> rintro rfl <;> revert hlower <;> decide
  have hmark' := List.isPrefixOf_iff_prefix.mpr hmark
  rw [opensMarkup_none, construct_none]
  cases cs with
  | nil => simp [Text.fold] at h
  | cons c cs =>
    obtain ⟨hdash, hbracket⟩ := hfirst c rfl
    constructor
    · simp only [Mark.declarationStart, List.cons_append, List.nil_append] at hmark' ⊢
      rw [hmark', Bool.or_true]
    · rw [if_neg, if_neg, if_neg, if_neg, if_pos hmark']
      all_goals simp [Mark.blockStart, Mark.parserCommentStart, Mark.commentStart, Mark.cdataStart,
        Mark.declarationStart, hdash.symm, hbracket.symm]

theorem Tag.ClosesWith.closes {t : Tag} {children : List Node} {endTag : EndTag}
    (h : t.ClosesWith children endTag) : Closes t children endTag := by
  unfold Tag.ClosesWith at h
  split at h
  · next hvoid => exact .void hvoid h.1 h.2
  · next hstays =>
    have hspace : IsSpace "" := by simp [IsSpace]
    exact .explicit (eq_false_of_ne_true hstays) hspace (by simp [h, endTagText])

theorem no_tagEnd_of_not_mem {cs : List Char} (h : '>' ∉ cs) : ¬ Mark.tagEnd <:+: cs :=
  fun hmarked => h (hmarked.subset List.mem_cons_self)

theorem Node.IsWellFormed.isStable {n : Node} (h : n.IsWellFormed) {mode : Mode}
    (hmode : mode = .strict → n.HasNoSingleQuote) (policy : CommentPolicy) :
    n.IsStable mode policy := by
  cases n with
  | element tag children endTag =>
    obtain ⟨htag, hcloses, hjoined⟩ := h
    refine ⟨?_, hcloses.closes, hjoined⟩
    cases mode with
    | strict => exact (htag.isStrict (hmode rfl)).isStable
    | tolerant => exact htag.isStable
  | text => exact h
  | comment content l =>
    refine isStableLeaf_of_delimits .comment ?_ rfl rfl h.1 (fun rest => ?_)
      (construct_comment h.2)
    · simp [render, Mark.commentStart, Mark.commentEnd]
    · rw [opensMarkup_none]
      rfl
  | cdata content l =>
    refine isStableLeaf_of_delimits .cdata ?_ rfl rfl h (fun rest => ?_) fun rest => ?_
    · simp [render, Mark.cdataStart, Mark.cdataEnd]
    · rw [opensMarkup_none]
      rfl
    · rw [construct_none]
      rfl
  | docType content l =>
    have hbegins (rest : List Char) : Text.fold "DOCTYPE".toList <+:
        Text.fold (content.toList ++ (Mark.tagEnd ++ rest)) := by
      rw [fold_append]
      exact h.1.trans (List.prefix_append _ _)
    have hopens (rest : List Char) := opens_docType (hbegins rest)
    simp only [← List.append_assoc] at hopens
    refine isStableLeaf_of_delimits .docType ?_ rfl rfl (no_tagEnd_of_not_mem h.2)
      (fun rest => (hopens rest).1) fun rest => (hopens rest).2
    simp [render, Mark.declarationStart, Mark.tagEnd]
  | instruction content l =>
    refine isStableLeaf_of_delimits .instruction ?_ rfl rfl h (fun rest => ?_) fun rest => ?_
    · simp [render, Mark.instructionStart, Mark.instructionEnd]
    · rw [opensMarkup_none]
      rfl
    · rw [construct_none]
      rfl
  | unmatched => exact h.elim

/-! ## Documents -/

/-- A well-formed document is what is parsed from what is written of it, but for the places of its
nodes: by tolerant rules, and by strict ones if no value is in single quotes. -/
theorem parse_render_of_isWellFormed {d : Document} (hd : d.IsWellFormed) {mode : Mode}
    (hmode : mode = .strict → d.HasNoSingleQuote) (policy : CommentPolicy) :
    (parse ⟨mode, policy⟩ d.render).map Document.unplaced = .ok d.unplaced := by
  have hstable : Node.EverywhereIn (Node.IsStable mode policy) d.nodes := by
    intro n hn
    cases mode with
    | strict =>
      exact ((hd.nodes n hn).and (hmode rfl n hn)).mono fun m hm =>
        hm.1.isStable (fun _ => hm.2) policy
    | tolerant => exact (hd.nodes n hn).mono fun m hm => hm.isStable (by simp) policy
  obtain ⟨d', hparse, hnodes⟩ := parse_render_of_isStable hstable hd.joined
  have hrender : (Document.mk d.nodes).render = d.render := rfl
  rw [← hrender, hparse]
  simp only [Except.map, Document.unplaced, hnodes]

/-- A paragraph with a text and a void element in it. -/
def paragraph (quote : Quote) : Document :=
  ⟨[.element ⟨"p", [⟨" ", "id", "= ", some "a", quote, {}⟩], "", false, {}⟩
    [.text "b > c" {}, .element ⟨"br", [], " ", false, {}⟩ [] .void] (.explicit "</p>")]⟩

theorem isWellFormed_paragraph {quote : Quote} (h : quote = .double ∨ quote = .single) :
    (paragraph quote).IsWellFormed := by
  have hempty : IsSpace "" := by simp [IsSpace]
  have hblank : IsSpace " " := List.all_eq_true.mp (by decide)
  have hname {name : String} (c : Char) (hc : name.toList.head? = some c)
      (hletter : c.isAlpha = true) (hchars : name.toList.all isTagNameChar = true) :
      IsTagName name :=
    ⟨⟨c, hc, Text.isAlphabetic_of_isAlpha hletter⟩, List.all_eq_true.mp hchars⟩
  have hnames : IsTagName "p" ∧ IsTagName "br" :=
    ⟨hname 'p' rfl rfl (by decide), hname 'b' rfl rfl (by decide)⟩
  have hid : Attribute.IsWellFormed ⟨" ", "id", "= ", some "a", quote, {}⟩ := by
    have hallows : quote.Allows "a" ∧ quote ≠ .unquoted := by
      obtain rfl | rfl := h <;> simp [Quote.Allows]
    exact ⟨⟨⟨(by decide : " " ≠ ""), hblank⟩, (by decide : IsAttributeName "id")⟩,
      .written hempty hblank rfl rfl hallows.1, hallows.2⟩
  have hp : Tag.IsWellFormed ⟨"p", [⟨" ", "id", "= ", some "a", quote, {}⟩], "", false, {}⟩ :=
    ⟨hnames.1, (by decide : isRawText "p" = false),
      List.forall_mem_singleton.mpr hid, hempty⟩
  have hbr : Tag.IsWellFormed ⟨"br", [], " ", false, {}⟩ :=
    ⟨hnames.2, by decide, List.forall_mem_nil _, hblank⟩
  have hvoid : isVoid "p" = false ∧ isVoid "br" = true := by decide
  have htext : Node.Everywhere Node.IsWellFormed (.text "b > c" {}) :=
    .of_leaf rfl (by decide : '<' ∉ "b > c".toList)
  have hbreak : Node.Everywhere Node.IsWellFormed (.element ⟨"br", [], " ", false, {}⟩ [] .void) :=
    .of_leaf rfl ⟨hbr, by simp [Tag.ClosesWith, hvoid], .nil⟩
  have hinside := List.forall_mem_cons.mpr ⟨htext, List.forall_mem_singleton.mpr hbreak⟩
  refine ⟨List.forall_mem_singleton.mpr (.intro ⟨hp, ?_, ?_⟩ hinside), .other rfl .nil⟩
  · simp [Tag.ClosesWith, hvoid]
  · exact .text {} (by decide) (by simp [Node.isText]) (.other rfl .nil)

/-- By tolerant rules with single quotes, by strict ones with double quotes. -/
theorem parse_render_of_isWellFormed_paragraph :
    (parse ⟨.tolerant, .keep⟩ (paragraph .single).render).map Document.unplaced =
        .ok (paragraph .single).unplaced ∧
      (parse ⟨.strict, .discard⟩ (paragraph .double).render).map Document.unplaced =
        .ok (paragraph .double).unplaced := by
  have hdouble : (paragraph .double).HasNoSingleQuote := by
    refine List.forall_mem_singleton.mpr (.intro (by simp [Node.HasNoSingleQuote]) ?_)
    exact List.forall_mem_cons.mpr ⟨.of_leaf rfl trivial,
      List.forall_mem_singleton.mpr (.of_leaf rfl (List.forall_mem_nil _))⟩
  exact ⟨parse_render_of_isWellFormed (isWellFormed_paragraph (.inr rfl)) (by simp) .keep,
    parse_render_of_isWellFormed (isWellFormed_paragraph (.inl rfl)) (fun _ => hdouble) .discard⟩

end NaturalTemplate.Markup
