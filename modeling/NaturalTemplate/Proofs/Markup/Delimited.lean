import NaturalTemplate.Proofs.Markup.Failing
import NaturalTemplate.Proofs.Markup.Reached

/-!
# Constructs between two marks

Comments, CDATA sections, document types and instructions. Which of them begins somewhere is known
from the longest mark that stands there, and it ends with the first closing mark behind that one. If
there is none, reading stops where the construct begins.
-/
namespace NaturalTemplate.Markup
open Lexeme

/-- Whether content is followed by a mark that does not come earlier. -/
def EndsFirst (content stop rest : List Char) : Prop :=
  ∀ u v, content ++ stop ++ rest = u ++ stop ++ v → content.length ≤ u.length

theorem endsFirst_iff {content stop rest : List Char} : EndsFirst content stop rest ↔
    Text.splitAt? stop (content ++ stop ++ rest) = some (content, rest) := by
  simp [Text.splitAt?_eq_some_iff, EndsFirst]

instance (content stop rest : List Char) : Decidable (EndsFirst content stop rest) :=
  decidable_of_iff _ endsFirst_iff.symm

theorem EndsFirst.not_infix {content stop rest : List Char} (h : EndsFirst content stop rest)
    (hstop : stop ≠ []) : ¬ stop <:+: content := by
  rintro ⟨u, v, rfl⟩
  have hle := h u (v ++ stop ++ rest) (by simp)
  have hpos := List.length_pos_iff.mpr hstop
  simp only [List.length_append] at hle
  omega

namespace Lexeme

/-- Whether a construct begins with these characters, if it is one between two marks. The longest
opening mark counts. -/
def Construct.Begins (cs : List Char) : Construct → Prop
  | .parserComment => Mark.parserCommentStart <+: cs ∧ ¬ Mark.blockStart <+: cs
  | .comment => Mark.commentStart <+: cs ∧ ¬ Mark.parserCommentStart <+: cs
  | .cdata => Mark.cdataStart <+: cs
  | .docType => Text.fold Mark.docTypeStart <+: Text.fold cs
  | .instruction => Mark.instructionStart <+: cs
  | .block | .endTag | .startTag => False

instance (k : Construct) (cs : List Char) : Decidable (k.Begins cs) :=
  match k with
  | .parserComment | .comment => inferInstanceAs (Decidable (_ ∧ ¬ _))
  | .cdata | .docType | .instruction => inferInstanceAs (Decidable (_ <+: _))
  | .block | .endTag | .startTag => inferInstanceAs (Decidable False)

variable {failure : Option ReadFailure} {cs rest start stop : List Char} {cause : Malformation}
  {kind : String → TokenKind} {k : Construct}

/-! ## Opening marks -/

/-- A text begins with at most one of two marks that part. -/
theorem not_begins_of_begins {as bs cs : List Char} (h : as <+: cs) (hab : ¬ as <+: bs)
    (hba : ¬ bs <+: as) : ¬ bs <+: cs := fun hbs =>
  (List.prefix_or_prefix_of_prefix h hbs).elim hab hba

theorem prefix_fold {as bs : List Char} (h : as <+: bs) : Text.fold as <+: Text.fold bs := by
  obtain ⟨more, rfl⟩ := h
  rw [fold_append]
  exact List.prefix_append _ _

/-- Which construct between two marks begins here is known from the longest mark. -/
theorem construct_eq_iff (hk : k.Delimits start stop cause kind) (cs : List Char) :
    construct none cs = .ok k ↔ k.Begins cs := by
  have hblock : Mark.blockStart <+: cs → Mark.parserCommentStart <+: cs :=
    (by decide : Mark.parserCommentStart <+: Mark.blockStart).trans
  have hparser : Mark.parserCommentStart <+: cs → Mark.commentStart <+: cs :=
    (by decide : Mark.commentStart <+: Mark.parserCommentStart).trans
  have hcdata : Mark.cdataStart <+: cs → ¬ Mark.commentStart <+: cs := fun h =>
    not_begins_of_begins h (by decide) (by decide)
  have hdocType : Text.fold Mark.docTypeStart <+: Text.fold cs →
      ¬ Mark.commentStart <+: cs ∧ ¬ Mark.cdataStart <+: cs := fun h =>
    ⟨fun hcs => not_begins_of_begins h (by decide) (by decide) (prefix_fold hcs),
      fun hcs => not_begins_of_begins h (by decide) (by decide) (prefix_fold hcs)⟩
  have hinstruction : Mark.instructionStart <+: cs → ¬ Mark.commentStart <+: cs ∧
      ¬ Mark.cdataStart <+: cs ∧ ¬ Text.fold Mark.docTypeStart <+: Text.fold cs := fun h =>
    ⟨not_begins_of_begins h (by decide) (by decide),
      not_begins_of_begins h (by decide) (by decide),
      not_begins_of_begins (prefix_fold h) (by decide) (by decide)⟩
  rw [construct_none, Except.ok.injEq]
  simp only [List.isPrefixOf_iff_prefix]
  cases hk <;> simp only [Construct.Begins] <;> split_ifs <;> simp_all

theorem opensMarkup_of_begins {cs : List Char} (h : k.Begins cs) :
    opensMarkup none cs = .ok true := by
  have hbang {mark : List Char} (hmark : mark <+: cs) (hstart : Mark.declarationStart <+: mark) :
      ∃ ds, cs = '<' :: '!' :: ds := by
    obtain ⟨ds, rfl⟩ := hstart.trans hmark
    exact ⟨ds, rfl⟩
  cases k with
  | parserComment =>
    have hcomment : Mark.commentStart <+: cs := (by decide : Mark.commentStart <+: _).trans h.1
    obtain ⟨ds, rfl⟩ := hbang hcomment (by decide)
    simp [opensMarkup_none, List.isPrefixOf_iff_prefix.mpr hcomment]
  | comment =>
    obtain ⟨ds, rfl⟩ := hbang h.1 (by decide)
    simp [opensMarkup_none, List.isPrefixOf_iff_prefix.mpr h.1]
  | cdata =>
    have hcdata : Mark.cdataStart <+: cs := h
    obtain ⟨ds, rfl⟩ := hbang hcdata (by decide)
    simp [opensMarkup_none, List.isPrefixOf_iff_prefix.mpr hcdata]
  | docType =>
    have hdocType : Text.fold Mark.docTypeStart <+: Text.fold cs := h
    obtain ⟨ds, rfl⟩ := declarationStart_of_docTypeStart hdocType
    have hfold := List.isPrefixOf_iff_prefix.mpr hdocType
    simp only [Mark.declarationStart, List.cons_append, List.nil_append] at hfold
    simp [opensMarkup_none, Mark.declarationStart, hfold]
  | instruction =>
    obtain ⟨ds, rfl⟩ := h
    simp [opensMarkup_none, Mark.instructionStart]
  | block | endTag | startTag => exact h.elim

theorem Construct.Delimits.isPrefix_of_begins (hk : k.Delimits start stop cause kind)
    {cs : List Char} (h : k.Begins cs) : start <+: cs :=
  hk.isPrefix ((construct_eq_iff hk cs).mpr h)

/-- The kind of a token tells which construct it is, if it is one between two marks. -/
theorem Construct.Delimits.eq_of_kind {k' : Construct} {start' stop' : List Char}
    {cause' : Malformation} {kind' : String → TokenKind} {content content' : String}
    (hk : k.Delimits start stop cause kind) (hk' : k'.Delimits start' stop' cause' kind')
    (h : kind content = kind' content') :
    k = k' ∧ start = start' ∧ stop = stop' ∧ cause = cause' ∧ kind = kind' ∧
      content = content' := by
  cases hk <;> cases hk' <;> simp_all

/-! ## Closing marks -/

/-- What is read between two marks ends with the first closing mark. -/
theorem scanDelimited_eq_ok_iff (hstart : start <+: cs) {l : Lexeme} :
    scanDelimited failure start stop cause kind cs = .ok (l, rest) ↔
      ∃ content, l = ⟨kind (String.ofList content), start ++ content ++ stop⟩ ∧
        cs = start ++ content ++ stop ++ rest ∧ EndsFirst content stop rest := by
  obtain ⟨ds, rfl⟩ := hstart
  have hfound (content : List Char) :
      Source.readUntil failure stop ds = .ok (some (content, rest)) ↔
        ds = content ++ stop ++ rest ∧ EndsFirst content stop rest := by
    rw [Source.readUntil_eq_some_iff, endsFirst_iff]
    refine ⟨fun hsplit => ?_, fun ⟨hds, hfirst⟩ => hds ▸ hfirst⟩
    have hds := Text.splitAt?_eq_some hsplit
    exact ⟨hds, hds ▸ hsplit⟩
  have hread (content : List Char) : start ++ ds = start ++ content ++ stop ++ rest ↔
      ds = content ++ stop ++ rest := by
    rw [List.append_assoc start, List.append_assoc start, List.append_cancel_left_eq]
  simp only [hread, ← hfound, scanDelimited, List.drop_left, List.take_left]
  cases Source.readUntil failure stop ds with
  | error f => simp
  | ok found =>
    cases found with
    | none => simp
    | some found => simp [and_comm, eq_comm, Prod.ext_iff]

/-- The fault where a construct does not end. -/
def missing (failure : Option ReadFailure) (cause : Malformation) : Fault :=
  match failure with
  | none => .malformed cause []
  | some f => .source f

theorem scanDelimited_of_not_infix (h : ¬ stop <:+: cs.drop start.length) :
    scanDelimited failure start stop cause kind cs = .error (missing failure cause) := by
  rw [scanDelimited, Source.readUntil_of_splitAt?_eq_none failure
    (Text.splitAt?_eq_none_iff.mpr h)]
  cases failure <;> rfl

/-- What begins with a bracket is no end of a block. -/
theorem blockEnd_of_opens (inBlock : Bool) (hopens : opensMarkup none cs = .ok true) :
    (if inBlock then Source.lookingAt none Mark.blockEnd cs else .ok false) = .ok false := by
  obtain ⟨ds, rfl⟩ := opensMarkup_mark hopens
  have hmark : Mark.blockEnd.isPrefixOf (['<'] ++ ds) = false := rfl
  cases inBlock <;> simp only [Source.lookingAt_none, hmark, if_true, if_false, Bool.false_eq_true]

theorem scanUnit_of_not_infix (failure : Option ReadFailure) (mode : Mode) (inBlock : Bool)
    (hk : k.Delimits start stop cause kind) (hbegins : k.Begins cs)
    (h : ¬ stop <:+: cs.drop start.length) :
    scanUnit mode failure inBlock cs = .error (missing failure cause) := by
  have hopens := opensMarkup_of_begins hbegins
  have hconstruct := (construct_eq_iff hk cs).mpr hbegins
  have hmark := blockEnd_of_opens inBlock hopens
  cases failure with
  | none =>
    rw [scanUnit, hmark, hopens]
    dsimp only
    rw [scanMarkup_of_delimits hk mode inBlock hconstruct, scanDelimited_of_not_infix h]
    rfl
  | some f =>
    -- Any question on the way may find that the source failed, and so does the last one.
    have hasked : Source.Agrees f
        (if inBlock then Source.lookingAt (some f) Mark.blockEnd cs else .ok false)
        (.ok false) := by
      have hagrees := agrees_blockMark f inBlock cs
      rwa [hmark] at hagrees
    rw [scanUnit]
    refine hasked.elim rfl ?_
    dsimp only
    have hopened : Source.Agrees f (opensMarkup (some f) cs) (.ok true) :=
      hopens ▸ agrees_opensMarkup f cs
    refine hopened.elim rfl ?_
    dsimp only
    obtain hwhich | hwhich := hconstruct ▸ agrees_construct f cs
    · rw [scanMarkup, hwhich]
      rfl
    · rw [scanMarkup_of_delimits hk mode inBlock hwhich, scanDelimited_of_not_infix h]
      rfl

theorem scanUnit_of_endsFirst (mode : Mode) (inBlock : Bool)
    (hk : k.Delimits start stop cause kind) {content : List Char}
    (hcs : cs = start ++ content ++ stop ++ rest) (hbegins : k.Begins cs)
    (h : EndsFirst content stop rest) : scanUnit mode none inBlock cs =
      .ok ([⟨kind (String.ofList content), start ++ content ++ stop⟩], rest) := by
  have hscan : scanDelimited none start stop cause kind cs =
      .ok (⟨kind (String.ofList content), start ++ content ++ stop⟩, rest) :=
    (scanDelimited_eq_ok_iff (hk.isPrefix_of_begins hbegins)).mpr ⟨content, rfl, hcs, h⟩
  rw [scanUnit_of_opens inBlock (opensMarkup_of_begins hbegins),
    scanMarkup_of_delimits hk mode inBlock ((construct_eq_iff hk cs).mpr hbegins), hscan]
  rfl

/-- A token of such a kind was read where the construct begins. -/
theorem begins_of_scanUnit {mode : Mode} {inBlock : Bool} {l : Lexeme} {content : String}
    (hk : k.Delimits start stop cause kind) (hkind : l.kind = kind content)
    (h : scanUnit mode failure inBlock cs = .ok ([l], rest)) :
    k.Begins cs ∧ scanDelimited failure start stop cause kind cs = .ok (l, rest) := by
  have hconstruct {k' : Construct} (hok : construct failure cs = .ok k') :
      construct none cs = .ok k' := by
    cases failure with
    | none => exact hok
    | some f => exact (agrees_construct f cs).eq_ok hok
  cases steps_of_scanUnit h with
  | blockEnd => cases hk <;> cases hkind
  | text => cases hk <;> cases hkind
  | markup _ hscan =>
    cases scans_of_scanMarkup hscan with
    | blockStart => cases hk <;> cases hkind
    | delimited hk' hok hscan =>
      obtain ⟨content', hl⟩ := kind_of_scanDelimited hscan
      obtain ⟨rfl, rfl, rfl, rfl, rfl, -⟩ := hk'.eq_of_kind hk (hl.symm.trans hkind)
      exact ⟨(construct_eq_iff hk' cs).mp (hconstruct hok), hscan⟩
    | endTag _ hscan =>
      obtain ⟨name, hl⟩ := kind_of_scanEndTag hscan
      rw [hl] at hkind
      cases hk <;> cases hkind
    | startTag _ hscan =>
      cases scansTag_of_scanStartTag hscan with
      | intro => cases hk <;> cases hkind

end Lexeme

/-! ## Sources -/

section
variable {k : Construct} {start stop : List Char} {cause : Malformation}
  {kind : String → TokenKind}

/-- A token between two marks stands where a construct of its kind begins, and ends with the first
closing mark behind the opening one. -/
theorem delimited_of_tokenize {mode : Mode} {s : Source}
    (hk : k.Delimits start stop cause kind) {front back : List Token} {t : Token} {content : String}
    (htokens : (tokenize mode s).tokens = front ++ t :: back) (hkind : t.kind = kind content) :
    ∃ rest, s.chars = (Token.rawText front).toList ++ (start ++ content.toList ++ stop ++ rest) ∧
      k.Begins (start ++ content.toList ++ stop ++ rest) ∧ EndsFirst content.toList stop rest ∧
      t.raw = String.ofList (start ++ content.toList ++ stop) ∧
      t.location = .after (Token.rawText front) ∧ (Token.rawText back).toList <+: rest ∧
      ∀ u ∈ back.head?, u.location = .after (Token.rawText (front ++ [t])) := by
  obtain ⟨htext, hpart, hend, hstart⟩ : t.isText = false ∧ t.kind.isTagPart = false ∧
      t.kind ≠ .documentEnd ∧ t.kind ≠ .documentStart := by
    rw [Token.isText, hkind]
    cases hk <;> exact ⟨rfl, rfl, by simp, by simp⟩
  cases front with
  | nil =>
    obtain ⟨rfl, -⟩ := List.cons.inj htokens
    exact absurd rfl hstart
  | cons d front =>
    obtain ⟨rfl, hread⟩ := List.cons.inj htokens
    have hstand := tokenize_standFrom mode s
    rw [htokens] at hstand
    cases Tokens.wasRead_of_read htext hpart hend hread with
    | @intro l here rest hchars hhere hscan htoken hafter =>
      have hl : l.kind = kind content := by rw [← hkind, htoken]
      obtain ⟨hbegins, hscan⟩ := begins_of_scanUnit hk hl hscan
      obtain ⟨text, hlexeme, hcs, hfirst⟩ :=
        (scanDelimited_eq_ok_iff (hk.isPrefix_of_begins hbegins)).mp hscan
      obtain rfl : text = content.toList := by
        rw [hlexeme] at hl
        rw [← (hk.eq_of_kind hk hl).2.2.2.2.2, String.toList_ofList]
      have hraw : t.raw = String.ofList (start ++ content.toList ++ stop) := by
        rw [htoken, hlexeme]
      have hinner : t.kind.isInner = false := by
        rw [hkind]
        cases hk <;> rfl
      have hrest := congrArg Tokens.tokens hafter
      dsimp only at hrest
      obtain ⟨-, hplace, hback⟩ := Token.standFrom_append.mp hstand
      refine ⟨rest, ?_, ?_, hfirst, hraw, ?_, ?_, fun u hu => ?_⟩
      · simpa [hcs] using hchars
      · rwa [← hcs]
      · rw [hplace hinner, Position.location_advanceBy_start, String.ofList_toList]
      · rw [hrest]
        exact Tokens.rawText_read_prefix ..
      · have houter : u.kind.isInner = false := Tokens.isInner_of_head?_read (hrest ▸ hu)
        obtain ⟨us, rfl⟩ := List.head?_eq_some_iff.mp hu
        rw [hback.1 houter, ← Position.advanceBy_append,
          ← String.toList_append, Position.location_advanceBy_start, String.ofList_toList]
        simp

/-- A stream that has come upon such a construct between two others gives its token, or the source
cannot be read any further if the closing mark is missing. -/
theorem next_of_begins {mode : Mode} {s : Source} (hk : k.Delimits start stop cause kind)
    {given : List Token} {t : TokenStream} (h : t.Follows mode s given)
    (hstage : t.stage = .running) (hpending : t.pending = []) (hbody : t.body = none)
    (hbegins : k.Begins t.rest) :
    s.chars = (Token.rawText given).toList ++ t.rest ∧
      (s.failure = none → ∀ content rest, t.rest = start ++ content ++ stop ++ rest →
        EndsFirst content stop rest → t.next.1 = some (.ok ⟨kind (String.ofList content),
          String.ofList (start ++ content ++ stop), .after (Token.rawText given)⟩)) ∧
      (¬ stop <:+: t.rest.drop start.length →
        (tokenize mode s).tokens = given ∧
          (s.failure = none →
            (tokenize mode s).error = some (.malformed cause (.after (Token.rawText given)))) ∧
          ∀ f, s.failure = some f → (tokenize mode s).error = some (.source f)) := by
  have htext := h.text
  have hposition := h.position
  rw [hpending, List.append_nil] at htext hposition
  have hplace : t.position.location = .after (Token.rawText given) := by
    rw [hposition, Position.location_advanceBy_start, String.ofList_toList]
  have hleft : tokenize mode s = t.unread.prepend given := by
    rw [h.left (by simp [hstage]), TokenStream.left, hpending, hstage]
    rfl
  obtain ⟨c, cs, hrest⟩ : ∃ c cs, t.rest = c :: cs := by
    obtain ⟨more, hmore⟩ := hk.isPrefix_of_begins hbegins
    rw [← hmore]
    cases hk <;> exact ⟨_, _, rfl⟩
  refine ⟨htext, fun hnone content rest hcs hfirst => ?_, fun hmissing => ?_⟩
  · have hunit := scanUnit_of_endsFirst t.mode t.block.isSome hk hcs hbegins hfirst
    rw [← hnone, ← h.sameFailure, hrest] at hunit
    have hscan := t.unread_eq hstage
    rw [TokenStream.scan, hbody, hrest] at hscan
    simp only [hunit] at hscan
    rw [(TokenStream.items_next t).1, TokenStream.left, hpending, hstage, Tokens.items_prepend,
      hscan]
    have hlead (raw : List Char) : lead ⟨kind (String.ofList content), raw⟩ = [] := by
      cases hk <;> rfl
    simp [TokenStream.left, locate, hlead, hplace]
  · have hunit := scanUnit_of_not_infix t.failure t.mode t.block.isSome hk hbegins
      hmissing
    rw [hrest] at hunit
    have hscan := t.unread_eq hstage
    rw [TokenStream.scan, hbody, hrest] at hscan
    simp only [hunit] at hscan
    rw [hleft, hscan, ← h.sameFailure]
    refine ⟨by simp [Tokens.prepend], fun hnone => ?_, fun f hf => ?_⟩
    · simp [Tokens.prepend, missing, hnone, Fault.toError, hplace]
    · simp [Tokens.prepend, missing, hf, Fault.toError]

/-- A construct between two marks is as short as it can be. Every token of such a kind begins with
the longest opening mark that stands at its place and ends with the first closing mark behind it,
its content is what stands between them, and the next token stands right behind it. Wherever
reading comes upon an opening mark between two other constructs, it takes the text up to the first
closing mark for the token, and without one it fails at the opening mark. -/
theorem tokenize_delimited (mode : Mode) (s : Source) (hk : k.Delimits start stop cause kind) :
    (∀ front t back content, (tokenize mode s).tokens = front ++ t :: back →
      t.kind = kind content →
      ∃ rest, s.chars =
          (Token.rawText front).toList ++ (start ++ content.toList ++ stop ++ rest) ∧
        k.Begins (start ++ content.toList ++ stop ++ rest) ∧
        EndsFirst content.toList stop rest ∧
        t.raw = String.ofList (start ++ content.toList ++ stop) ∧
        t.location = .after (Token.rawText front) ∧ (Token.rawText back).toList <+: rest ∧
        ∀ u ∈ back.head?, u.location = .after (Token.rawText (front ++ [t]))) ∧
    ∀ n, let t := (TokenStream.ofSource mode s).asked n
      t.stage = .running → t.pending = [] → t.body = none → k.Begins t.rest →
        ∃ given, s.chars = (Token.rawText given).toList ++ t.rest ∧
          (s.failure = none → ∀ content rest, t.rest = start ++ content ++ stop ++ rest →
            EndsFirst content stop rest → t.next.1 = some (.ok ⟨kind (String.ofList content),
              String.ofList (start ++ content ++ stop), .after (Token.rawText given)⟩)) ∧
          (¬ stop <:+: t.rest.drop start.length →
            (tokenize mode s).tokens = given ∧
              (s.failure = none → (tokenize mode s).error =
                some (.malformed cause (.after (Token.rawText given)))) ∧
              ∀ f, s.failure = some f → (tokenize mode s).error = some (.source f)) := by
  refine ⟨fun front t back content htokens hkind => delimited_of_tokenize hk htokens hkind, ?_⟩
  intro n t hstage hpending hbody hbegins
  obtain ⟨given, hfollows⟩ := (TokenStream.follows_ofSource mode s).asked n
  exact ⟨_, next_of_begins hk hfollows hstage hpending hbody hbegins⟩

end

/-- Dashes inside a comment do not end it, and a comment that does not end is no token. -/
theorem tokenize_delimited_dashes :
    let s : Source := .ofString "<!--a--b-->c<!--d--"
    let comment : Token := ⟨.comment .normal "a--b", "<!--a--b-->", .start⟩
    let c : Token := .text "c" (.after "<!--a--b-->")
    Construct.Delimits .comment Mark.commentStart Mark.commentEnd .unterminatedComment
        (.comment .normal) ∧
      (tokenize .strict s).tokens = [⟨.documentStart, "", .start⟩, comment, c] ∧
      EndsFirst "a--b".toList Mark.commentEnd "c<!--d--".toList ∧
      ((TokenStream.ofSource .strict s).asked 3).rest = "<!--d--".toList ∧
      (tokenize .strict s).error =
        some (.malformed .unterminatedComment (.after "<!--a--b-->c")) := by
  intro s comment c
  have htokens : (tokenize .strict s).tokens =
      [⟨.documentStart, "", .start⟩] ++ comment :: [c] := by
    decide +kernel
  have hrest : ((TokenStream.ofSource .strict s).asked 3).rest = "<!--d--".toList := by
    decide +kernel
  have hstage : ((TokenStream.ofSource .strict s).asked 3).stage = .running := by decide +kernel
  have hpending : ((TokenStream.ofSource .strict s).asked 3).pending = [] := by decide +kernel
  have hbody : ((TokenStream.ofSource .strict s).asked 3).body = none := by decide +kernel
  have hbegins : Construct.Begins "<!--d--".toList .comment := by decide
  have hmissing : ¬ Mark.commentEnd <:+: "<!--d--".toList.drop Mark.commentStart.length := by
    decide
  obtain ⟨htoken, hcome⟩ := tokenize_delimited .strict s .comment
  obtain ⟨rest, hchars, -, hfirst, -⟩ := htoken _ _ _ "a--b" htokens rfl
  obtain ⟨given, -, -, herror⟩ := hcome 3 hstage hpending hbody (hrest ▸ hbegins)
  obtain ⟨hgiven, hmalformed, -⟩ := herror (hrest ▸ hmissing)
  refine ⟨.comment, htokens, ?_, hrest, ?_⟩
  · have hafter : "<!--a--b-->".toList ++ "c<!--d--".toList = "<!--a--b-->".toList ++ rest := hchars
    rwa [← List.append_cancel_left hafter] at hfirst
  · rw [hmalformed rfl, ← hgiven, htokens]
    rfl

end NaturalTemplate.Markup
