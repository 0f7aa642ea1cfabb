import NaturalTemplate.Proofs.Markup.Closing
import NaturalTemplate.Proofs.Markup.Failing
import NaturalTemplate.Proofs.Markup.Reached

/-!
# Bodies of raw text

Behind the start tag of a script or a style comes text, whatever it looks like, up to the first
place where the end tag of the element begins: its name must stand there to its end, so a name that
goes on is passed over. Without such a place all the rest is text. A source that failed has to give
the character behind the name.
-/
namespace NaturalTemplate.Markup
open Lexeme

/-! ## Where a body ends -/

/-- Whether the end tag of an element begins here: its name in any case, and behind the name a
character that ends it or the end of the source. -/
def EndTagAt (failure : Option ReadFailure) (name : String) (cs : List Char) : Prop :=
  ∃ spelled behind, cs = Mark.endTagStart ++ (spelled ++ behind) ∧
    Text.fold spelled = Text.fold name.toList ∧ (behind = [] → failure = none) ∧
    ∀ c ∈ behind.head?, c = '>' ∨ c = '/' ∨ Text.isBlank c = true

/-- Whether a body ends in front of `back` and nowhere before. -/
structure EndsBody (failure : Option ReadFailure) (name : String) (body back : List Char) :
    Prop where
  ends : EndTagAt failure name back
  first : ∀ more, more <:+ body → more ≠ [] → ¬ EndTagAt failure name (more ++ back)

theorem EndTagAt.ofNone {failure : Option ReadFailure} {name : String} {cs : List Char}
    (h : EndTagAt failure name cs) : EndTagAt none name cs := by
  obtain ⟨spelled, behind, hcs, hname, -, hbehind⟩ := h
  exact ⟨spelled, behind, hcs, hname, fun _ => rfl, hbehind⟩

theorem EndsBody.of_cons {failure : Option ReadFailure} {name : String} {body back : List Char}
    {c : Char} (h : EndsBody failure name (c :: body) back) : EndsBody failure name body back :=
  ⟨h.ends, fun more hmore => h.first more (List.suffix_cons_iff.mpr (.inr hmore))⟩

namespace Lexeme

variable {failure : Option ReadFailure} {name : String} {body back cs : List Char}

theorem closesRawText_none_iff :
    closesRawText none (Mark.endTagStart ++ name.toList) cs = .ok true ↔ EndTagAt none name cs := by
  have hlength : (Text.fold name.toList).length = name.toList.length := by simp [Text.fold]
  rw [closesRawText_none, Except.ok.injEq, Bool.and_eq_true, List.isPrefixOf_iff_prefix]
  constructor
  · rintro ⟨hbegins, hbehind⟩
    obtain ⟨a, b, ds, rfl⟩ : ∃ a b ds, cs = a :: b :: ds := by
      cases cs with
      | nil => simp [Mark.endTagStart, Text.fold] at hbegins
      | cons a cs =>
        cases cs with
        | nil => simp [Mark.endTagStart, Text.fold] at hbegins
        | cons b ds => exact ⟨a, b, ds, rfl⟩
    simp only [Mark.endTagStart, List.cons_append, List.nil_append, Text.fold, List.map_cons,
      List.cons_prefix_cons] at hbegins
    obtain ⟨ha, hb, hname⟩ := hbegins
    -- The two characters in front of the name have no case.
    obtain rfl : a = '<' := Text.eq_of_toLower_eq (by decide) ha.symm
    obtain rfl : b = '/' := Text.eq_of_toLower_eq (by decide) hb.symm
    refine ⟨ds.take name.toList.length, ds.drop name.toList.length, ?_, ?_, fun _ => rfl, ?_⟩
    · simp [Mark.endTagStart]
    · have htake := (List.prefix_iff_eq_take.mp hname).symm
      rwa [List.length_map, ← List.map_take] at htake
    · intro c hc
      have hnext : ('<' :: '/' :: ds)[(Mark.endTagStart ++ name.toList).length]? = some c := by
        simpa [Mark.endTagStart] using hc
      rw [hnext] at hbehind
      simpa [or_assoc] using hbehind
  · rintro ⟨spelled, behind, rfl, hname, -, hbehind⟩
    have hspelled : spelled.length = name.toList.length := by
      rw [← hlength, ← hname]
      simp [Text.fold]
    refine ⟨?_, ?_⟩
    · rw [fold_append, fold_append, fold_append, hname, ← List.append_assoc]
      exact List.prefix_append _ _
    · rw [← List.append_assoc, List.getElem?_append_right (by simp [hspelled])]
      cases behind with
      | nil => simp [hspelled]
      | cons c behind =>
        have hc := hbehind c (by simp)
        simp [hspelled, hc, or_assoc]

/-- A question that does not reach the end of what a source gave is answered. -/
theorem closesRawText_of_length {close : List Char} (h : close.length < cs.length) :
    closesRawText failure close cs = closesRawText none close cs := by
  have hhas (failure : Option ReadFailure) (n : Nat) (hn : n ≤ cs.length) :
      Source.has failure n cs = .ok true := by
    simp [Source.has, hn]
  have hlook (failure : Option ReadFailure) := hhas failure close.length h.le
  have hpeek (failure : Option ReadFailure) := hhas failure (close.length + 1) h
  simp only [closesRawText, Source.lookingAtIgnoringCase, Source.peek, hlook, hpeek]

/-- The end tag of an element is seen if it is there with the character behind its name. -/
theorem closesRawText_iff :
    closesRawText failure (Mark.endTagStart ++ name.toList) cs = .ok true ↔
      EndTagAt failure name cs := by
  cases failure with
  | none => exact closesRawText_none_iff
  | some f =>
    constructor
    · intro h
      have hends := closesRawText_none_iff.mp ((agrees_closesRawText f _ cs).eq_ok h)
      obtain ⟨spelled, behind, rfl, hname, -, hbehind⟩ := hends
      refine ⟨spelled, behind, rfl, hname, ?_, hbehind⟩
      rintro rfl
      -- The character behind the name is asked for, and the source failed there.
      have hlength : spelled.length = name.toList.length := by
        simpa [Text.fold] using congrArg List.length hname
      unfold closesRawText at h
      obtain ⟨-, h⟩ | ⟨-, h⟩ := Source.ask_eq_ok h
      · simp [Source.peek, Source.has, hlength, bind, Except.bind] at h
      · cases h
    · intro h
      have hnone := closesRawText_none_iff.mpr h.ofNone
      obtain ⟨spelled, behind, rfl, hname, hbehind, -⟩ := h
      rwa [closesRawText_of_length]
      have hlength : spelled.length = name.toList.length := by
        simpa [Text.fold] using congrArg List.length hname
      have hpos : 0 < behind.length :=
        List.length_pos_iff.mpr fun hnil => Option.some_ne_none f (hbehind hnil)
      simp only [List.length_append]
      omega

instance : Decidable (EndTagAt failure name cs) :=
  decidable_of_iff _ closesRawText_iff

instance : Decidable (EndsBody failure name body back) :=
  decidable_of_iff (EndTagAt failure name back ∧
      ∀ more ∈ body.tails, more ≠ [] → ¬ EndTagAt failure name (more ++ back))
    ⟨fun ⟨hends, hfirst⟩ => ⟨hends, fun more hmore => hfirst more ((List.mem_tails ..).mpr hmore)⟩,
      fun h => ⟨h.ends, fun more hmore => h.first more ((List.mem_tails ..).mp hmore)⟩⟩

theorem closesRawText_eq_false {close : List Char} (hlength : close.length < cs.length)
    (h : closesRawText failure close cs ≠ .ok true) :
    closesRawText failure close cs = .ok false := by
  rw [closesRawText_of_length hlength, closesRawText_none] at h ⊢
  simpa using h

/-- A body is read up to where it ends. -/
theorem rawTextRun_of_endsBody (h : EndsBody failure name body back) :
    rawTextRun failure (Mark.endTagStart ++ name.toList) (body ++ back) = .ok (body, back) := by
  have hback := closesRawText_iff.mpr h.ends
  obtain ⟨spelled, behind, hspell, hname, -, -⟩ := h.ends
  have hlength : (Mark.endTagStart ++ name.toList).length ≤ back.length := by
    have hsame := congrArg List.length hname
    simp only [Text.fold, List.length_map] at hsame
    simp only [hspell, List.length_append]
    omega
  induction body with
  | nil =>
    obtain ⟨c, ds, rfl⟩ : ∃ c ds, back = c :: ds := ⟨_, _, hspell⟩
    simp [rawTextRun, hback, bind, Except.bind, pure, Except.pure]
  | cons c body ih =>
    have hopen : closesRawText failure (Mark.endTagStart ++ name.toList) (c :: (body ++ back)) =
        .ok false := by
      refine closesRawText_eq_false ?_ fun hcloses => ?_
      · simp only [List.length_cons, List.length_append] at hlength ⊢
        omega
      · exact h.first (c :: body) List.suffix_rfl (List.cons_ne_nil c body)
          (closesRawText_iff.mp hcloses)
    rw [List.cons_append, rawTextRun, hopen]
    simp [ih h.of_cons, bind, Except.bind, pure, Except.pure]

/-- A body that ends nowhere is all that the source has. -/
theorem rawTextRun_of_open (h : ∀ more, more <:+ cs → ¬ EndTagAt failure name more) :
    rawTextRun failure (Mark.endTagStart ++ name.toList) cs =
      failure.elim (.ok (cs, [])) .error := by
  induction cs with
  | nil => cases failure <;> rfl
  | cons c cs ih =>
    have hrest := ih fun more hmore => h more (List.suffix_cons_iff.mpr (.inr hmore))
    have hopen : closesRawText failure (Mark.endTagStart ++ name.toList) (c :: cs) ≠ .ok true :=
      fun hcloses => h (c :: cs) List.suffix_rfl (closesRawText_iff.mp hcloses)
    have hfalse : closesRawText failure (Mark.endTagStart ++ name.toList) (c :: cs) = .ok false ∨
        ∃ f, failure = some f ∧
          closesRawText failure (Mark.endTagStart ++ name.toList) (c :: cs) = .error f := by
      cases failure with
      | none =>
        rw [closesRawText_none] at hopen ⊢
        exact .inl (by simpa using hopen)
      | some f =>
        obtain herror | hsame := agrees_closesRawText f (Mark.endTagStart ++ name.toList) (c :: cs)
        · exact .inr ⟨f, rfl, herror⟩
        · rw [hsame, closesRawText_none] at hopen ⊢
          exact .inl (by simpa using hopen)
    obtain hfalse | ⟨f, rfl, herror⟩ := hfalse
    · rw [rawTextRun, hfalse, hrest]
      cases failure <;> rfl
    · rw [rawTextRun, herror]
      rfl

/-! ## The end tag -/

/-- The name of a raw-text element has only letters, in whatever case. -/
theorem isTagNameChar_of_isRawText {spelled : List Char} (hname : isRawText name = true)
    (h : Text.fold spelled = Text.fold name.toList) : ∀ c ∈ spelled, isTagNameChar c = true := by
  have hnames : Text.fold name.toList ∈ rawTextNames.map fun n => Text.fold n.toList := by
    simpa [isRawText, rawTextNames] using hname
  have hletters : (rawTextNames.map fun n => Text.fold n.toList).all
      (fun cs => cs.all Char.isAlpha) = true := by decide
  intro c hc
  have hall : (Text.fold name.toList).all Char.isAlpha = true :=
    List.all_eq_true.mp hletters _ hnames
  have hlower : c.toLower ∈ Text.fold name.toList := h ▸ List.mem_map_of_mem hc
  exact isTagNameChar_of_isAlphabetic (Text.isAlphabetic_of_isAlpha
    (Text.isAlpha_of_toLower (List.all_eq_true.mp hall _ hlower)))

/-- Where a body ends an end tag is read that has the name of the element, unless the tag is not
closed. -/
theorem scanUnit_endTagAt (hname : isRawText name = true) (h : EndTagAt none name cs)
    (inBlock : Bool) :
    (∃ l rest spelled, scanUnit .tolerant none inBlock cs = .ok ([l], rest) ∧
      l.kind = .tagEnd spelled ∧ Text.sameName spelled name = true) ∨
    '>' ∉ cs ∧ ∃ fault, scanUnit .tolerant none inBlock cs = .error fault := by
  have hopens := opens_of_closesRawText hname (closesRawText_iff.mpr h)
  obtain ⟨spelled, behind, rfl, hfold, -, hbehind⟩ := h
  have hchars := isTagNameChar_of_isRawText hname hfold
  have hstop : ∀ c ∈ behind.head?, isTagNameChar c = false := by
    intro c hc
    obtain rfl | rfl | hblank := hbehind c hc
    · decide
    · decide
    · exact isTagNameChar_of_isBlank hblank
  have hrun : (spelled ++ behind).takeWhile isTagNameChar = spelled ∧
      (spelled ++ behind).dropWhile isTagNameChar = behind := by
    cases behind with
    | nil => simpa using hchars
    | cons c behind => exact Source.takeWhile_run hchars (hstop c rfl) behind
  have hscan : scanUnit .tolerant none inBlock (Mark.endTagStart ++ (spelled ++ behind)) =
      (scanEndTag .tolerant none (Mark.endTagStart ++ (spelled ++ behind))).map one := by
    rw [scanUnit_of_opens inBlock hopens, scanMarkup]
    simp only [Mark.endTagStart, List.cons_append, List.nil_append, construct_endTag]
  rw [hscan]
  cases hclose : Text.splitAt? Mark.tagEnd behind with
  | none =>
    refine .inr ⟨?_, .malformed (.unterminatedEndTag (String.ofList spelled)) [], ?_⟩
    · have hmark : '>' ∉ behind := by
        simpa [Mark.tagEnd, List.singleton_infix_iff] using Text.splitAt?_eq_none_iff.mp hclose
      have hspelled : '>' ∉ spelled := fun hin => absurd (hchars _ hin) (by decide)
      simp [Mark.endTagStart, hmark, hspelled]
    · simp [scanEndTag, Mark.endTagStart, hrun, hclose, Except.map]
  | some found =>
    obtain ⟨content, rest⟩ := found
    refine .inl ⟨⟨.tagEnd (String.ofList spelled),
      Mark.endTagStart ++ spelled ++ content ++ Mark.tagEnd⟩, rest, _, ?_, rfl, ?_⟩
    · simp [scanEndTag, Mark.endTagStart, hrun, hclose, Except.map, one]
    · simpa using hfold

end Lexeme

/-! ## Behind a start tag -/

/-- The tokens of a start tag that a body of raw text follows. -/
inductive Token.StartsBody (name : String) : List Token → Prop
  | intro {b e : Token} {attributes : List Token} {trailing : String} (hb : b.kind = .tagStart name)
      (hattributes : ∀ t ∈ attributes, t.kind.isAttribute = true)
      (he : e.kind = .tagStartEnd trailing false) (hname : isRawText name = true) :
      StartsBody name (b :: (attributes ++ [e]))

namespace Lexeme

/-- The tokens of a start tag can be told from those behind it. -/
theorem locate_lexemes_eq {tag : Tag} {p : Position} {b e : Token} {attributes ts us : List Token}
    (hattributes : ∀ t ∈ attributes, t.kind.isAttribute = true) (he : e.kind.isAttribute = false)
    (h : locate p tag.lexemes ++ ts = b :: (attributes ++ e :: us)) :
    b.kind = .tagStart tag.name ∧ e.kind = .tagStartEnd tag.trailing tag.selfClosing ∧ ts = us := by
  rw [Tag.lexemes, locate, List.cons_append] at h
  obtain ⟨rfl, hrest⟩ := List.cons.inj h
  refine ⟨rfl, ?_⟩
  have hdrop := congrArg (List.dropWhile fun t => t.kind.isAttribute) hrest
  rw [List.dropWhile_append_of_pos hattributes, List.dropWhile_cons_of_neg (by simp [he])] at hdrop
  obtain ⟨d, hd, hparts⟩ := dropWhile_locate tag.attributes tag.trailing tag.selfClosing
    (p.advanceBy ('<' :: tag.name.toList)) ts
  obtain ⟨rfl, rfl⟩ := List.cons.inj (hparts.symm.trans hdrop)
  exact ⟨hd, rfl⟩

theorem rawTextAfter_lexemes {tag : Tag} (hname : isRawText tag.name = true)
    (hopen : tag.selfClosing = false) : rawTextAfter .tolerant tag.lexemes = some tag.name := by
  unfold rawTextAfter
  rw [getLast?_lexemes, hopen]
  simp [Tag.lexemes, hname]

/-- The first token of a start tag comes from the whole of one, and is the first token of that. -/
theorem exists_tag_of_scanUnit {mode : Mode} {failure : Option ReadFailure} {inBlock : Bool}
    {c : Char} {ds rest : List Char} {ls : List Lexeme} {p : Position} {front more : List Token}
    {b : Token} {name : String} (hb : b.kind = .tagStart name)
    (hscan : scanUnit mode failure inBlock (c :: ds) = .ok (ls, rest))
    (h : locate p ls = front ++ b :: more) : ∃ tag : Tag, ls = tag.lexemes ∧ front = [] := by
  have hnone : scanUnit mode none inBlock (c :: ds) = .ok (ls, rest) := by
    cases failure with
    | none => exact hscan
    | some f => exact (agrees_scanUnit mode f inBlock (c :: ds)).eq_ok hscan
  obtain ⟨l, rfl, hpiece⟩ | ⟨tag, -, rfl⟩ := exists_of_scanUnit hnone
  · have hmem : b ∈ locate p [l] := by simp [h]
    obtain rfl := List.mem_singleton.mp hmem
    have hl : l.kind = .tagStart name := hb
    rw [hl] at hpiece
    exact hpiece.elim
  · refine ⟨tag, rfl, ?_⟩
    cases front with
    | nil => rfl
    | cons u front =>
      -- Behind the first token there are attributes and the end of the tag only.
      obtain ⟨-, hparts⟩ := List.cons.inj h
      have hmem : b ∈ front.append (b :: more) := by simp
      have hinner : b.kind.isInner = true := by
        refine forall_kind_locate (q := fun k => k.isInner = true) (fun l hl => ?_) _ b
          (hparts ▸ hmem)
        simp only [Tag.partLexemes, List.mem_append, List.mem_map, List.mem_singleton] at hl
        obtain ⟨a, -, rfl⟩ | rfl := hl <;> rfl
      rw [hb] at hinner
      cases hinner

end Lexeme

namespace Tokens

/-- How reading goes on behind some tokens: what they leave to read gives the others. -/
inductive GoesOn (mode : Mode) (failure : Option ReadFailure) (p : Position)
    (block : Option Location) (cs : List Char) (ts : List Token) (body : Option String)
    (after : Tokens) : Prop where
  | intro {rest : List Char} (htext : cs = (Token.rawText ts).toList ++ rest)
      (hafter : after = read mode failure (p.advanceBy (Token.rawText ts).toList)
        (Token.openBlock block ts) body rest)

section
variable {mode : Mode} {failure : Option ReadFailure} {p : Position} {block : Option Location}
  {body : Option String} {cs text : List Char} {front ts us : List Token} {after : Tokens}

theorem GoesOn.prepend
    (h : GoesOn mode failure (p.advanceBy text) (Token.openBlock block ts) cs us body after)
    (htext : Token.rawText ts = String.ofList text) :
    GoesOn mode failure p block (text ++ cs) (ts ++ us) body after := by
  have hraw : (Token.rawText (ts ++ us)).toList = text ++ (Token.rawText us).toList := by
    rw [Token.rawText_append, htext, String.toList_append, String.toList_ofList]
  cases h with
  | @intro rest hcs hafter =>
    have hwhole : text ++ cs = (Token.rawText (ts ++ us)).toList ++ rest := by
      rw [hraw, hcs, List.append_assoc]
    refine .intro hwhole ?_
    rw [hafter, hraw, Position.advanceBy_append, Token.openBlock_append]

/-- Behind a start tag that is read as a whole its body is read. -/
theorem goesOn_of_lexemes {name trailing : String} {tag : Tag} {c : Char} {rest : List Char}
    {b e : Token} {attributes : List Token} (hb : b.kind = .tagStart name)
    (hattributes : ∀ t ∈ attributes, t.kind.isAttribute = true)
    (he : e.kind = .tagStartEnd trailing false) (hname : isRawText name = true)
    (hscan : scanUnit .tolerant failure block.isSome (c :: cs) = .ok (tag.lexemes, rest))
    (h : locate p tag.lexemes ++ (read .tolerant failure (p.advanceBy (rawText tag.lexemes))
      (blockAfter block p.location tag.lexemes) (rawTextAfter .tolerant tag.lexemes) rest).tokens =
        b :: (attributes ++ e :: us)) :
    GoesOn .tolerant failure p block (c :: cs) (b :: (attributes ++ [e])) (some name)
      ⟨us, (read .tolerant failure (p.advanceBy (rawText tag.lexemes))
        (blockAfter block p.location tag.lexemes) (rawTextAfter .tolerant tag.lexemes)
        rest).error⟩ := by
  obtain ⟨hstart, hclosing, hus⟩ := locate_lexemes_eq hattributes (by rw [he]; rfl) h
  have htag : locate p tag.lexemes = b :: (attributes ++ [e]) := by
    rw [hus] at h
    exact List.append_cancel_right (h.trans (by simp))
  have hbody : rawTextAfter .tolerant tag.lexemes = some name := by
    obtain rfl : name = tag.name := by simpa using hb.symm.trans hstart
    exact rawTextAfter_lexemes hname (TokenKind.tagStartEnd.inj (hclosing.symm.trans he)).2
  have hwhole : c :: cs = (Token.rawText (locate p tag.lexemes)).toList ++ rest := by
    rw [rawText_locate, String.toList_ofList, scanUnit_append hscan]
  rw [← htag]
  refine .intro hwhole ?_
  rw [rawText_locate, String.toList_ofList, openBlock_locate block p hscan, hbody, ← hus, hbody]

/-- Behind a start tag with a body of raw text the body is read. -/
theorem goesOn_of_startsBody {name : String} (htag : Token.StartsBody name ts)
    (h : (read .tolerant failure p block body cs).tokens = front ++ (ts ++ us)) :
    GoesOn .tolerant failure p block cs (front ++ ts) (some name)
      ⟨us, (read .tolerant failure p block body cs).error⟩ := by
  obtain @⟨b, e, attributes, trailing, hb, hattributes, he, hname⟩ := htag
  have hread : (read .tolerant failure p block body cs).tokens =
      front ++ b :: (attributes ++ e :: us) := by
    rw [h]
    simp
  cases readIn_of_read (by rw [Token.isText, hb]) (by simp [hb]) hread with
  | @intro before inside more ls here rest hfront hcs hhere hscan hunit hafter =>
    obtain ⟨c, here, rfl⟩ := List.exists_cons_of_ne_nil hhere
    obtain ⟨tag, rfl, rfl⟩ := exists_tag_of_scanUnit hb hscan hunit
    obtain rfl : front = before := by rw [hfront, List.append_nil]
    rw [Position.advanceBy_append] at hafter
    obtain ⟨htokens, herror⟩ := Tokens.mk.inj hafter
    rw [herror, hcs]
    refine GoesOn.prepend (goesOn_of_lexemes hb hattributes he hname hscan ?_)
      String.ofList_toList.symm
    rw [hunit, htokens]
    rfl

end

theorem read_failed {f : ReadFailure} {failure : Option ReadFailure} {name : String}
    {cs : List Char} {p : Position} {block : Option Location}
    (hrun : rawTextRun failure (Mark.endTagStart ++ name.toList) cs = .error f) :
    read .tolerant failure p block (some name) cs = ⟨[], some (.source f)⟩ := by
  rw [read]
  split
  · next hread => cases hrun.symm.trans hread; rfl
  · next hread => cases hrun.symm.trans hread

/-- Where a body ends, its end tag is read next, or reading stops. -/
theorem read_endTagAt {failure : Option ReadFailure} {name : String} {cs : List Char}
    (hname : isRawText name = true) (h : EndTagAt failure name cs) (p : Position)
    (block : Option Location) :
    (∃ t others spelled, (read .tolerant failure p block none cs).tokens = t :: others ∧
      t.kind = .tagEnd spelled ∧ Text.sameName spelled name = true) ∨
    (read .tolerant failure p block none cs).tokens = [] ∧
      (read .tolerant failure p block none cs).error ≠ none ∧ (failure = none → '>' ∉ cs) := by
  obtain ⟨c, ds, rfl⟩ : ∃ c ds, cs = c :: ds := by
    obtain ⟨spelled, behind, hcs, -⟩ := h
    exact ⟨_, _, hcs⟩
  have hfault {fault : Fault} (hscan : scanUnit .tolerant failure block.isSome (c :: ds) =
      .error fault) : read .tolerant failure p block none (c :: ds) =
        ⟨[], some (fault.toError p)⟩ := by
    rw [read]
    split
    · next hread => cases hscan.symm.trans hread; rfl
    · next hread => cases hscan.symm.trans hread
  have hsame : scanUnit .tolerant failure block.isSome (c :: ds) =
        scanUnit .tolerant none block.isSome (c :: ds) ∨
      ∃ f, failure = some f ∧
        scanUnit .tolerant failure block.isSome (c :: ds) = .error (.source f) := by
    cases failure with
    | none => exact .inl rfl
    | some f => exact (agrees_scanUnit .tolerant f _ (c :: ds)).symm.imp_right fun h => ⟨f, rfl, h⟩
  obtain hsame | ⟨f, rfl, hsource⟩ := hsame
  · obtain ⟨l, rest, spelled, hscan, hkind, hspelled⟩ | ⟨hmark, fault, hscan⟩ :=
      scanUnit_endTagAt hname h.ofNone block.isSome
    · rw [read_next (List.cons_ne_nil c ds) (hsame.trans hscan)]
      exact .inl ⟨_, _, spelled, rfl, hkind, hspelled⟩
    · rw [hfault (hsame.trans hscan)]
      exact .inr ⟨rfl, by simp, fun _ => hmark⟩
  · rw [hfault hsource]
    exact .inr ⟨rfl, by simp, by simp⟩

end Tokens

/-- The token of a text at a place; there is none if the text is empty. -/
def Token.textAt (text : List Char) (place : Location) : List Token :=
  if text = [] then [] else [.text (String.ofList text) place]

theorem Token.locate_ofRun (p : Position) (text : List Char) :
    locate p (ofRun text) = Token.textAt text p.location := by
  unfold ofRun Token.textAt
  split <;> rfl

theorem Token.StartsBody.isRawText {name : String} {ts : List Token} (h : StartsBody name ts) :
    isRawText name = true := by
  cases h with
  | intro _ _ _ hname => exact hname

theorem Token.StartsBody.openBlock {name : String} {ts : List Token} (h : StartsBody name ts)
    (block : Option Location) : openBlock block ts = block := by
  cases h with
  | intro hb hattributes he _ =>
    refine openBlock_of_forall block ?_
    simp only [List.mem_cons, List.mem_append, List.not_mem_nil, or_false]
    rintro t (rfl | ht | rfl)
    · rw [hb]
      rfl
    · have hkind := hattributes t ht
      cases ht : t.kind <;> simp_all [TokenKind.isAttribute, TokenKind.isBlockMark]
    · rw [he]
      rfl

/-- Where the body behind a start tag is read. -/
theorem exists_read_of_startsBody {s : Source} {name : String} {before tag after : List Token}
    (htokens : (tokenize .tolerant s).tokens = before ++ (tag ++ after))
    (htag : Token.StartsBody name tag) (hblock : Token.openBlock none before = none) :
    ∃ cs, s.chars = (Token.rawText (before ++ tag)).toList ++ cs ∧
      (⟨after, (tokenize .tolerant s).error⟩ : Tokens) = Tokens.read .tolerant s.failure
        (Position.start.advanceBy (Token.rawText (before ++ tag)).toList) none (some name) cs := by
  cases before with
  | nil =>
    cases htag with
    | intro hb =>
      obtain ⟨rfl, -⟩ := List.cons.inj htokens
      cases hb
  | cons d before =>
    obtain ⟨rfl, hread⟩ := List.cons.inj htokens
    obtain @⟨cs, hchars, hafter⟩ := Tokens.goesOn_of_startsBody htag hread
    have hraw : Token.rawText (⟨.documentStart, "", .start⟩ :: before ++ tag) =
        Token.rawText (before ++ tag) := by simp
    have hopen : Token.openBlock none (before ++ tag) = none := by
      rw [Token.openBlock_append, htag.openBlock]
      exact hblock
    rw [hopen] at hafter
    exact ⟨cs, hraw ▸ hchars, hraw ▸ hafter⟩

/-- Behind the start tag of a script or a style that stands in no prototype-only block, the tolerant
rules read all up to the end tag as one text, and then the end tag unless it is not closed. Without
an end tag they read all the rest as one text; a source that failed gives its failure instead. -/
theorem tokenize_rawText {s : Source} {name : String} {before tag after : List Token}
    (htokens : (tokenize .tolerant s).tokens = before ++ (tag ++ after))
    (htag : Token.StartsBody name tag) (hblock : Token.openBlock none before = none) :
    ∃ cs, s.chars = (Token.rawText (before ++ tag)).toList ++ cs ∧
      (∀ body back, cs = body ++ back → EndsBody s.failure name body back →
        ∃ more, after = Token.textAt body (.after (Token.rawText (before ++ tag))) ++ more ∧
          ((∃ t others spelled, more = t :: others ∧ t.kind = .tagEnd spelled ∧
              Text.sameName spelled name = true) ∨
            more = [] ∧ (tokenize .tolerant s).error ≠ none ∧ (s.failure = none → '>' ∉ back))) ∧
      ((∀ more, more <:+ cs → ¬ EndTagAt s.failure name more) →
        (s.failure = none →
          after = Token.textAt cs (.after (Token.rawText (before ++ tag))) ++
              [⟨.documentEnd, "", .after (String.ofList s.chars)⟩] ∧
            (tokenize .tolerant s).error = none) ∧
        ∀ f, s.failure = some f →
          after = [] ∧ (tokenize .tolerant s).error = some (.source f)) := by
  have hplace : (Position.start.advanceBy (Token.rawText (before ++ tag)).toList).location =
      .after (Token.rawText (before ++ tag)) := by
    rw [Position.location_advanceBy_start, String.ofList_toList]
  obtain ⟨cs, hchars, hread⟩ := exists_read_of_startsBody htokens htag hblock
  refine ⟨cs, hchars, fun body back hcs hends => ?_, fun hopen => ?_⟩
  · rw [hcs, Tokens.read_body _ _ _ (rawTextRun_of_endsBody hends), Token.locate_ofRun,
      hplace] at hread
    obtain ⟨hafter, herror⟩ := Tokens.mk.inj hread
    refine ⟨_, hafter, ?_⟩
    rw [herror]
    exact Tokens.read_endTagAt htag.isRawText hends.ends _ _
  · have hrun := rawTextRun_of_open hopen
    refine ⟨fun hfailure => ?_, fun f hfailure => ?_⟩
    · rw [hfailure] at hread hrun
      rw [Tokens.read_body _ _ _ hrun, Tokens.read_nil, Token.locate_ofRun, hplace,
        ← Position.advanceBy_append, ← hchars, Position.location_advanceBy_start] at hread
      exact Tokens.mk.inj hread
    · rw [hfailure] at hread hrun
      rw [Tokens.read_failed hrun] at hread
      exact Tokens.mk.inj hread

/-- Neither the opening of a comment nor a longer name ends a script. -/
theorem tokenize_rawText_script :
    let s : Source := .ofString "<SCRIPT>a<!--</scriptx</Script >b"
    let tag : List Token :=
      [⟨.tagStart "SCRIPT", "<SCRIPT", .start⟩, ⟨.tagStartEnd "" false, ">", ⟨1, 8, 7⟩⟩]
    let text : Token := .text "a<!--</scriptx" ⟨1, 9, 8⟩
    Token.StartsBody "SCRIPT" tag ∧ ∃ t others spelled,
      (tokenize .tolerant s).tokens =
        [⟨.documentStart, "", .start⟩] ++ (tag ++ (text :: t :: others)) ∧
      t.kind = .tagEnd spelled ∧ Text.sameName spelled "SCRIPT" = true := by
  intro s tag text
  have htag : Token.StartsBody "SCRIPT" tag :=
    @Token.StartsBody.intro "SCRIPT" _ _ [] "" rfl (by simp) rfl (by decide)
  have htokens : (tokenize .tolerant s).tokens = [⟨.documentStart, "", .start⟩] ++
      (tag ++ (tokenize .tolerant s).tokens.drop 3) := by
    decide +kernel
  obtain ⟨cs, hchars, hbody, -⟩ := tokenize_rawText htokens htag rfl
  have hcs : cs = "a<!--</scriptx".toList ++ "</Script >b".toList :=
    List.append_cancel_left (hchars.symm.trans (by decide))
  obtain ⟨more, hafter, ⟨t, others, spelled, rfl, hkind, hspelled⟩ | ⟨-, -, hmark⟩⟩ :=
    hbody _ _ hcs (by decide)
  · have htext : Token.textAt "a<!--</scriptx".toList
        (.after (Token.rawText ([⟨.documentStart, "", .start⟩] ++ tag))) = [text] := by
      decide +kernel
    refine ⟨htag, t, others, spelled, ?_, hkind, hspelled⟩
    rw [htokens, hafter, htext]
    rfl
  · exact absurd (by decide) (hmark rfl)

end NaturalTemplate.Markup
