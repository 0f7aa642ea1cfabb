import NaturalTemplate.Proofs.Markup.Spelling
import NaturalTemplate.Proofs.Source.Lookahead
import NaturalTemplate.Proofs.Text.Characters

/-!
# Strict tags

Strict reading accepts start tags with attributes that are set apart by white space and have no
values or double-quoted ones, and end tags with white space behind the name. It reads such a tag
again wherever it stands.
-/
namespace NaturalTemplate.Markup

def IsSpace (s : String) : Prop := ∀ c ∈ s.toList, Text.isBlank c = true

def IsAttributeName (name : String) : Prop :=
  name ≠ "" ∧ ∀ c ∈ name.toList, isAttributeNameChar c = true

instance (name : String) : Decidable (IsAttributeName name) :=
  decidable_of_iff (name ≠ "" ∧ name.toList.all isAttributeNameChar = true) (by
    rw [IsAttributeName, List.all_eq_true])

structure IsTagName (name : String) : Prop where
  head : ∃ c ∈ name.toList.head?, Text.isAlphabetic c = true
  chars : ∀ c ∈ name.toList, isTagNameChar c = true

/-- Without a value, or with one in double quotes. -/
inductive Attribute.StrictValue (a : Attribute) : Prop where
  | missing (hoperator : a.operator = "") (hvalue : a.value = none) (hquote : a.quote = .none)
  | quoted {front back value : String} (hfront : IsSpace front) (hback : IsSpace back)
    (hoperator : a.operator = front ++ "=" ++ back) (hvalue : a.value = some value)
    (hmark : '"' ∉ value.toList) (hquote : a.quote = .double)

structure Attribute.IsStrict (a : Attribute) : Prop where
  leading : a.leading ≠ "" ∧ IsSpace a.leading
  name : IsAttributeName a.name
  value : a.StrictValue

/-- Whether an attribute is set apart from what comes before it, and has a name. -/
structure Attribute.IsApart (a : Attribute) : Prop where
  leading : a.leading ≠ "" ∧ IsSpace a.leading
  name : IsAttributeName a.name

theorem Attribute.IsStrict.isApart {a : Attribute} (h : a.IsStrict) : a.IsApart :=
  ⟨h.leading, h.name⟩

structure Tag.IsStrict (t : Tag) : Prop where
  name : IsTagName t.name
  attributes : ∀ a ∈ t.attributes, a.IsStrict
  trailing : IsSpace t.trailing

/-- The text of an attribute behind the space before it. -/
def Attribute.body (a : Attribute) : List Char :=
  a.name.toList ++ (a.value.map fun v => a.operator.toList ++ '"' :: (v.toList ++ ['"'])).getD []

def Attribute.lexeme (a : Attribute) : Lexeme :=
  ⟨.attribute a.leading a.name a.operator a.value a.quote, a.render.toList⟩

/-- The text at the end of a start tag. -/
def Tag.closing (selfClosing : Bool) : List Char := if selfClosing then ['/', '>'] else ['>']

/-- The lexemes of a start tag behind its name. -/
def Tag.partLexemes (attributes : List Attribute) (trailing : String) (selfClosing : Bool) :
    List Lexeme :=
  attributes.map Attribute.lexeme ++
    [⟨.tagStartEnd trailing selfClosing, trailing.toList ++ Tag.closing selfClosing⟩]

def Tag.lexemes (t : Tag) : List Lexeme :=
  ⟨.tagStart t.name, '<' :: t.name.toList⟩ ::
    Tag.partLexemes t.attributes t.trailing t.selfClosing

/-- The lexeme of an end tag with some space behind its name. -/
def endTagLexeme (name space : String) : Lexeme :=
  ⟨.tagEnd name, '<' :: '/' :: (name.toList ++ space.toList ++ ['>'])⟩

/-! ## Characters -/

theorem isTagNameChar_of_isAlphabetic {c : Char} (h : Text.isAlphabetic c = true) :
    isTagNameChar c = true := by
  have hmark : ∀ d ∈ ['>', '/', '<'], Text.isAlphabetic d = false :=
    Text.forall_of_all (by decide +kernel)
  have hne : ∀ d ∈ ['>', '/', '<'], c ≠ d := by
    rintro d hd rfl
    rw [hmark c hd] at h
    contradiction
  simp only [List.mem_cons, List.not_mem_nil, or_false, forall_eq_or_imp, forall_eq] at hne
  simp [isTagNameChar, Text.isBlank_of_isAlphabetic h, hne]

theorem isTagNameChar_of_isBlank {c : Char} (h : Text.isBlank c = true) :
    isTagNameChar c = false := by
  simp [isTagNameChar, h]

theorem isAttributeNameChar_of_isBlank {c : Char} (h : Text.isBlank c = true) :
    isAttributeNameChar c = false := by
  simp [isAttributeNameChar, h]

theorem isBlank_of_isAttributeNameChar {c : Char} (h : isAttributeNameChar c = true) :
    Text.isBlank c = false := by
  by_contra hblank
  rw [isAttributeNameChar_of_isBlank (by simpa using hblank)] at h
  contradiction

theorem IsAttributeName.exists_cons {name : String} (h : IsAttributeName name) :
    ∃ c cs, name.toList = c :: cs ∧ isAttributeNameChar c = true := by
  obtain ⟨hne, hchars⟩ := h
  obtain ⟨c, cs, hcs⟩ := List.exists_cons_of_ne_nil (by simpa using hne : name.toList ≠ [])
  exact ⟨c, cs, hcs, hchars c (by simp [hcs])⟩

namespace Lexeme

/-! ## Reading attributes -/

theorem isSpace_takeWhile (cs : List Char) :
    IsSpace (String.ofList (cs.takeWhile Text.isBlank)) := by
  intro c hc
  rw [String.toList_ofList] at hc
  exact List.all_eq_true.mp List.all_takeWhile c hc

theorem scanName_strict {cs name rest : List Char}
    (h : scanName .strict none cs = .ok (some (name, rest))) :
    IsAttributeName (String.ofList name) := by
  unfold scanName at h
  rw [Source.readWhile_none] at h
  split at h
  · simp at h
  · simp at h
  · next hne hread =>
    simp only [Except.ok.injEq, Option.some.injEq, Prod.mk.injEq] at h hread
    obtain ⟨rfl, rfl⟩ := h
    refine ⟨by simpa using hne, fun c hc => ?_⟩
    rw [String.toList_ofList, ← hread.1] at hc
    exact List.all_eq_true.mp List.all_takeWhile c hc

theorem scanValue_strict {name : String} {before cs value quoted rest : List Char} {quote : Quote}
    (h : scanValue .strict none name before cs = .ok (value, quote, quoted, rest)) :
    quote = .double ∧ quoted = '"' :: value ++ ['"'] ∧ '"' ∉ value := by
  unfold scanValue at h
  split at h
  · simp at h
  · rw [Source.readUntil_none] at h
    split at h
    · simp at h
    · simp at h
    · next hfind =>
      simp only [Except.ok.injEq, Prod.mk.injEq] at h hfind
      obtain ⟨rfl, rfl, rfl, -⟩ := h
      exact ⟨rfl, rfl, Text.not_mem_of_splitAt? hfind⟩
  · simp at h

theorem scanAttribute_strict {before cs rest : List Char} {leading : String} {l : Lexeme}
    (hleading : leading ≠ "" ∧ IsSpace leading)
    (h : scanAttribute .strict none before leading.toList cs = .ok (l, rest)) :
    ∃ a : Attribute, a.IsStrict ∧ l = a.lexeme := by
  unfold scanAttribute at h
  simp only [Source.readWhile_none] at h
  split at h
  · simp at h
  · simp at h
  · next name afterName hname =>
    have hname' := scanName_strict hname
    split at h
    · simp at h
    · next space afterEquals hspace =>
      split at h
      · simp at h
      · next value quote quoted rest' hvalue =>
        obtain ⟨rfl, rfl, hquote⟩ := scanValue_strict hvalue
        simp only [Except.ok.injEq, Prod.mk.injEq] at h hspace
        obtain ⟨rfl, -⟩ := h
        obtain ⟨rfl, -⟩ := hspace
        have hfront := isSpace_takeWhile afterName
        have hback := isSpace_takeWhile afterEquals
        refine ⟨⟨leading, String.ofList name, _, some (String.ofList value), .double, {}⟩,
          ⟨hleading, hname', .quoted hfront hback rfl rfl (by simpa using hquote) rfl⟩, ?_⟩
        simp [Attribute.lexeme, Attribute.render, ← String.toList_inj]
    · simp only [Except.ok.injEq, Prod.mk.injEq] at h
      obtain ⟨rfl, -⟩ := h
      refine ⟨⟨leading, String.ofList name, "", none, .none, {}⟩,
        ⟨hleading, hname', .missing rfl rfl rfl⟩, ?_⟩
      simp [Attribute.lexeme, Attribute.render]

/-! ## Reading tags -/

theorem tagPart_strict (cs : List Char) : tagPart .strict none cs ≠ .ok .slash := by
  simp only [tagPart, Source.peek_none, bind, Except.bind, pure, Except.pure]
  split
  · simp
  · simp
  · split <;> simp
  · simp

theorem isSpace_lead {leading cs space rest : List Char} (hleading : leading = [])
    (h : Source.readWhile none Text.isBlank cs = .ok (space, rest)) :
    IsSpace (String.ofList (leading ++ space)) := by
  rw [hleading, List.nil_append, (Source.readWhile_eq_ok h).1]
  exact isSpace_takeWhile cs

theorem scanTagRest_strict {name : String} {before leading cs rest : List Char} {ls : List Lexeme}
    (hleading : leading = [])
    (h : scanTagRest .strict none name before leading cs = .ok (ls, rest)) :
    ∃ attributes trailing selfClosing, (∀ a ∈ attributes, Attribute.IsStrict a) ∧
      IsSpace trailing ∧ ls = Tag.partLexemes attributes trailing selfClosing := by
  replace h := scansTagRest_of_scanTagRest h
  induction h with
  | @close _ leading _ space _ selfClosing hspace =>
    exact ⟨[], String.ofList (leading ++ space), selfClosing, by simp, isSpace_lead hleading hspace,
      by simp [Tag.partLexemes, Tag.closing]⟩
  | slash _ hpart => exact absurd hpart (tagPart_strict _)
  | @attr _ leading _ space _ _ _ _ _ hspace hne hattr _ ih =>
    have hlead : String.ofList (leading ++ space) ≠ "" ∧
        IsSpace (String.ofList (leading ++ space)) :=
      ⟨by simpa using hne rfl, isSpace_lead hleading hspace⟩
    rw [← String.toList_ofList (l := leading ++ space)] at hattr
    obtain ⟨a, ha, rfl⟩ := scanAttribute_strict hlead hattr
    obtain ⟨attributes, trailing, selfClosing, hattributes, htrailing, rfl⟩ := ih rfl
    exact ⟨a :: attributes, trailing, selfClosing, List.forall_mem_cons.mpr ⟨ha, hattributes⟩,
      htrailing, rfl⟩

theorem construct_none (cs : List Char) :
    construct none cs = .ok (
      if Mark.blockStart.isPrefixOf cs then .block
      else if Mark.parserCommentStart.isPrefixOf cs then .parserComment
      else if Mark.commentStart.isPrefixOf cs then .comment
      else if Mark.cdataStart.isPrefixOf cs then .cdata
      else if (Text.fold Mark.docTypeStart).isPrefixOf (Text.fold cs) then .docType
      else if Mark.instructionStart.isPrefixOf cs then .instruction
      else if Mark.endTagStart.isPrefixOf cs then .endTag
      else .startTag) := by
  simp only [construct, Source.lookingAt_none, Source.lookingAtIgnoringCase_none, bind, Except.bind,
    pure, Except.pure]
  split_ifs <;> rfl

theorem exists_cons_of_getElem? {cs : List Char} {c : Char} (h : cs[0]? = some c) :
    ∃ ds, cs = c :: ds := by
  cases cs <;> simp_all

theorem opensMarkup_none (cs : List Char) :
    opensMarkup none cs = .ok (
      match cs with
      | '<' :: '!' :: _ => Mark.commentStart.isPrefixOf cs || Mark.cdataStart.isPrefixOf cs ||
        (Text.fold Mark.docTypeStart).isPrefixOf (Text.fold cs)
      | '<' :: '?' :: _ => true
      | '<' :: '/' :: cs => cs.head?.any Text.isAlphabetic
      | '<' :: c :: _ => Text.isAlphabetic c
      | _ => false) := by
  simp only [opensMarkup, Source.peek_none, Source.lookingAt_none,
    Source.lookingAtIgnoringCase_none, bind, Except.bind, pure, Except.pure]
  split
  · next h =>
    obtain ⟨cs, rfl⟩ := exists_cons_of_getElem? h
    split
    · next h =>
      obtain ⟨cs, rfl⟩ := exists_cons_of_getElem? h
      simp only
      cases Mark.commentStart.isPrefixOf ('<' :: '!' :: cs) <;>
        cases Mark.cdataStart.isPrefixOf ('<' :: '!' :: cs) <;> rfl
    · next h =>
      obtain ⟨cs, rfl⟩ := exists_cons_of_getElem? h
      rfl
    · next h =>
      obtain ⟨cs, rfl⟩ := exists_cons_of_getElem? h
      cases cs <;> rfl
    · next c _ _ _ h =>
      obtain ⟨cs, rfl⟩ := exists_cons_of_getElem? h
      simp_all
    · next h =>
      cases cs <;> simp_all
  · next h =>
    split <;> simp_all

/-- A start tag begins with a letter after its bracket. -/
theorem exists_of_startTag {cs : List Char} (hopens : opensMarkup none cs = .ok true)
    (h : construct none cs = .ok .startTag) :
    ∃ c ds, cs = '<' :: c :: ds ∧ Text.isAlphabetic c = true := by
  rw [opensMarkup_none, Except.ok.injEq] at hopens
  rw [construct_none, Except.ok.injEq] at h
  split at hopens
  · split_ifs at h
    simp_all
  · split_ifs at h
    simp_all [Mark.instructionStart]
  · split_ifs at h
    simp_all [Mark.endTagStart]
  · exact ⟨_, _, rfl, hopens⟩
  · simp at hopens

/-- An end tag begins with a letter after its bracket and slash. -/
theorem exists_of_endTag {cs : List Char} (hopens : opensMarkup none cs = .ok true)
    (h : construct none cs = .ok .endTag) :
    ∃ c ds, cs = '<' :: '/' :: c :: ds ∧ Text.isAlphabetic c = true := by
  obtain ⟨ds, rfl⟩ := construct_mark h
  rw [opensMarkup_none, Except.ok.injEq] at hopens
  cases ds with
  | nil => simp [Mark.endTagStart] at hopens
  | cons c ds => exact ⟨c, ds, rfl, by simpa [Mark.endTagStart] using hopens⟩

/-- The name that is read in a tag. -/
theorem isTagName_takeWhile {c : Char} (cs : List Char) (h : Text.isAlphabetic c = true) :
    IsTagName (String.ofList ((c :: cs).takeWhile isTagNameChar)) := by
  refine ⟨⟨c, ?_, h⟩, fun d hd => ?_⟩
  · simp [isTagNameChar_of_isAlphabetic h]
  · rw [String.toList_ofList] at hd
    exact List.all_eq_true.mp List.all_takeWhile d hd

theorem scanStartTag_strict {cs rest : List Char} {ls : List Lexeme}
    (hopens : opensMarkup none cs = .ok true) (hstart : construct none cs = .ok .startTag)
    (h : scanStartTag .strict none cs = .ok (ls, rest)) :
    ∃ t : Tag, t.IsStrict ∧ ls = t.lexemes := by
  obtain ⟨c, ds, rfl, hc⟩ := exists_of_startTag hopens hstart
  cases scansTag_of_scanStartTag h with
  | @intro name _ _ _ hname hparts =>
    obtain rfl : name = (c :: ds).takeWhile isTagNameChar := (Source.readWhile_eq_ok hname).1
    obtain ⟨attributes, trailing, selfClosing, hattributes, htrailing, rfl⟩ :=
      scanTagRest_strict rfl hparts
    exact ⟨⟨String.ofList ((c :: ds).takeWhile isTagNameChar), attributes, trailing, selfClosing,
        {}⟩,
      ⟨isTagName_takeWhile ds hc, hattributes, htrailing⟩, by simp [Tag.lexemes]⟩

theorem scanEndTag_strict {cs rest : List Char} {l : Lexeme}
    (hopens : opensMarkup none cs = .ok true) (hend : construct none cs = .ok .endTag)
    (h : scanEndTag .strict none cs = .ok (l, rest)) :
    ∃ name space : String, IsTagName name ∧ IsSpace space ∧ l = endTagLexeme name space := by
  obtain ⟨c, ds, rfl, hc⟩ := exists_of_endTag hopens hend
  unfold scanEndTag at h
  simp only [Source.readWhile_none, Source.readUntil_none, List.drop_succ_cons, List.drop_zero] at h
  split at h
  · simp at h
  · simp at h
  · next content rest' hfind =>
    split at h
    · simp at h
    · next hblank =>
      simp only [Except.ok.injEq, Prod.mk.injEq] at h
      obtain ⟨rfl, -⟩ := h
      refine ⟨_, String.ofList content, isTagName_takeWhile ds hc, ?_, ?_⟩
      · intro d hd
        rw [String.toList_ofList] at hd
        simp only [true_and, not_not, List.all_eq_true] at hblank
        exact hblank d hd
      · simp [endTagLexeme, Mark.tagEnd]

/-! ## Reading tags again -/

/-- Whether an attribute ends here: neither can its name go on, nor does a value follow. -/
def EndsAttribute (tail : List Char) : Prop :=
  ∃ space c rest, tail = space ++ c :: rest ∧ (∀ d ∈ space, Text.isBlank d = true) ∧
    Text.isBlank c = false ∧ c ≠ '=' ∧ (space = [] → isAttributeNameChar c = false)

theorem EndsAttribute.exists_cons {tail : List Char} (h : EndsAttribute tail) :
    ∃ d ds, tail = d :: ds ∧ isAttributeNameChar d = false := by
  obtain ⟨space, c, rest, rfl, hspace, -, -, hname⟩ := h
  cases space with
  | nil => exact ⟨c, rest, rfl, hname rfl⟩
  | cons d ds =>
    exact ⟨d, ds ++ c :: rest, rfl, isAttributeNameChar_of_isBlank (hspace d List.mem_cons_self)⟩

theorem raw_lexeme {a : Attribute} (ha : a.IsStrict) :
    a.lexeme.raw = a.leading.toList ++ a.body := by
  cases ha.value <;> simp_all [Attribute.lexeme, Attribute.body, Attribute.render]

theorem endsAttribute_closing {trailing : String} (h : IsSpace trailing) (selfClosing : Bool)
    (rest : List Char) :
    EndsAttribute (trailing.toList ++ (Tag.closing selfClosing ++ rest)) := by
  cases selfClosing with
  | false => exact ⟨_, '>', rest, rfl, h, by decide, by decide, fun _ => by decide⟩
  | true => exact ⟨_, '/', '>' :: rest, rfl, h, by decide, by decide, fun _ => by decide⟩

theorem endsAttribute_lexeme {a : Attribute} (ha : a.IsApart) (rest : List Char) :
    EndsAttribute (a.lexeme.raw ++ rest) := by
  obtain ⟨c, cs, hcs, hc⟩ := ha.name.exists_cons
  obtain ⟨ds, hds⟩ : ∃ ds, a.lexeme.raw = a.leading.toList ++ c :: ds := by
    simp [Attribute.lexeme, Attribute.render, hcs]
  refine ⟨a.leading.toList, c, ds ++ rest, ?_, ha.leading.2, isBlank_of_isAttributeNameChar hc,
    ?_, ?_⟩
  · rw [hds]
    simp
  · rintro rfl
    contradiction
  · intro hempty
    exact absurd hempty (by simpa using ha.leading.1)

theorem scanName_name {name : String} (hname : IsAttributeName name) {d : Char}
    (hd : isAttributeNameChar d = false) (ds : List Char) :
    scanName .strict none (name.toList ++ d :: ds) = .ok (some (name.toList, d :: ds)) := by
  obtain ⟨c, cs, hcs, -⟩ := hname.exists_cons
  have hrun := Source.takeWhile_run hname.2 hd ds
  simp only [scanName, Source.readWhile_none, hrun]
  rw [hcs]

theorem readWhile_isBlank {space : List Char} (hspace : ∀ d ∈ space, Text.isBlank d = true)
    {c : Char} (hc : Text.isBlank c = false) (rest : List Char) :
    Source.readWhile none Text.isBlank (space ++ c :: rest) = .ok (space, c :: rest) := by
  have hrun := Source.takeWhile_run hspace hc rest
  rw [Source.readWhile_none, hrun.1, hrun.2]

/-- An attribute is read again where it ends. -/
theorem scanAttribute_body {a : Attribute} (ha : a.IsStrict) (before : List Char)
    {tail : List Char} (htail : EndsAttribute tail) :
    scanAttribute .strict none before a.leading.toList (a.body ++ tail) = .ok (a.lexeme, tail) := by
  cases ha.value with
  | missing hoperator hvalue hquote =>
    obtain ⟨d, ds, hds, hd⟩ := htail.exists_cons
    obtain ⟨space, c, rest, rfl, hspace, hblank, hequals, -⟩ := htail
    have hscan := scanName_name ha.name hd ds
    rw [← hds] at hscan
    simp only [scanAttribute, Attribute.body, hvalue, Option.map_none, Option.getD_none,
      List.append_nil, hscan, readWhile_isBlank hspace hblank]
    split
    · simp_all
    · simp_all
    · simp [Attribute.lexeme, Attribute.render, hoperator, hvalue, hquote]
  | @quoted front back value hfront hback hoperator hvalue hmark hquote =>
    obtain ⟨d, ds, hds, hd⟩ : ∃ d ds, front.toList ++ '=' :: (back.toList ++
        '"' :: (value.toList ++ '"' :: tail)) = d :: ds ∧ isAttributeNameChar d = false := by
      cases hcs : front.toList with
      | nil => exact ⟨'=', _, rfl, by decide⟩
      | cons d cs =>
        exact ⟨d, _, rfl, isAttributeNameChar_of_isBlank (hfront d (by simp [hcs]))⟩
    have hscan := scanName_name ha.name hd ds
    rw [← hds] at hscan
    have hbody : a.body ++ tail = a.name.toList ++ (front.toList ++ '=' :: (back.toList ++
        '"' :: (value.toList ++ '"' :: tail))) := by
      simp [Attribute.body, hvalue, hoperator]
    have hequals : Text.isBlank '=' = false := by decide
    have hquotation : Text.isBlank '"' = false := by decide
    simp only [scanAttribute, hbody, hscan, readWhile_isBlank hfront hequals,
      readWhile_isBlank hback hquotation, scanValue, Source.readUntil_none,
      Text.splitAt?_singleton hmark]
    simp [Attribute.lexeme, Attribute.render, hoperator, hvalue, hquote, ← String.toList_inj]

theorem rawText_append (ls ms : List Lexeme) : rawText (ls ++ ms) = rawText ls ++ rawText ms := by
  simp [rawText]

theorem rawText_partLexemes_nil (trailing : String) (selfClosing : Bool) :
    rawText (Tag.partLexemes [] trailing selfClosing) =
      trailing.toList ++ Tag.closing selfClosing := by
  simp [Tag.partLexemes]

theorem rawText_partLexemes_lexeme (a : Attribute) (attributes : List Attribute)
    (trailing : String) (selfClosing : Bool) :
    rawText (Tag.partLexemes (a :: attributes) trailing selfClosing) =
      a.lexeme.raw ++ rawText (Tag.partLexemes attributes trailing selfClosing) := by
  simp [Tag.partLexemes]

theorem rawText_partLexemes_cons {a : Attribute} (ha : a.IsStrict) (attributes : List Attribute)
    (trailing : String) (selfClosing : Bool) :
    rawText (Tag.partLexemes (a :: attributes) trailing selfClosing) =
      a.leading.toList ++ (a.body ++
        rawText (Tag.partLexemes attributes trailing selfClosing)) := by
  simp [Tag.partLexemes, raw_lexeme ha]

theorem tagPart_closing (selfClosing : Bool) (rest : List Char) :
    tagPart .strict none (Tag.closing selfClosing ++ rest) = .ok (.close selfClosing) := by
  cases selfClosing <;> rfl

theorem tagPart_body {a : Attribute} (ha : a.IsStrict) (rest : List Char) :
    tagPart .strict none (a.body ++ rest) = .ok .attr := by
  obtain ⟨c, cs, hcs, hc⟩ := ha.name.exists_cons
  obtain ⟨ds, hds⟩ : ∃ ds, a.body = c :: ds := by simp [Attribute.body, hcs]
  rw [hds]
  simp only [tagPart, Source.peek_none, bind, Except.bind, pure, Except.pure]
  split
  · simp_all
  · simp_all [isAttributeNameChar]
  · simp_all [isAttributeNameChar]
  · rfl

theorem endsAttribute_parts {attributes : List Attribute} (ha : ∀ a ∈ attributes, a.IsApart)
    {trailing : String} (ht : IsSpace trailing) (selfClosing : Bool) (rest : List Char) :
    EndsAttribute (rawText (Tag.partLexemes attributes trailing selfClosing) ++ rest) := by
  cases attributes with
  | nil =>
    rw [rawText_partLexemes_nil, List.append_assoc]
    exact endsAttribute_closing ht selfClosing rest
  | cons a attributes =>
    rw [rawText_partLexemes_lexeme, List.append_assoc]
    exact endsAttribute_lexeme (ha a List.mem_cons_self) _

/-- The parts of a start tag are read again, whatever comes behind it. -/
theorem scanTagRest_parts {attributes : List Attribute} (ha : ∀ a ∈ attributes, a.IsStrict)
    {trailing : String} (ht : IsSpace trailing) (selfClosing : Bool) (name : String)
    (before rest : List Char) :
    scanTagRest .strict none name before []
        (rawText (Tag.partLexemes attributes trailing selfClosing) ++ rest) =
      .ok (Tag.partLexemes attributes trailing selfClosing, rest) := by
  induction attributes generalizing before with
  | nil =>
    have hspace : Source.readWhile none Text.isBlank
        (trailing.toList ++ (Tag.closing selfClosing ++ rest)) =
          .ok (trailing.toList, Tag.closing selfClosing ++ rest) := by
      cases selfClosing
      · exact readWhile_isBlank ht (by decide) rest
      · exact readWhile_isBlank ht (by decide) ('>' :: rest)
    have hpart := tagPart_closing selfClosing rest
    rw [rawText_partLexemes_nil, List.append_assoc, scanTagRest]
    split
    · simp_all
    · next space rest₁ hread =>
      cases hspace.symm.trans hread
      cases selfClosing <;> split <;> simp_all [Tag.partLexemes, Tag.closing]
  | cons a attributes ih =>
    obtain ⟨ha, hattributes⟩ := List.forall_mem_cons.mp ha
    have hbody := scanAttribute_body ha (before ++ [])
      (endsAttribute_parts (fun a ha => (hattributes a ha).isApart) ht selfClosing rest)
    obtain ⟨c, cs, hcs, hc⟩ := ha.name.exists_cons
    have hspace : Source.readWhile none Text.isBlank (a.leading.toList ++ (a.body ++
        (rawText (Tag.partLexemes attributes trailing selfClosing) ++ rest))) =
          .ok (a.leading.toList, a.body ++
            (rawText (Tag.partLexemes attributes trailing selfClosing) ++ rest)) := by
      obtain ⟨ds, hds⟩ : ∃ ds, a.body = c :: ds := by simp [Attribute.body, hcs]
      rw [hds]
      exact readWhile_isBlank ha.leading.2 (isBlank_of_isAttributeNameChar hc) _
    have hpart := tagPart_body ha
      (rawText (Tag.partLexemes attributes trailing selfClosing) ++ rest)
    rw [rawText_partLexemes_cons ha, List.append_assoc, List.append_assoc, scanTagRest]
    split
    · simp_all
    · next space rest₁ hread =>
      cases hspace.symm.trans hread
      have hlead : ¬ (Mode.strict = Mode.strict ∧ [] ++ a.leading.toList = []) := by
        simpa using ha.leading.1
      split <;> rename_i hpart' <;> cases hpart.symm.trans hpart'
      dsimp only
      rw [if_neg hlead]
      split
      · next hattr => cases hbody.symm.trans hattr
      · next hattr =>
        cases hbody.symm.trans hattr
        rw [ih hattributes]
        rfl

theorem exists_cons_of_space {space : List Char} (hspace : ∀ d ∈ space, Text.isBlank d = true)
    {c : Char} (hc : isTagNameChar c = false) (rest : List Char) :
    ∃ d ds, space ++ c :: rest = d :: ds ∧ isTagNameChar d = false := by
  cases space with
  | nil => exact ⟨c, rest, rfl, hc⟩
  | cons d ds =>
    exact ⟨d, ds ++ c :: rest, rfl, isTagNameChar_of_isBlank (hspace d List.mem_cons_self)⟩

/-- What comes behind the name in a start tag is no part of it. -/
theorem exists_cons_parts {attributes : List Attribute} (ha : ∀ a ∈ attributes, a.IsApart)
    {trailing : String} (ht : IsSpace trailing) (selfClosing : Bool) (rest : List Char) :
    ∃ d ds, rawText (Tag.partLexemes attributes trailing selfClosing) ++ rest = d :: ds ∧
      isTagNameChar d = false := by
  cases attributes with
  | nil =>
    rw [rawText_partLexemes_nil, List.append_assoc]
    cases selfClosing
    · exact exists_cons_of_space ht (by decide) rest
    · exact exists_cons_of_space ht (by decide) ('>' :: rest)
  | cons a attributes =>
    have ha := ha a List.mem_cons_self
    have hne : a.leading.toList ≠ [] := by simpa using ha.leading.1
    obtain ⟨c, cs, hcs⟩ := List.exists_cons_of_ne_nil hne
    have hc : Text.isBlank c = true := ha.leading.2 c (by simp [hcs])
    obtain ⟨ds, hds⟩ : ∃ ds, a.lexeme.raw = c :: ds := by
      simp [Attribute.lexeme, Attribute.render, hcs]
    rw [rawText_partLexemes_lexeme, hds]
    exact ⟨c, _, rfl, isTagNameChar_of_isBlank hc⟩

theorem scanStartTag_lexemes {t : Tag} (ht : t.IsStrict) (rest : List Char) :
    scanStartTag .strict none (rawText t.lexemes ++ rest) = .ok (t.lexemes, rest) := by
  obtain ⟨d, ds, hds, hd⟩ := exists_cons_parts (fun a ha => (ht.attributes a ha).isApart)
    ht.trailing t.selfClosing rest
  have hrun := Source.takeWhile_run ht.name.chars hd ds
  have hparts := scanTagRest_parts ht.attributes ht.trailing t.selfClosing t.name
    ('<' :: t.name.toList) rest
  have htext : rawText t.lexemes ++ rest =
      '<' :: (t.name.toList ++ (rawText (Tag.partLexemes t.attributes t.trailing t.selfClosing) ++
        rest)) := by
    simp [Tag.lexemes]
  rw [hds] at htext hparts
  rw [htext]
  simp [scanStartTag, hrun, hparts, Tag.lexemes]

theorem scanEndTag_lexeme (mode : Mode) {name space : String} (hname : IsTagName name)
    (hspace : IsSpace space) (rest : List Char) :
    scanEndTag mode none ((endTagLexeme name space).raw ++ rest) =
      .ok (endTagLexeme name space, rest) := by
  obtain ⟨d, ds, hds, hd⟩ :=
    exists_cons_of_space hspace (by decide : isTagNameChar '>' = false) rest
  have hrun := Source.takeWhile_run hname.chars hd ds
  have hmark : '>' ∉ space.toList := fun hmem => absurd (hspace '>' hmem) (by decide)
  have htext : (endTagLexeme name space).raw ++ rest = '<' :: '/' :: (name.toList ++ d :: ds) := by
    simp [endTagLexeme, ← hds]
  rw [htext]
  simp only [scanEndTag, List.drop_succ_cons, List.drop_zero, Source.readWhile_none, hrun]
  rw [← hds]
  have hall : space.toList.all Text.isBlank = true := List.all_eq_true.mpr hspace
  simp [Mark.tagEnd, Text.splitAt?_singleton hmark, hall, endTagLexeme]

end Lexeme
end NaturalTemplate.Markup
