import NaturalTemplate.Proofs.Markup.Removal
import NaturalTemplate.Proofs.Text.Escape

/-!
# Setting an attribute

A value that is set stands in quotes, and escaped text has none in it, so the value ends where it
should. What stands in front of the attribute ends as before, because the attribute still begins
with its space and its name. A new attribute begins with a space, and behind a space every name and
every value in front of it has ended but one: where an equals sign has nothing behind it, the new
attribute is taken for the value.
-/
namespace NaturalTemplate.Markup
open Lexeme

namespace Attribute

/-- Whether an attribute has an equals sign and nothing behind it, not even quotes. -/
def IsBare (a : Attribute) : Prop := a.quote = .unquoted ∧ a.value = some ""

instance (a : Attribute) : Decidable a.IsBare := inferInstanceAs (Decidable (_ ∧ _))

/-- Whether one of the attributes has a name already, or a new one can stand behind the last. -/
def Accept (name : String) (attributes : List Attribute) : Prop :=
  (∃ a ∈ attributes, a.isNamed name = true) ∨ ∀ a ∈ attributes.getLast?, ¬ a.IsBare

instance (name : String) (attributes : List Attribute) : Decidable (Accept name attributes) :=
  inferInstanceAs (Decidable (_ ∨ ∀ a ∈ attributes.getLast?, _))

/-! ## Lists of attributes -/

section Lists

variable {name value : String}

theorem make_isNamed (name value : String) : (make name value).isNamed name = true :=
  Text.sameName_refl name

/-- The first attribute with the name has the value. -/
theorem exists_find?_set (name value : String) (attributes : List Attribute) :
    ∃ a, (set name value attributes).find? (·.isNamed name) = some a ∧ a.value = some value := by
  induction attributes with
  | nil => exact ⟨make name value, by simp [set, make_isNamed], rfl⟩
  | cons a attributes ih =>
    cases hnamed : a.isNamed name with
    | true =>
      have hset : (a.setValue value).isNamed name = true := hnamed
      exact ⟨a.setValue value, by simp [set, hnamed, hset], rfl⟩
    | false => simpa [set, hnamed] using ih

/-- The space and the name of the first attribute stay. -/
theorem exists_set_cons (name value : String) (a : Attribute) (attributes : List Attribute) :
    ∃ b bs, set name value (a :: attributes) = b :: bs ∧ b.leading = a.leading ∧
      b.name = a.name := by
  cases hnamed : a.isNamed name with
  | true => exact ⟨a.setValue value, attributes, by simp [set, hnamed], rfl, rfl⟩
  | false => exact ⟨a, set name value attributes, by simp [set, hnamed], rfl, rfl⟩

/-- The other attributes are as they were. -/
theorem remove_set (name value : String) (attributes : List Attribute) :
    remove name (set name value attributes) = remove name attributes := by
  induction attributes with
  | nil => simp [set, remove, make_isNamed]
  | cons a attributes ih =>
    cases hnamed : a.isNamed name with
    | true =>
      have hset : (a.setValue value).isNamed name = true := hnamed
      simp [set, remove, hnamed, hset]
    | false => simpa [set, remove, hnamed] using ih

end Lists

/-! ## Where attributes end -/

/-- Attributes with the same space and name begin with the same text. -/
theorem exists_begin {a b : Attribute} (hname : IsTolerantName a.name)
    (hleading : b.leading = a.leading) (hsame : b.name = a.name) (tail tail' : List Char) :
    ∃ front more more', (∃ c ∈ front, Text.isBlank c = false) ∧
      a.leading.toList ++ (a.own ++ tail) = front ++ more ∧
      b.leading.toList ++ (b.own ++ tail') = front ++ more' := by
  have hown (c : Attribute) : ∃ more, c.own = c.name.toList ++ more := by
    simp [own, render]
  obtain ⟨more, hmore⟩ := hown a
  obtain ⟨more', hmore'⟩ := hown b
  obtain ⟨c, cs, hcs, hblank, -⟩ := hname.exists_cons
  refine ⟨a.leading.toList ++ a.name.toList, more ++ tail, more' ++ tail',
    ⟨c, by simp [hcs], hblank⟩, ?_, ?_⟩
  · simp [hmore]
  · simp [hmore', hleading, hsame]

/-- What ends in front of an attribute ends in front of every other one that begins with the same
space and name. -/
theorem Stops.of_begins {f a b : Attribute} (hname : IsTolerantName a.name)
    (hleading : b.leading = a.leading) (hsame : b.name = a.name) {tail : List Char}
    (h : f.Stops (a.leading.toList ++ (a.own ++ tail))) (tail' : List Char) :
    f.Stops (b.leading.toList ++ (b.own ++ tail')) := by
  obtain ⟨front, more, more', hfront, ha, hb⟩ := exists_begin hname hleading hsame tail tail'
  rw [ha] at h
  rw [hb]
  exact h.of_append hfront more'

section Values

variable {name value : String} (hvalue : ∀ mark ∈ ['"', '\''], mark ∉ value.toList)
include hvalue

/-- A value without quotes in it can be set, and always ends. -/
theorem isTolerant_setValue {a : Attribute} (ha : a.IsTolerant) :
    (a.setValue value).IsTolerant ∧ ∀ tail, (a.setValue value).Stops tail := by
  have hquote : (a.setValue value).quote = .double ∨ (a.setValue value).quote = .single := by
    cases hquote : a.quote <;> simp [setValue, hquote]
  have hallows : (a.setValue value).quote.Allows value := by
    obtain hq | hq := hquote
    · rw [hq]
      exact hvalue '"' (by simp)
    · rw [hq]
      exact hvalue '\'' (by simp)
  refine ⟨⟨ha.leading, ha.name, ?_⟩, fun tail => ?_⟩
  · cases ha.value with
    | missing hoperator =>
      exact @TolerantValue.written _ "" "" value (by simp [IsSpace]) (by simp [IsSpace])
        (by simp [setValue, hoperator]) rfl hallows
    | written hfront hback hoperator =>
      have hequals : '=' ∈ a.operator.toList := by simp [hoperator]
      have hne : a.operator ≠ "" := by
        intro hempty
        simp [hempty] at hequals
      exact .written hfront hback ((if_neg hne).trans hoperator) rfl hallows
  · unfold Stops
    obtain hq | hq := hquote <;> rw [hq] <;> trivial

theorem isTolerant_make (hname : IsAttributeName name) : (make name value).IsTolerant :=
  ⟨by simp [IsTagSpace, make, Text.isBlank], .inl hname,
    @TolerantValue.written _ "" "" value (by simp [IsSpace]) (by simp [IsSpace]) (by simp [make])
      rfl (hvalue '"' (by simp))⟩

end Values

/-- A new attribute ends what stands in front of it, unless that waits for a value. -/
theorem stops_make {a : Attribute} (hbare : ¬ a.IsBare) {name : String}
    (hname : IsAttributeName name) (value : String) (tail : List Char) :
    a.Stops ((make name value).leading.toList ++ ((make name value).own ++ tail)) := by
  obtain ⟨c, cs, hcs, hc⟩ := hname.exists_cons
  obtain ⟨more, hmore⟩ : ∃ more, (make name value).own = c :: more := by
    simp [own, render, make, hcs]
  have hspace : (make name value).leading.toList = [' '] := by simp [make]
  have hblank : Text.isBlank ' ' = true := by decide
  rw [hmore, hspace]
  unfold Stops
  cases hquote : a.quote with
  | double | single => trivial
  | unquoted => exact ⟨' ', _, rfl, .inr ⟨hblank, fun hempty => hbare ⟨hquote, hempty⟩⟩⟩
  | none =>
    refine ⟨fun _ d hd => ?_, ?_⟩
    · obtain rfl : ' ' = d := by simpa using hd
      decide
    · have hnot : c ≠ '=' := by
        rintro rfl
        revert hc
        decide
      simpa [hblank, isBlank_of_isAttributeNameChar hc] using hnot

end Attribute

/-! ## Setting an attribute of a start tag -/

section Set

variable {name value trailing : String} {selfClosing : Bool} {attributes : List Attribute}

theorem Attribute.Accept.of_cons {a : Attribute} (h : Attribute.Accept name (a :: attributes))
    (ha : a.isNamed name = false) : Attribute.Accept name attributes := by
  obtain ⟨b, hb, hnamed⟩ | hlast := h
  · obtain rfl | hb := List.mem_cons.mp hb
    · rw [ha] at hnamed
      contradiction
    · exact .inl ⟨b, hb, hnamed⟩
  · cases attributes with
    | nil => exact .inr (by simp)
    | cons b attributes => exact .inr (by simpa [List.getLast?_cons_cons] using hlast)

/-- All parts of a start tag still end in time. -/
theorem Tag.PartsStop.set (hname : IsAttributeName name)
    (hvalue : ∀ mark ∈ ['"', '\''], mark ∉ value.toList)
    (h : Tag.PartsStop trailing selfClosing [] attributes)
    (haccept : Attribute.Accept name attributes) :
    Tag.PartsStop trailing selfClosing [] (Attribute.set name value attributes) := by
  induction attributes with
  | nil => exact ⟨Attribute.isTolerant_make hvalue hname, trivial, h⟩
  | cons a attributes ih =>
    obtain ⟨ha, hstops, hrest⟩ := h
    cases hnamed : a.isNamed name with
    | true =>
      obtain ⟨hset, hends⟩ := Attribute.isTolerant_setValue hvalue ha
      rw [Attribute.set, if_pos hnamed]
      exact ⟨hset, hends _, hrest⟩
    | false =>
      rw [Attribute.set, if_neg (by simp [hnamed])]
      refine ⟨ha, ?_, ih hrest (haccept.of_cons hnamed)⟩
      -- The next attribute is new, or begins as it did.
      cases attributes with
      | nil =>
        have hbare : ¬ a.IsBare := by
          obtain ⟨b, hb, hb'⟩ | hlast := haccept
          · obtain rfl := List.mem_singleton.mp hb
            rw [hnamed] at hb'
            contradiction
          · exact hlast a rfl
        rw [Attribute.set, rawText_partLexemes_own, List.append_assoc, List.append_assoc]
        exact Attribute.stops_make hbare hname value _
      | cons b attributes =>
        obtain ⟨c, cs, hset, hleading, hsame⟩ := Attribute.exists_set_cons name value b attributes
        rw [hset, rawText_partLexemes_own, List.append_assoc, List.append_assoc]
        rw [rawText_partLexemes_own, List.append_assoc, List.append_assoc] at hstops
        exact hstops.of_begins hrest.1.name hleading hsame _

/-- The name of the tag still ends as well. -/
theorem Tag.Stops.set {t : Tag} (hname : IsAttributeName name)
    (hvalue : ∀ mark ∈ ['"', '\''], mark ∉ value.toList) (h : t.Stops [])
    (haccept : Attribute.Accept name t.attributes) :
    ({ t with attributes := Attribute.set name value t.attributes } : Tag).Stops [] := by
  obtain ⟨tag, attributes, trailing, selfClosing, l⟩ := t
  obtain ⟨htag, hparts⟩ := h
  refine ⟨?_, hparts.set hname hvalue haccept⟩
  cases attributes with
  | nil =>
    intro c hc
    obtain rfl : ' ' = c := by
      simpa [Attribute.set, rawText_partLexemes_own, Attribute.make] using hc
    decide
  | cons a attributes =>
    obtain ⟨b, bs, hset, hleading, hsame⟩ := Attribute.exists_set_cons name value a attributes
    obtain ⟨front, more, more', ⟨c, hc, -⟩, ha, hb⟩ :=
      Attribute.exists_begin hparts.1.name hleading hsame
        (rawText (Tag.partLexemes attributes trailing selfClosing) ++ [])
        (rawText (Tag.partLexemes bs trailing selfClosing) ++ [])
    obtain ⟨d, ds, rfl⟩ := List.exists_cons_of_ne_nil (List.ne_nil_of_mem hc)
    rw [rawText_partLexemes_own, List.append_assoc, List.append_assoc, ha] at htag
    rw [hset, rawText_partLexemes_own, List.append_assoc, List.append_assoc, hb]
    exact htag

end Set

/-! ## Where a value is missing -/

/-- Attributes each of which ends where the next one begins, and the last one before a text. -/
def Attribute.AllStop (tail : List Char) : List Attribute → Prop
  | [] => True
  | a :: attributes =>
    a.IsTolerant ∧ a.Stops (rawText (attributes.map Attribute.lexeme) ++ tail) ∧
      AllStop tail attributes

section Read

variable {a b : Attribute} {tail tail' rest : List Char} {trailing : String} {selfClosing : Bool}
  {attributes ts : List Attribute}

def isTagSpaceChar (c : Char) : Bool := Text.isBlank c || c == '/'

theorem takeWhile_leading (ha : a.IsTolerant) (tail : List Char) :
    (a.leading.toList ++ (a.own ++ tail)).takeWhile isTagSpaceChar = a.leading.toList ∧
      (a.leading.toList ++ (a.own ++ tail)).dropWhile isTagSpaceChar = a.own ++ tail := by
  refine takeWhile_append_stop (fun c hc => ?_) fun c hc => ?_
  · simpa [isTagSpaceChar] using ha.leading c hc
  · obtain ⟨d, ds, hds, hblank, -, hslash⟩ := exists_cons_own ha
    obtain rfl : d = c := by simpa [hds] using hc
    simp [isTagSpaceChar, hblank, hslash]

/-- A text begins with at most one attribute that ends in it. -/
theorem lexeme_eq_of_stops (ha : a.IsTolerant) (hb : b.IsTolerant) (hastop : a.Stops tail)
    (hbstop : b.Stops tail')
    (h : a.leading.toList ++ (a.own ++ tail) = b.leading.toList ++ (b.own ++ tail')) :
    a.lexeme = b.lexeme ∧ tail = tail' := by
  obtain ⟨htake, hdrop⟩ := takeWhile_leading ha tail
  obtain ⟨htake', hdrop'⟩ := takeWhile_leading hb tail'
  rw [h] at htake hdrop
  have hscan := scanAttribute_complete ha hastop []
  rw [← htake, htake', ← hdrop, hdrop', scanAttribute_complete hb hbstop, Except.ok.injEq,
    Prod.mk.injEq] at hscan
  exact ⟨hscan.1.symm, hscan.2.symm⟩

/-- The end of a start tag begins no attribute. -/
theorem closing_ne_attribute (htrailing : IsTagSpace trailing) (ha : a.IsTolerant) :
    rawText (Tag.partLexemes [] trailing selfClosing) ++ rest ≠
      a.leading.toList ++ (a.own ++ tail) := by
  intro h
  have hclosing : (rawText (Tag.partLexemes [] trailing selfClosing) ++ rest).dropWhile
      isTagSpaceChar = '>' :: rest := by
    have hspace : ∀ c ∈ trailing.toList, isTagSpaceChar c = true :=
      fun c hc => by simpa [isTagSpaceChar] using htrailing c hc
    rw [rawText_partLexemes_nil, List.append_assoc, List.dropWhile_append_of_pos hspace]
    cases selfClosing <;> rfl
  obtain ⟨c, cs, hcs, -, hend, -⟩ := exists_cons_own ha
  rw [h, (takeWhile_leading ha tail).2, hcs, List.cons_append, List.cons.injEq] at hclosing
  exact hend hclosing.1

theorem Tag.PartsStop.isTolerant (h : Tag.PartsStop trailing selfClosing rest ts) :
    ∀ t ∈ ts, t.IsTolerant := by
  induction ts with
  | nil => simp
  | cons t ts ih => exact List.forall_mem_cons.mpr ⟨h.1, ih h.2.2⟩

theorem rawText_partLexemes_append (ts us : List Attribute) (trailing : String)
    (selfClosing : Bool) :
    rawText (Tag.partLexemes (ts ++ us) trailing selfClosing) =
      rawText (ts.map Attribute.lexeme) ++ rawText (Tag.partLexemes us trailing selfClosing) := by
  simp [Tag.partLexemes, rawText_append]

/-- Attributes that end in time are the first ones of every start tag that goes on with their
text. -/
theorem exists_of_allStop (h : Attribute.AllStop tail attributes)
    (hts : Tag.PartsStop trailing selfClosing rest ts)
    (htext : rawText (attributes.map Attribute.lexeme) ++ tail =
      rawText (Tag.partLexemes ts trailing selfClosing) ++ rest) :
    ∃ us vs, ts = us ++ vs ∧ us.map Attribute.lexeme = attributes.map Attribute.lexeme := by
  induction attributes generalizing ts with
  | nil => exact ⟨[], ts, rfl, rfl⟩
  | cons a attributes ih =>
    obtain ⟨ha, hastop, hrest⟩ := h
    rw [List.map_cons, rawText_cons, a.raw_lexeme_own, List.append_assoc, List.append_assoc]
      at htext
    cases ts with
    | nil => exact absurd htext.symm (closing_ne_attribute hts.1 ha)
    | cons b ts =>
      obtain ⟨hb, hbstop, hts⟩ := hts
      rw [rawText_partLexemes_own, List.append_assoc, List.append_assoc] at htext
      obtain ⟨hlexeme, htails⟩ := lexeme_eq_of_stops ha hb hastop hbstop htext
      obtain ⟨us, vs, rfl, hus⟩ := ih hrest hts htails
      exact ⟨b :: us, vs, rfl, by rw [List.map_cons, List.map_cons, hus, hlexeme]⟩

/-- An attribute without a value behind its equals sign takes what comes behind the next space for
its value. -/
theorem exists_taking (ha : a.IsTolerant) (hbare : a.IsBare) {c : Char} {cs : List Char}
    (hc : isAttributeNameChar c = true) (hend : '>' ∈ cs) :
    ∃ (b : Attribute) (tail : List Char) (value : String), b.IsTolerant ∧ b.Stops tail ∧
      b.leading = a.leading ∧ b.name = a.name ∧ b.value = some value ∧ value ≠ "" ∧
      b.own ++ tail = a.own ++ ' ' :: c :: cs := by
  simp only [isAttributeNameChar, Bool.and_eq_true, Bool.not_eq_true', bne_iff_ne] at hc
  obtain ⟨⟨⟨⟨⟨⟨hblank, -⟩, hmark⟩, -⟩, hdouble⟩, hsingle⟩, -⟩ := hc
  have hunquoted : isUnquotedChar c = true := by simp [isUnquotedChar, hblank, hmark]
  have hrun : (c :: cs).takeWhile isUnquotedChar = c :: cs.takeWhile isUnquotedChar :=
    List.takeWhile_cons_of_pos hunquoted
  obtain ⟨front, back, hfront, hback, hoperator⟩ :
      ∃ front back, IsSpace front ∧ IsSpace back ∧ a.operator = front ++ "=" ++ back := by
    cases ha.value with
    | missing hoperator hvalue => rw [hbare.2] at hvalue; contradiction
    | @written front back _ hfront hback hoperator => exact ⟨front, back, hfront, hback, hoperator⟩
  let value := String.ofList ((c :: cs).takeWhile isUnquotedChar)
  let b : Attribute := { a with operator := a.operator ++ " ", value := some value }
  have hboperator : b.operator = front ++ "=" ++ (back ++ " ") := by
    simp [b, hoperator, String.append_assoc]
  have hbquote : b.quote = .unquoted := hbare.1
  obtain ⟨d, ds, hdrop⟩ : ∃ d ds, (c :: cs).dropWhile isUnquotedChar = d :: ds := by
    refine List.exists_cons_of_ne_nil fun hnil => ?_
    have hall := List.dropWhile_eq_nil_iff.mp hnil '>' (List.mem_cons_of_mem c hend)
    exact absurd hall (by decide)
  have hd : Text.isBlank d = true ∨ d = '>' := by
    have hhead := List.head?_dropWhile_not isUnquotedChar (c :: cs)
    rw [hdrop] at hhead
    simpa [isUnquotedChar, Bool.or_eq_true, or_iff_not_imp_left] using hhead
  have hne : value ≠ "" := by simp [value, hrun]
  refine ⟨b, d :: ds, value, ⟨ha.leading, ha.name, .written hfront ?_ hboperator rfl ?_⟩, ?_, rfl,
    rfl, rfl, hne, ?_⟩
  · intro e he
    rw [String.toList_append, List.mem_append] at he
    obtain he | he := he
    · exact hback e he
    · obtain rfl : e = ' ' := by simpa using he
      decide
  · rw [hbquote]
    refine ⟨fun e he => ?_, fun e he => ?_⟩
    · rw [String.toList_ofList] at he
      exact List.mem_takeWhile_imp he
    · obtain rfl : c = e := by simpa [value, hrun] using he
      exact ⟨hdouble, hsingle⟩
  · unfold Attribute.Stops
    rw [hbquote]
    exact ⟨d, ds, rfl, hd.symm.imp_right fun hd => ⟨hd, fun heq => hne (Option.some.inj heq)⟩⟩
  · have hsplit := List.takeWhile_append_dropWhile (p := isUnquotedChar) (l := c :: cs)
    rw [own_written hboperator rfl, own_written hoperator hbare.2, hbquote, ← hsplit, hdrop]
    simp [quoted, b, value]

theorem allStop_of_partsStop {front : List Attribute}
    (h : Tag.PartsStop trailing selfClosing [] (front ++ [a])) (hleading : b.leading = a.leading)
    (hname : b.name = a.name) (hb : b.IsTolerant) (hstop : b.Stops tail) :
    Attribute.AllStop tail (front ++ [b]) := by
  induction front with
  | nil => exact ⟨hb, hstop, trivial⟩
  | cons f front ih =>
    rw [List.cons_append] at h ⊢
    obtain ⟨hf, hfstop, hrest⟩ := h
    refine ⟨hf, ?_, ih hrest⟩
    cases front with
    | nil =>
      rw [List.nil_append, rawText_partLexemes_own, List.append_assoc, List.append_assoc] at hfstop
      have hbegins := hfstop.of_begins hrest.1.name hleading hname tail
      simpa [b.raw_lexeme_own] using hbegins
    | cons g front =>
      rw [List.cons_append, rawText_partLexemes_own, List.append_assoc, List.append_assoc]
        at hfstop
      have hbegins := hfstop.of_begins hrest.1.name rfl rfl
        (rawText ((front ++ [b]).map Attribute.lexeme) ++ tail)
      simpa [g.raw_lexeme_own] using hbegins

end Read

/-! ## An element with an attribute -/

/-- The name and the value of an attribute. -/
def Attribute.pair (a : Attribute) : String × Option String := (a.name, a.value)

/-- Whether a start tag is an element's own but for the first attribute with a name, which stands
for a text. -/
structure Tag.Assigns (t : Tag) (e : Element) (name text : String) : Prop where
  tag : t.name = e.name
  assigned : ∃ a, t.attributes.find? (·.isNamed name) = some a ∧ a.decodedValue = text
  others : (Attribute.remove name t.attributes).map Attribute.pair =
    (Attribute.remove name e.attributes).map Attribute.pair

section Element

variable {e : Element} {name : String}

theorem Attribute.set_of_forall {attributes : List Attribute}
    (h : ∀ a ∈ attributes, a.isNamed name = false) (value : String) :
    Attribute.set name value attributes = attributes ++ [Attribute.make name value] := by
  induction attributes with
  | nil => rfl
  | cons a attributes ih =>
    obtain ⟨ha, hrest⟩ := List.forall_mem_cons.mp h
    rw [Attribute.set, if_neg (by simp [ha]), ih hrest, List.cons_append]

theorem assigns_setAttribute (e : Element) (name text : String) :
    (e.setAttribute name (Text.escape text)).tag.Assigns e name text := by
  obtain ⟨a, hfind, hvalue⟩ := Attribute.exists_find?_set name (Text.escape text) e.attributes
  refine ⟨rfl, ⟨a, hfind, ?_⟩, congrArg _ (Attribute.remove_set ..)⟩
  rw [Attribute.decodedValue, Attribute.rawValue, hvalue, Option.getD_some, Text.unescape_escape]

/-- The parts of a start tag that is tokenized from the text of another one with the same name end
in time, and make up the parts of that text. -/
theorem exists_partsStop {t u : Tag} (hname : IsTagName t.name) (hsame : u.name = t.name)
    (h : u.IsAllOf .tolerant t.render) :
    ∃ rest, Tag.PartsStop u.trailing u.selfClosing rest u.attributes ∧
      rawText (Tag.partLexemes t.attributes t.trailing t.selfClosing) =
        rawText (Tag.partLexemes u.attributes u.trailing u.selfClosing) ++ rest := by
  obtain ⟨hu, rest, hscan⟩ := exists_scanStartTag hname h
  have htext := scanStartTag_append hscan
  rw [← htext] at hscan
  rw [rawText_lexemes_parts, rawText_lexemes_parts, hsame, List.cons_append, List.append_assoc,
    List.cons.injEq] at htext
  exact ⟨rest, ((scanStartTag_tolerant_iff hu rest).mp hscan).parts,
    (List.append_cancel_left htext.2).symm⟩

/-- Attributes with the same lexemes have the same names and values. -/
theorem map_pair_eq {us attributes : List Attribute}
    (h : us.map Attribute.lexeme = attributes.map Attribute.lexeme) :
    us.map Attribute.pair = attributes.map Attribute.pair := by
  induction us generalizing attributes with
  | nil => cases attributes <;> simp_all
  | cons u us ih =>
    cases attributes with
    | nil => simp at h
    | cons a attributes =>
      rw [List.map_cons, List.map_cons, List.cons.injEq] at h
      have hpair : u.pair = a.pair := by
        have hlexeme := h.1
        simp only [Attribute.lexeme, Lexeme.mk.injEq, TokenKind.attribute.injEq] at hlexeme
        rw [Attribute.pair, Attribute.pair, hlexeme.1.2.1, hlexeme.1.2.2.2.1]
      rw [List.map_cons, List.map_cons, hpair, ih h.2]

/-- The text of a start tag that gets a new attribute behind the last one. -/
theorem exists_rawText_set {front : List Attribute} {a : Attribute}
    (hnamed : ∀ b ∈ front ++ [a], b.isNamed name = false) (hname : IsAttributeName name)
    (value trailing : String) (selfClosing : Bool) :
    ∃ c more, isAttributeNameChar c = true ∧ '>' ∈ more ∧
      rawText (Tag.partLexemes (Attribute.set name value (front ++ [a])) trailing selfClosing) =
        rawText (front.map Attribute.lexeme) ++
          (a.leading.toList ++ (a.own ++ ' ' :: c :: more)) := by
  obtain ⟨c, cs, hcs, hc⟩ := hname.exists_cons
  refine ⟨c, cs ++ '=' :: '"' :: (value.toList ++
    '"' :: rawText (Tag.partLexemes [] trailing selfClosing)), hc, ?_, ?_⟩
  · cases selfClosing <;> simp [Tag.closing, rawText_partLexemes_nil]
  · have hmake : rawText (Tag.partLexemes [Attribute.make name value] trailing selfClosing) =
        ' ' :: c :: (cs ++ '=' :: '"' :: (value.toList ++
          '"' :: rawText (Tag.partLexemes [] trailing selfClosing))) := by
      simp [rawText_partLexemes_own, Attribute.make, Attribute.own, Attribute.render, hcs]
    rw [Attribute.set_of_forall hnamed, List.append_assoc, rawText_partLexemes_append,
      List.singleton_append, rawText_partLexemes_own, hmake]

/-- A start tag that is read where a new attribute was set behind one that waits for a value has the
attributes in front of that one as they were, and then it has that one with another value. -/
theorem exists_taken {front : List Attribute} {a : Attribute} {t : Tag}
    (hread : e.tag.IsRead .tolerant) (hattributes : e.attributes = front ++ [a])
    (hbare : a.IsBare) (hname : IsAttributeName name)
    (hnamed : ∀ b ∈ e.attributes, b.isNamed name = false) {value : String}
    (hall : t.IsAllOf .tolerant (e.setAttribute name value).tag.render) (htag : t.name = e.name) :
    ∃ (b : Attribute) (us vs : List Attribute), t.attributes = us ++ vs ∧
      us.map Attribute.pair = (front ++ [b]).map Attribute.pair ∧ b.name = a.name ∧
      b.value ≠ a.value := by
  obtain ⟨rest, hparts, htext⟩ := exists_partsStop (t := (e.setAttribute name value).tag)
    hread.name htag hall
  change rawText (Tag.partLexemes (Attribute.set name value e.attributes) _ _) = _ at htext
  have hread := hread.stops.parts
  change Tag.PartsStop _ _ _ e.attributes at hread
  rw [hattributes] at hread hnamed htext
  obtain ⟨c, more, hc, hend, hset⟩ := exists_rawText_set hnamed hname value
    (e.setAttribute name value).tag.trailing (e.setAttribute name value).tag.selfClosing
  obtain ⟨b, tail, taken, hb, hstop, hleading, hsame, hvalue, hne, hown⟩ :=
    exists_taking (hread.isTolerant a (by simp)) hbare hc hend
  have htaken : rawText ((front ++ [b]).map Attribute.lexeme) ++ tail =
      rawText (Tag.partLexemes t.attributes t.trailing t.selfClosing) ++ rest := by
    rw [← htext, hset, ← hown, ← hleading]
    simp [rawText_append, b.raw_lexeme_own]
  obtain ⟨us, vs, hus, hlexemes⟩ := exists_of_allStop
    (allStop_of_partsStop hread hleading hsame hb hstop) hparts htaken
  refine ⟨b, us, vs, hus, map_pair_eq hlexemes, hsame, fun heq => ?_⟩
  rw [hvalue, hbare.2] at heq
  exact hne (Option.some.inj heq)

/-- Behind an attribute that waits for a value, a new one is not read as such. -/
theorem not_assigns_of_isBare {front : List Attribute} {a : Attribute} {t : Tag} {text : String}
    (hread : e.tag.IsRead .tolerant) (hattributes : e.attributes = front ++ [a])
    (hbare : a.IsBare) (hname : IsAttributeName name)
    (hnamed : ∀ b ∈ e.attributes, b.isNamed name = false) {value : String}
    (hall : t.IsAllOf .tolerant (e.setAttribute name value).tag.render) :
    ¬ t.Assigns e name text := by
  rintro ⟨htag, -, hothers⟩
  obtain ⟨b, us, vs, hus, hpairs, hsame, hvalue⟩ :=
    exists_taken hread hattributes hbare hname hnamed hall htag
  rw [hattributes] at hnamed hothers
  have hunnamed : ∀ u ∈ us, u.isNamed name = false := by
    intro u hu
    have hpair := List.mem_map_of_mem (f := Attribute.pair) hu
    rw [hpairs] at hpair
    obtain ⟨f, hf, hfu⟩ := List.mem_map.mp hpair
    have hfname : f.name = u.name := congrArg Prod.fst hfu
    obtain hf | hf := List.mem_append.mp hf
    · have hnot := hnamed f (List.mem_append_left _ hf)
      rwa [Attribute.isNamed, hfname] at hnot
    · obtain rfl := List.mem_singleton.mp hf
      have hnot := hnamed a (by simp)
      rwa [Attribute.isNamed, ← hsame, hfname] at hnot
  have hnew : Attribute.remove name t.attributes = us ++ Attribute.remove name vs := by
    rw [hus, Attribute.remove, List.eraseP_append_right _ (by simpa using hunnamed),
      Attribute.remove]
  have hold : Attribute.remove name (front ++ [a]) = front ++ [a] := by
    rw [Attribute.remove, List.eraseP_of_forall_not fun b hb => by simp [hnamed b hb]]
  rw [hnew, hold, List.map_append, hpairs, List.map_append, List.map_append, List.append_assoc]
    at hothers
  have hlast := List.append_cancel_left hothers
  rw [List.map_singleton, List.map_singleton, List.singleton_append, List.cons.injEq] at hlast
  exact hvalue (congrArg Prod.snd hlast.1)

/-- A document's element with an attribute that is set is tokenized as one start tag with the value
that was set, and the other attributes as they were, exactly if it has an attribute with that name
or its last attribute does not wait for a value. -/
theorem exists_assigns_iff {options : Options} (hmode : options.mode = .tolerant)
    {s : Source} {d : Document} (h : parseSource options s = .ok d) (he : e ∈ d.elements)
    (hname : IsAttributeName name) (text : String) :
    (∃ t : Tag, t.IsAllOf .tolerant (e.setAttribute name (Text.escape text)).tag.render ∧
        t.Assigns e name text) ↔
      Attribute.Accept name e.attributes := by
  have hread := isRead_of_parseSource h he
  rw [hmode] at hread
  constructor
  · rintro ⟨t, hall, hassigns⟩
    by_contra hnot
    simp only [Attribute.Accept, not_or, not_exists, not_and, not_forall, not_not,
      Bool.not_eq_true] at hnot
    obtain ⟨hnamed, a, hlast, hbare⟩ := hnot
    obtain ⟨front, hattributes⟩ := List.getLast?_eq_some_iff.mp hlast
    exact not_assigns_of_isBare hread hattributes hbare hname hnamed hall hassigns
  · intro haccept
    have hvalue : ∀ mark ∈ ['"', '\''], mark ∉ (Text.escape text).toList :=
      fun mark hmark => Text.not_mem_escape (by simp at hmark ⊢; tauto) text
    have hstops : (e.setAttribute name (Text.escape text)).tag.Stops [] :=
      hread.stops.set hname hvalue haccept
    have htag : IsTagName (e.setAttribute name (Text.escape text)).tag.name := hread.name
    exact ⟨_, (tokenize_render_iff htag).mpr hstops, assigns_setAttribute e name text⟩

/-- An attribute without a value between two others gets one. -/
theorem exists_assigns_hidden : ∃ d e,
    parseSource {} (.ofString "<p id=x hidden class='c'>y</p>") = .ok d ∧ e ∈ d.elements ∧
      IsAttributeName "hidden" ∧ Attribute.Accept "hidden" e.attributes ∧
      (e.setAttribute "hidden" (Text.escape "\"a\" > 'b'")).tag.render =
        "<p id=x hidden=\"&quot;a&quot; &gt; &#39;b&#39;\" class='c'>" ∧
      ∃ t : Tag,
        t.IsAllOf .tolerant (e.setAttribute "hidden" (Text.escape "\"a\" > 'b'")).tag.render ∧
          t.Assigns e "hidden" "\"a\" > 'b'" := by
  have hcheck : (parseSource {} (.ofString "<p id=x hidden class='c'>y</p>")).toOption.any
      (fun d => d.elements.any fun e => decide (Attribute.Accept "hidden" e.attributes ∧
        (e.setAttribute "hidden" (Text.escape "\"a\" > 'b'")).tag.render =
          "<p id=x hidden=\"&quot;a&quot; &gt; &#39;b&#39;\" class='c'>")) = true := by
    decide +kernel
  obtain ⟨d, hparse, hcheck⟩ := exists_of_any_toOption hcheck
  obtain ⟨e, he, hcheck⟩ := List.any_eq_true.mp hcheck
  obtain ⟨haccept, hrender⟩ := of_decide_eq_true hcheck
  have hname : IsAttributeName "hidden" := by decide
  exact ⟨d, e, hparse, he, hname, haccept, hrender,
    (exists_assigns_iff rfl hparse he hname _).mpr haccept⟩

/-- A new attribute behind an equals sign without a value is read as the value, up to the first
space in it. -/
theorem not_exists_assigns_bare : ∃ d e,
    parseSource {} (.ofString "<p a=>z</p>") = .ok d ∧ e ∈ d.elements ∧
      IsAttributeName "title" ∧
      (e.setAttribute "title" (Text.escape "t y=")).tag.render = "<p a= title=\"t y=\">" ∧
      ¬ ∃ t : Tag, t.IsAllOf .tolerant (e.setAttribute "title" (Text.escape "t y=")).tag.render ∧
        t.Assigns e "title" "t y=" := by
  have hcheck : (parseSource {} (.ofString "<p a=>z</p>")).toOption.any
      (fun d => d.elements.any fun e => decide (
        (e.attributes.map fun a => (a.name, a.quote, a.value)) = [("a", .unquoted, some "")] ∧
        (e.setAttribute "title" (Text.escape "t y=")).tag.render = "<p a= title=\"t y=\">")) =
      true := by
    decide +kernel
  obtain ⟨d, hparse, hcheck⟩ := exists_of_any_toOption hcheck
  obtain ⟨e, he, hcheck⟩ := List.any_eq_true.mp hcheck
  obtain ⟨hmap, hrender⟩ := of_decide_eq_true hcheck
  obtain ⟨a, hattributes, ha⟩ := List.map_eq_singleton_iff.mp hmap
  rw [← List.nil_append [a]] at hattributes
  simp only [Prod.mk.injEq] at ha
  obtain ⟨hname, hquote, hvalue⟩ := ha
  refine ⟨d, e, hparse, he, by decide, hrender, ?_⟩
  rintro ⟨t, hall, hassigns⟩
  refine not_assigns_of_isBare (isRead_of_parseSource hparse he) hattributes
    ⟨hquote, hvalue⟩ (by decide) ?_ hall hassigns
  rw [hattributes, List.nil_append]
  intro b hb
  obtain rfl := List.mem_singleton.mp hb
  rw [Attribute.isNamed, hname]
  decide

end Element

end NaturalTemplate.Markup
