import NaturalTemplate.Proofs.Markup.Modes
import NaturalTemplate.Proofs.Markup.Stream

/-!
# The grammar of token streams

Between the start and the end of a document stand units: single tokens, whole start tags, and the
two marks of a prototype-only block in turn. No two texts stand side by side, no token is without
text, and so there are no more tokens than characters, but for those that say where the document
begins and ends. A stream of tokens comes to an end whatever its source is.
-/
namespace NaturalTemplate.Markup

namespace TokenKind

/-- Tokens that are units by themselves, in a prototype-only block and outside. -/
def isSingle : TokenKind → Bool
  | .tagEnd _ | .text _ => true
  | k => k.isLeaf

def isDocumentMark : TokenKind → Bool
  | .documentStart | .documentEnd => true
  | _ => false

end TokenKind

/-- Kinds of tokens that fall into units, where it is known whether a prototype-only block is open
before them. None is open behind them. -/
inductive Units : Bool → List TokenKind → Prop where
  | nil : Units false []
  | single {inBlock : Bool} {k : TokenKind} {ks : List TokenKind} (hk : k.isSingle = true)
    (h : Units inBlock ks) : Units inBlock (k :: ks)
  | startTag {inBlock selfClosing : Bool} {name trailing : String}
    {attributes ks : List TokenKind} (hattributes : ∀ k ∈ attributes, k.isAttribute = true)
    (h : Units inBlock ks) :
    Units inBlock (.tagStart name :: (attributes ++ .tagStartEnd trailing selfClosing :: ks))
  | blockStart {ks : List TokenKind} (h : Units true ks) : Units false (.blockStart :: ks)
  | blockEnd {ks : List TokenKind} (h : Units false ks) : Units true (.blockEnd :: ks)

/-- Kinds of tokens that go on in a start tag behind its name. -/
def UnitsInTag (inBlock : Bool) (ks : List TokenKind) : Prop :=
  ∃ attributes trailing selfClosing ks', (∀ k ∈ attributes, TokenKind.isAttribute k = true) ∧
    ks = attributes ++ .tagStartEnd trailing selfClosing :: ks' ∧ Units inBlock ks'

/-- Tokens that come in turn and leave nothing open fall into units. -/
theorem units_of_after? {ks : List TokenKind} (hmarks : ∀ k ∈ ks, k.isDocumentMark = false)
    (inBlock : Bool) :
    (Turn.after? ⟨false, inBlock⟩ ks = some {} → Units inBlock ks) ∧
      (Turn.after? ⟨true, inBlock⟩ ks = some {} → UnitsInTag inBlock ks) := by
  induction ks generalizing inBlock with
  | nil =>
    refine ⟨fun h => ?_, fun h => ?_⟩
    · obtain rfl : inBlock = false := by simpa using h
      exact .nil
    · simp at h
  | cons k ks ih =>
    obtain ⟨hk, hks⟩ := List.forall_mem_cons.mp hmarks
    have outside := fun b => (ih hks b).1
    have inside := fun b => (ih hks b).2
    refine ⟨fun h => ?_, fun h => ?_⟩
    · rw [Turn.after?_cons] at h
      cases k with
      | documentStart | documentEnd => simp [TokenKind.isDocumentMark] at hk
      | «attribute» | tagStartEnd => simp [Turn.next?] at h
      | tagEnd | text | comment | cdata | docType | instruction =>
        exact .single rfl (outside inBlock h)
      | tagStart name =>
        obtain ⟨attributes, trailing, selfClosing, ks', hattributes, rfl, hrest⟩ :=
          inside inBlock h
        exact .startTag hattributes hrest
      | blockStart =>
        cases inBlock with
        | true => simp [Turn.next?] at h
        | false => exact .blockStart (outside true h)
      | blockEnd =>
        cases inBlock with
        | false => simp [Turn.next?] at h
        | true => exact .blockEnd (outside false h)
    · rw [Turn.after?_cons] at h
      cases k with
      | «attribute» leading name operator value quote =>
        obtain ⟨attributes, trailing, selfClosing, ks', hattributes, rfl, hrest⟩ :=
          inside inBlock h
        exact ⟨_ :: attributes, trailing, selfClosing, ks',
          List.forall_mem_cons.mpr ⟨rfl, hattributes⟩, rfl, hrest⟩
      | tagStartEnd trailing selfClosing =>
        exact ⟨[], trailing, selfClosing, ks, by simp, rfl, outside inBlock h⟩
      | _ => simp [Turn.next?] at h

/-! ## No token without text -/

namespace Lexeme

theorem scanAttribute_raw_ne_nil {mode : Mode} {failure : Option ReadFailure}
    {before leading cs rest : List Char} {l : Lexeme}
    (h : scanAttribute mode failure before leading cs = .ok (l, rest)) : l.raw ≠ [] := by
  have happend := congrArg List.length (scanAttribute_append h)
  have hlength := scanAttribute_length h
  simp only [List.length_append] at happend
  exact List.length_pos_iff.mp (by omega)

theorem scanTagRest_raw_ne_nil {mode : Mode} {failure : Option ReadFailure} {name : String}
    {before leading cs rest : List Char} {ls : List Lexeme}
    (h : scanTagRest mode failure name before leading cs = .ok (ls, rest)) :
    ∀ l ∈ ls, l.raw ≠ [] := by
  replace h := scansTagRest_of_scanTagRest h
  induction h with
  | close selfClosing => cases selfClosing <;> simp
  | slash _ _ _ ih => exact ih
  | attr _ _ hattr _ ih => exact List.forall_mem_cons.mpr ⟨scanAttribute_raw_ne_nil hattr, ih⟩

/-- No lexeme of a construct is without text. -/
theorem raw_ne_nil_of_scanUnit {mode : Mode} {failure : Option ReadFailure} {inBlock : Bool}
    {cs rest : List Char} {ls : List Lexeme} (hcs : cs ≠ [])
    (h : scanUnit mode failure inBlock cs = .ok (ls, rest)) : ∀ l ∈ ls, l.raw ≠ [] := by
  have hsingle : ∀ l, ls = [l] → ∀ k ∈ ls, k.raw ≠ [] := by
    rintro l rfl
    simpa using scanUnit_rawText_ne_nil hcs h
  cases steps_of_scanUnit h with
  | blockEnd | text => exact hsingle _ rfl
  | markup _ hscan =>
    cases scans_of_scanMarkup hscan with
    | blockStart | delimited | endTag => exact hsingle _ rfl
    | startTag _ hscan =>
      cases scansTag_of_scanStartTag hscan with
      | intro _ hparts =>
        refine List.forall_mem_cons.mpr ⟨?_, scanTagRest_raw_ne_nil hparts⟩
        simp [hcs]

theorem length_le_rawText {ls : List Lexeme} (h : ∀ l ∈ ls, l.raw ≠ []) :
    ls.length ≤ (rawText ls).length := by
  induction ls with
  | nil => simp
  | cons l ls ih =>
    obtain ⟨hl, hls⟩ := List.forall_mem_cons.mp h
    have hpos := List.length_pos_iff.mpr hl
    have hrest := ih hls
    simp only [rawText_cons, List.length_append, List.length_cons]
    omega

@[simp] theorem length_locate (p : Position) (ls : List Lexeme) :
    (locate p ls).length = ls.length := by
  rw [← List.length_map Token.kind, map_kind_locate, List.length_map]

theorem raw_locate_ne {p : Position} {ls : List Lexeme} (h : ∀ l ∈ ls, l.raw ≠ []) :
    ∀ t ∈ locate p ls, t.raw ≠ "" := by
  induction ls generalizing p with
  | nil => simp [locate]
  | cons l ls ih =>
    obtain ⟨hl, hls⟩ := List.forall_mem_cons.mp h
    exact List.forall_mem_cons.mpr ⟨by simpa using hl, ih hls⟩

end Lexeme

namespace Tokens

/-- Every token but the last one takes a character at least, and so does what an error ends. -/
theorem length_items_read (mode : Mode) (failure : Option ReadFailure) (p : Position)
    (block : Option Location) (body : Option String) (cs : List Char) :
    (read mode failure p block body cs).items.length ≤ cs.length + 1 := by
  fun_induction read mode failure p block body cs with
  | case1 | case4 | case5 | case6 | case7 => simp [items]
  | case2 p block name cs text rest hrun after hempty ih =>
    have happend := congrArg List.length (Lexeme.rawTextRun_append hrun)
    rw [List.length_append] at happend
    change after.items.length ≤ _ at ih
    omega
  | case3 p block name cs text rest hrun after hempty ih =>
    have happend := congrArg List.length (Lexeme.rawTextRun_append hrun)
    have hpos : 0 < text.length := List.length_pos_iff.mpr (by simpa using hempty)
    rw [List.length_append] at happend
    change after.items.length ≤ _ at ih
    rw [items_prepend, List.length_append, List.length_map, List.length_singleton]
    omega
  | case8 p block c cs ls rest hunit ih =>
    have happend := congrArg List.length (Lexeme.scanUnit_append hunit)
    have hlength := Lexeme.length_le_rawText
      (Lexeme.raw_ne_nil_of_scanUnit (List.cons_ne_nil c cs) hunit)
    rw [List.length_append] at happend
    rw [items_prepend, List.length_append, List.length_map, Lexeme.length_locate]
    omega

/-- Nothing but the token that says where the document ends is without text. -/
theorem raw_ne_of_read {mode : Mode} {failure : Option ReadFailure} {p : Position}
    {block : Option Location} {body : Option String} {cs : List Char} {t : Token}
    (ht : t ∈ (read mode failure p block body cs).tokens) (hkind : t.kind ≠ .documentEnd) :
    t.raw ≠ "" := by
  fun_induction read mode failure p block body cs with
  | case1 | case4 | case5 | case7 => simp at ht
  | case2 p block name cs text rest hrun after hempty ih => exact ih ht
  | case3 p block name cs text rest hrun after hempty ih =>
    obtain rfl | ht := List.mem_cons.mp ht
    · simpa [Token.text] using hempty
    · exact ih ht
  | case6 p =>
    obtain rfl := List.mem_singleton.mp ht
    contradiction
  | case8 p block c cs ls rest hunit ih =>
    obtain ht | ht := List.mem_append.mp ht
    · exact Lexeme.raw_locate_ne (Lexeme.raw_ne_nil_of_scanUnit (List.cons_ne_nil c cs) hunit) t ht
    · exact ih ht

end Tokens

/-! ## No text beside text -/

namespace Lexeme

theorem isAlphabetic_of_toLower {c : Char} (h : c.toLower = 's') : Text.isAlphabetic c = true := by
  refine Text.isAlphabetic_of_isAlpha (Text.isAlpha_of_toLower ?_)
  rw [h]
  decide

/-- The end tag of a raw-text element is markup where it is found. -/
theorem opens_of_closesRawText {name : String} {cs : List Char} (hname : isRawText name = true)
    (h : closesRawText none (Mark.endTagStart ++ name.toList) cs = .ok true) :
    opensMarkup none cs = .ok true := by
  have hlook : Text.fold (Mark.endTagStart ++ name.toList) <+: Text.fold cs := by
    unfold closesRawText at h
    obtain ⟨hlook, -⟩ | ⟨-, h⟩ := Source.ask_eq_ok h
    · exact Source.lookingAtIgnoringCase_eq_true hlook
    · simp [pure, Except.pure] at h
  obtain ⟨more, hfold⟩ : ∃ more, Text.fold name.toList = 's' :: more := by
    have hnames : Text.fold name.toList ∈ rawTextNames.map fun n => Text.fold n.toList := by
      simpa [isRawText, rawTextNames] using hname
    rw [(by decide : (rawTextNames.map fun n => Text.fold n.toList) =
      ["script".toList, "style".toList])] at hnames
    obtain h | h := List.mem_pair.mp hnames <;> exact ⟨_, h⟩
  have hmarks : Text.fold (Mark.endTagStart ++ name.toList) = '<' :: '/' :: 's' :: more := by
    rw [fold_append, hfold]
    rfl
  rw [hmarks] at hlook
  match cs, hlook with
  | a :: b :: c :: cs, hlook =>
    simp only [Text.fold, List.map_cons, List.cons_prefix_cons] at hlook
    obtain ⟨ha, hb, hc, -⟩ := hlook
    obtain rfl := Text.eq_of_toLower_eq (by decide) ha.symm
    obtain rfl := Text.eq_of_toLower_eq (by decide) hb.symm
    rw [opensMarkup_none]
    simp [isAlphabetic_of_toLower hc.symm]
  | [], hlook | [_], hlook | [_, _], hlook => simp [Text.fold] at hlook

theorem closes_of_rawTextRun {close cs text rest : List Char}
    (h : rawTextRun none close cs = .ok (text, rest)) :
    rest = [] ∨ closesRawText none close rest = .ok true := by
  induction cs generalizing text with
  | nil =>
    simp only [rawTextRun, Except.ok.injEq, Prod.mk.injEq] at h
    exact .inl h.2.symm
  | cons c cs ih =>
    rw [rawTextRun] at h
    obtain ⟨hcloses, h⟩ | ⟨-, h⟩ := Source.ask_eq_ok h
    · simp only [pure, Except.pure, Except.ok.injEq, Prod.mk.injEq] at h
      rw [← h.2]
      exact .inr hcloses
    · cases hrun : rawTextRun none close cs with
      | error f => simp [hrun, bind, Except.bind] at h
      | ok run =>
        simp only [hrun, bind, Except.bind, pure, Except.pure, Except.ok.injEq,
          Prod.mk.injEq] at h
        obtain ⟨-, rfl⟩ := h
        exact ih hrun

theorem isText_eq_false_of_isTagPart {t : Token} (h : t.kind.isTagPart = true) :
    t.isText = false := by
  unfold Token.isText
  split <;> simp_all [TokenKind.isTagPart]

/-- A construct is one text, which does not end at once but goes on to where it ends, or has no text
in it. -/
theorem isText_of_scanUnit {mode : Mode} {inBlock : Bool} {c : Char} {cs rest : List Char}
    {ls : List Lexeme} (h : scanUnit mode none inBlock (c :: cs) = .ok (ls, rest)) :
    ((∃ text, ls = [ofText text]) ∧ endsText none inBlock (c :: cs) = .ok false ∧
      (rest = [] ∨ endsText none inBlock rest = .ok true)) ∨
    ∀ p, ∀ t ∈ locate p ls, t.isText = false := by
  cases steps_of_scanUnit h with
  | blockEnd => exact .inr (by simp [locate, Token.isText])
  | text hopens hmark hrun =>
    exact .inl ⟨⟨_, rfl⟩, endsText_eq_false_iff.mpr ⟨hopens, hmark⟩, ends_of_textRun hrun⟩
  | markup hopens hscan =>
    refine .inr fun p t ht => ?_
    cases scans_of_scanMarkup hscan with
    | blockStart => simp_all [locate, Token.isText]
    | delimited hk _ hscan =>
      obtain ⟨content, hl⟩ := kind_of_scanDelimited hscan
      cases hk <;> simp_all [locate, Token.isText]
    | endTag _ hscan =>
      obtain ⟨name, hl⟩ := kind_of_scanEndTag hscan
      simp_all [locate, Token.isText]
    | startTag hstart hscan =>
      obtain ⟨tag, -, rfl⟩ := exists_of_scanStartTag hopens hstart hscan
      exact isText_eq_false_of_isTagPart (isTagPart_locate ht)

theorem isRawText_of_rawTextAfter {mode : Mode} {ls : List Lexeme} :
    ∀ name ∈ rawTextAfter mode ls, isRawText name = true := by
  intro name h
  unfold rawTextAfter at h
  split at h
  · split at h
    · next hname =>
      obtain rfl := Option.mem_some.mp h
      exact hname
    · simp at h
  · simp at h

end Lexeme

namespace Tokens
open Markup.Filter (Apart)

/-- Text is not followed by text, and does not stand where text ends. -/
theorem isChain_apart_of_read {mode : Mode} {p : Position} {block : Option Location}
    {body : Option String} {cs : List Char} (hbody : ∀ name ∈ body, isRawText name = true) :
    (read mode none p block body cs).tokens.IsChain Apart ∧
      (body = none → cs = [] ∨ Lexeme.endsText none block.isSome cs = .ok true →
        ∀ t ∈ (read mode none p block body cs).tokens.head?, t.isText = false) := by
  fun_induction read mode none p block body cs with
  | case1 | case4 | case5 | case7 => simp
  | case6 p => simp [Token.isText]
  | case2 p block cs name text rest hrun after hempty ih =>
    exact ⟨(ih (by simp)).1, by simp⟩
  | case3 p block cs name text rest hrun after hempty ih =>
    obtain ⟨hchain, hhead⟩ := ih (by simp)
    have hends : rest = [] ∨ Lexeme.endsText none block.isSome rest = .ok true := by
      refine (Lexeme.closes_of_rawTextRun hrun).imp_right fun hcloses => ?_
      have hopens := Lexeme.opens_of_closesRawText (hbody name rfl) hcloses
      simp [Lexeme.endsText, hopens, bind, Except.bind, pure, Except.pure]
    refine ⟨?_, by simp⟩
    exact List.isChain_cons.mpr ⟨fun t ht => .inr (hhead rfl hends t ht), hchain⟩
  | case8 p block c cs ls rest hunit ih =>
    obtain ⟨hchain, hhead⟩ := ih Lexeme.isRawText_of_rawTextAfter
    obtain ⟨⟨text, rfl⟩, hends, hrest⟩ | htexts := Lexeme.isText_of_scanUnit hunit
    · refine ⟨?_, fun _ hcs => ?_⟩
      · have hbody : Lexeme.rawTextAfter mode [Lexeme.ofText text] = none := by cases mode <;> rfl
        exact List.isChain_cons.mpr ⟨fun t ht => .inr (hhead hbody hrest t ht), hchain⟩
      · simp [hends] at hcs
    · have htexts := htexts p
      refine ⟨List.isChain_append.mpr ⟨?_, hchain, ?_⟩, fun _ _ t ht => ?_⟩
      · exact (List.pairwise_of_forall_mem_list fun t ht _ _ => .inl (htexts t ht)).isChain
      · exact fun t ht _ _ => .inl (htexts t (List.mem_of_mem_getLast? ht))
      · have hne : ls ≠ [] := by
          rintro rfl
          exact Lexeme.scanUnit_rawText_ne_nil (List.cons_ne_nil c cs) hunit rfl
        have hlocate : Lexeme.locate p ls ≠ [] := by
          rw [← List.length_pos_iff, Lexeme.length_locate]
          exact List.length_pos_iff.mpr hne
        rw [prepend, List.head?_append_of_ne_nil _ hlocate] at ht
        exact htexts t (List.mem_of_head? ht)

end Tokens

/-! ## Documents -/

/-- Tokens of a source that could be read to its end, as the grammar says: they fall into units,
have no two texts side by side and no token without text, and make up the source. -/
structure Grammatical (ts : List Token) (s : String) : Prop where
  units : Units false (ts.map Token.kind)
  apart : ts.IsChain Filter.Apart
  raw : ∀ t ∈ ts, t.raw ≠ ""
  text : Token.rawText ts = s

theorem Pieces.isDocumentMark {mode : Mode} {ts : List Token} (h : Pieces mode ts) :
    ∀ t ∈ ts, t.kind.isDocumentMark = false := by
  induction h with
  | nil => simp
  | @single t ts ht _ ih =>
    refine List.forall_mem_cons.mpr ⟨?_, ih⟩
    unfold Token.IsPiece at ht
    cases hk : t.kind <;> simp_all [TokenKind.IsPiece, TokenKind.isDocumentMark]
  | tag _ p _ ih =>
    refine List.forall_mem_append.mpr ⟨fun t ht => ?_, ih⟩
    have hpart := Lexeme.isTagPart_locate ht
    cases hk : t.kind <;> simp_all [TokenKind.isTagPart, TokenKind.isDocumentMark]

theorem Turn.after?_of_documentEnd {u : Turn} {ks : List TokenKind}
    (h : u.after? (ks ++ [.documentEnd]) = some {}) : u.after? ks = some {} := by
  rw [after?_append] at h
  obtain ⟨v, hv, hend⟩ := Option.bind_eq_some_iff.mp h
  simp only [after?_cons, after?_nil, next?, Option.bind_eq_some_iff,
    Option.ite_none_left_eq_some, Option.some.injEq] at hend
  obtain ⟨w, ⟨-, rfl⟩, rfl⟩ := hend
  exact hv

/-- The tokens of a text that could be read to its end. -/
theorem Tokens.exists_grammatical {mode : Mode} {s : String}
    (h : (tokenize mode (.ofString s)).error = none) :
    ∃ ts l, (tokenize mode (.ofString s)).tokens =
      ⟨.documentStart, "", .start⟩ :: (ts ++ [⟨.documentEnd, "", l⟩]) ∧ Grammatical ts s := by
  have hread : (read mode none .start none none s.toList).error = none := h
  obtain ⟨ts, l, hts, hpieces⟩ := pieces_of_read hread
  have hmarks := hpieces.isDocumentMark
  have hfaithful := read_faithful mode none .start none none s.toList
  refine ⟨ts, l, congrArg (_ :: ·) hts, ?_, ?_, fun t ht => ?_, ?_⟩
  · obtain ⟨v, hturn, hv⟩ := hfaithful.turn
    obtain rfl := hv h
    rw [hts, List.map_append] at hturn
    exact (units_of_after? (by simpa using hmarks) false).1 (Turn.after?_of_documentEnd hturn)
  · have hchain : (read mode none .start none none s.toList).tokens.IsChain Filter.Apart :=
      (isChain_apart_of_read (by simp)).1
    rw [hts] at hchain
    exact hchain.left_of_append
  · refine raw_ne_of_read (t := t) (hts ▸ List.mem_append_left _ ht) ?_
    intro hkind
    simpa [hkind, TokenKind.isDocumentMark] using hmarks t ht
  · have htext := hfaithful.text h
    rw [hts] at htext
    simpa using htext

/-- A stream over the bytes of a text comes to an end, after at most two tokens more than the text
has characters. If it gives no error, it gives the tokens of a document as the grammar has them. -/
theorem TokenStream.grammatical_of_delivered (mode : Mode) {reads : List Read} {s : String}
    (hreads : Source.delivered reads = some s.toUTF8.data.toList) :
    (∀ n ≥ s.length + 2, (ofSource mode (.ofReads reads)).answer n = none) ∧
      ((∀ n e, (ofSource mode (.ofReads reads)).answer n ≠ some (.error e)) →
        ∃ ts l, (∀ n, (ofSource mode (.ofReads reads)).answer n =
            (⟨.documentStart, "", .start⟩ :: (ts ++ [⟨.documentEnd, "", l⟩]))[n]?.map .ok) ∧
          Grammatical ts s ∧ ts.length ≤ s.length) := by
  rw [Source.ofReads_of_delivered hreads]
  have hlength : (tokenize mode (.ofString s)).items.length ≤ s.length + 2 := by
    have hread := Tokens.length_items_read mode none .start none none s.toList
    rw [tokenize, Tokens.items_prepend, List.length_append]
    simp only [Source.ofString, List.map_cons, List.map_nil, List.length_singleton]
    rw [String.length_toList] at hread
    omega
  refine ⟨fun n hn => ?_, fun herrors => ?_⟩
  · rw [answer_ofSource]
    exact List.getElem?_eq_none (by omega)
  · have hnone : (tokenize mode (.ofString s)).error = none := by
      refine Option.eq_none_iff_forall_ne_some.mpr fun e he => ?_
      have hitem : .error e ∈ (tokenize mode (.ofString s)).items := by simp [Tokens.items, he]
      obtain ⟨n, hn⟩ := List.getElem?_of_mem hitem
      exact herrors n e (by rw [answer_ofSource, hn])
    obtain ⟨ts, l, hts, hgrammar⟩ := Tokens.exists_grammatical hnone
    have hitems : (tokenize mode (.ofString s)).items =
        (⟨.documentStart, "", .start⟩ :: (ts ++ [⟨.documentEnd, "", l⟩])).map .ok := by
      simp [Tokens.items, hnone, hts]
    refine ⟨ts, l, fun n => ?_, hgrammar, ?_⟩
    · rw [answer_ofSource, hitems, List.getElem?_map]
    · rw [hitems] at hlength
      simp only [List.length_map, List.length_cons, List.length_append, List.length_nil] at hlength
      omega

/-- A character cut in two by a block, an empty body of raw text, a stray slash, and a block. -/
theorem TokenStream.grammatical_of_delivered_cut :
    let s := "é<script></script><!--/*/<a / b>/*/-->< x"
    let bytes := s.toUTF8.data.toList
    let reads : List Read := [.bytes (bytes.take 1), .interrupted, .bytes (bytes.drop 1)]
    Source.delivered reads = some bytes ∧
      (∀ n ≥ s.length + 2, (ofSource .tolerant (.ofReads reads)).answer n = none) ∧
      ∃ ts l, (∀ n, (ofSource .tolerant (.ofReads reads)).answer n =
          (⟨.documentStart, "", .start⟩ :: (ts ++ [⟨.documentEnd, "", l⟩]))[n]?.map .ok) ∧
        Grammatical ts s := by
  intro s bytes reads
  have hreads : Source.delivered reads = some bytes := by decide +kernel
  have hnone : (tokenize .tolerant (.ofReads reads)).error = none := by decide +kernel
  obtain ⟨hend, htokens⟩ := grammatical_of_delivered .tolerant hreads
  obtain ⟨ts, l, hanswer, hgrammar, -⟩ := htokens fun n e h => by
    rw [answer_ofSource, Tokens.items, hnone] at h
    simpa using List.mem_of_getElem? h
  exact ⟨hreads, hend, ts, l, hanswer, hgrammar⟩

end NaturalTemplate.Markup
