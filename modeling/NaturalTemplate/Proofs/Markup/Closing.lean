import NaturalTemplate.Proofs.Markup.Delimited
import NaturalTemplate.Proofs.Markup.Grammar
import NaturalTemplate.Proofs.Markup.Removal

/-!
# Where blocks end

The closing mark of a block is looked for between constructs only, so a mark inside a comment, a
value or the body of a script is passed over. What stands in front of a mark is read in the same way
whatever comes behind the mark. Hence a block ends with the first closing mark exactly if the text
up to there is a block that can be read by itself.
-/
namespace NaturalTemplate.Markup
open Lexeme

namespace Lexeme

variable {mode : Mode} {inBlock : Bool} {cs rest : List Char} {ls : List Lexeme}

/-! ## Markup -/

/-- An end tag is read again whatever comes behind it. -/
theorem scanEndTag_again {l : Lexeme} (hconstruct : construct none cs = .ok .endTag)
    (h : scanEndTag mode none cs = .ok (l, rest)) (rest' : List Char) :
    scanEndTag mode none (l.raw ++ rest') = .ok (l, rest') ∧ '>' ∈ l.raw ∧ 3 ≤ l.raw.length := by
  obtain ⟨ds, rfl⟩ := construct_mark hconstruct
  unfold scanEndTag at h
  simp only [Source.readWhile_none, Source.readUntil_none, Mark.endTagStart, List.cons_append,
    List.nil_append, List.drop_succ_cons, List.drop_zero] at h
  split at h
  · cases h
  · cases h
  · next content rest₁ hfind =>
    split at h
    · cases h
    · next hblank =>
      obtain ⟨d, more, hmore, hd⟩ := exists_cons_of_splitAt?
        (by decide : isTagNameChar '>' = false) (Except.ok.inj hfind)
      have hname : ∀ e ∈ ds.takeWhile isTagNameChar, isTagNameChar e = true :=
        List.all_eq_true.mp List.all_takeWhile
      have hrun := Source.takeWhile_run hname hd (more ++ rest')
      have hagain := Text.splitAt?_singleton
        (Text.not_mem_of_splitAt? (Except.ok.inj hfind)) rest'
      have htext : content ++ '>' :: rest' = d :: (more ++ rest') := by
        rw [← List.cons_append, ← hmore]
        simp
      cases h
      rw [← htext] at hrun
      refine ⟨?_, by simp [Mark.tagEnd], ?_⟩
      · simpa [scanEndTag, Mark.tagEnd, hrun, hagain] using hblank
      · simp only [Mark.tagEnd, List.length_append, List.length_take, List.length_cons]
        omega

/-- A start tag is read again whatever comes behind it. -/
theorem scanStartTag_again (hopens : opensMarkup none cs = .ok true)
    (hconstruct : construct none cs = .ok .startTag)
    (h : scanStartTag mode none cs = .ok (ls, rest)) (rest' : List Char) :
    ∃ tag : Tag, IsTagName tag.name ∧ ls = tag.lexemes ∧
      scanStartTag mode none (rawText ls ++ rest') = .ok (ls, rest') := by
  cases mode with
  | strict =>
    obtain ⟨tag, htag, rfl⟩ := scanStartTag_strict hopens hconstruct h
    exact ⟨tag, htag.name, rfl, scanStartTag_lexemes htag rest'⟩
  | tolerant =>
    obtain ⟨tag, htag, rfl⟩ := exists_of_scanStartTag hopens hconstruct h
    exact ⟨tag, htag.name, rfl,
      (scanStartTag_tolerant_iff htag.name rest').mpr (htag.stops.of_rest rest')⟩

/-- Markup in a block is read again whatever comes behind it. -/
theorem scanMarkup_again (hopens : opensMarkup none cs = .ok true)
    (h : scanMarkup mode none true cs = .ok (ls, rest)) (rest' : List Char) :
    opensMarkup none (rawText ls ++ rest') = .ok true ∧
      scanMarkup mode none true (rawText ls ++ rest') = .ok (ls, rest') := by
  have happ := scanMarkup_append h
  -- What has a bracket at its end is known by its first characters.
  have hclosed {k : Construct} {l : Lexeme} (hl : ls = [l]) (hconstruct : construct none cs = .ok k)
      (hmark : '>' ∈ l.raw) (hlength : 3 ≤ l.raw.length) :
      opensMarkup none (l.raw ++ rest') = .ok true ∧ construct none (l.raw ++ rest') = .ok k := by
    have hraw : cs = l.raw ++ rest := by rw [← happ, hl]; simp
    rw [hraw] at hopens hconstruct
    rw [opensMarkup_append hmark hlength] at hopens ⊢
    rw [construct_append hmark] at hconstruct ⊢
    exact ⟨hopens, hconstruct⟩
  cases scans_of_scanMarkup h with
  | blockStart _ hblock => cases hblock
  | @delimited k start stop cause kind l _ hk hconstruct hscan =>
    have hstart := hk.isPrefix hconstruct
    obtain ⟨hmark, hlength⟩ := bracket_of_scanDelimited hk hstart hscan
    obtain ⟨hopens', hconstruct'⟩ := hclosed rfl hconstruct hmark hlength
    rw [rawText_cons, rawText_nil, List.append_nil]
    refine ⟨hopens', ?_⟩
    rw [scanMarkup_of_delimits hk mode true hconstruct', scanDelimited_append_raw hstart hscan]
    rfl
  | @endTag l _ hconstruct hscan =>
    obtain ⟨hagain, hmark, hlength⟩ := scanEndTag_again hconstruct hscan rest'
    obtain ⟨hopens', hconstruct'⟩ := hclosed rfl hconstruct hmark hlength
    rw [rawText_cons, rawText_nil, List.append_nil]
    refine ⟨hopens', ?_⟩
    rw [scanMarkup, hconstruct', hagain]
    rfl
  | startTag hconstruct hscan =>
    obtain ⟨tag, hname, rfl, hagain⟩ := scanStartTag_again hopens hconstruct hscan rest'
    obtain ⟨hopens', hconstruct'⟩ := opens_tag hname rest'
    refine ⟨hopens', ?_⟩
    rw [scanMarkup, hconstruct']
    exact hagain

/-! ## Text in front of a closing mark -/

/-- Whether text ends in front of the closing mark of a block has nothing to do with what comes
behind the mark. -/
theorem endsText_mark (front back back' : List Char) :
    endsText none true (front ++ (Mark.blockEnd ++ back)) =
    endsText none true (front ++ (Mark.blockEnd ++ back')) := by
  have hmark : '>' ∈ front ++ Mark.blockEnd := List.mem_append_right _ (by decide)
  have hlength : Mark.blockEnd.length ≤ (front ++ Mark.blockEnd).length := by
    rw [List.length_append]
    exact Nat.le_add_left _ _
  have hthree : 3 ≤ (front ++ Mark.blockEnd).length := le_trans (by decide) hlength
  rw [← List.append_assoc, ← List.append_assoc]
  refine endsText_congr ?_ ?_
  · rw [opensMarkup_append hmark hthree, opensMarkup_append hmark hthree]
  · rw [Source.prefix_append_of_length hlength, Source.prefix_append_of_length hlength]

theorem textRun_mark {text front back : List Char}
    (h : textRun none true (text ++ (front ++ (Mark.blockEnd ++ back))) =
      .ok (text, front ++ (Mark.blockEnd ++ back))) (back' : List Char) :
    textRun none true (text ++ (front ++ (Mark.blockEnd ++ back'))) =
      .ok (text, front ++ (Mark.blockEnd ++ back')) := by
  induction text with
  | nil =>
    obtain hnil | hends := ends_of_textRun h
    · simp [Mark.blockEnd] at hnil
    · rw [endsText_mark front back back'] at hends
      obtain ⟨c, cs, hcs⟩ : ∃ c cs, front ++ (Mark.blockEnd ++ back') = c :: cs :=
        List.exists_cons_of_ne_nil (by simp [Mark.blockEnd])
      rw [hcs] at hends
      rw [List.nil_append, hcs, textRun_of_ends hends]
  | cons c text ih =>
    obtain ⟨ds, hds, hends, hrun⟩ := textRun_eq_cons h
    obtain rfl : text ++ (front ++ (Mark.blockEnd ++ back)) = ds := by simpa using hds
    have hagain : endsText none true (c :: (text ++ (front ++ (Mark.blockEnd ++ back')))) =
        .ok false := by
      have hsame := endsText_mark (c :: text ++ front) back back'
      simp only [List.append_assoc, List.cons_append] at hsame
      rw [← hsame, hends]
    rw [List.cons_append, textRun_cons hagain, ih hrun]
    rfl

theorem closesRawText_none (close cs : List Char) : closesRawText none close cs =
    .ok ((Text.fold close).isPrefixOf (Text.fold cs) &&
      cs[close.length]?.all fun c => c == '>' || c == '/' || Text.isBlank c) := by
  simp only [closesRawText, Source.lookingAtIgnoringCase_none, Source.peek_none, bind, Except.bind,
    pure, Except.pure]
  cases (Text.fold close).isPrefixOf (Text.fold cs) <;> cases cs[close.length]? <;> rfl

/-- The end tag of an element with raw text has no star in its name, so the mark is no part of
it. -/
theorem closesRawText_mark {name : String} (hname : isRawText name = true)
    (front back back' : List Char) :
    closesRawText none (Mark.endTagStart ++ name.toList) (front ++ (Mark.blockEnd ++ back)) =
      closesRawText none (Mark.endTagStart ++ name.toList)
        (front ++ (Mark.blockEnd ++ back')) := by
  have hstar : '*' ∉ Text.fold (Mark.endTagStart ++ name.toList) := by
    have hnames : Text.fold name.toList ∈ rawTextNames.map fun n => Text.fold n.toList := by
      simpa [isRawText, rawTextNames] using hname
    rw [fold_append]
    revert hnames
    generalize Text.fold name.toList = folded
    revert folded
    decide
  have htext (back : List Char) : front ++ (Mark.blockEnd ++ back) =
      front ++ ['/', '*'] ++ (['/', '-', '-', '>'] ++ back) := by
    simp [Mark.blockEnd]
  have hbegins (back : List Char) :
      Text.fold (Mark.endTagStart ++ name.toList) <+:
          Text.fold (front ++ (Mark.blockEnd ++ back)) ↔
        Text.fold (Mark.endTagStart ++ name.toList) <+: Text.fold (front ++ ['/', '*']) := by
    rw [htext, fold_append (front ++ _)]
    refine Source.prefix_append_of_mem (c := '*') ?_ hstar _
    rw [fold_append]
    exact List.mem_append_right _ (by decide)
  rw [closesRawText_none, closesRawText_none,
    Source.isPrefixOf_congr ((hbegins back).trans (hbegins back').symm)]
  cases hcloses : (Text.fold (Mark.endTagStart ++ name.toList)).isPrefixOf
      (Text.fold (front ++ (Mark.blockEnd ++ back'))) with
  | false => rfl
  | true =>
    have hlength := ((hbegins back').mp (List.isPrefixOf_iff_prefix.mp hcloses)).length_le
    simp only [Text.fold, List.length_map] at hlength
    have hnext (back : List Char) :
        (front ++ (Mark.blockEnd ++ back))[(Mark.endTagStart ++ name.toList).length]? =
          (front ++ Mark.blockEnd)[(Mark.endTagStart ++ name.toList).length]? := by
      rw [← List.append_assoc]
      refine List.getElem?_append_left (lt_of_le_of_lt hlength ?_)
      simp [Mark.blockEnd]
    rw [hnext, hnext]

theorem rawTextRun_cons {close cs : List Char} {c : Char}
    (h : closesRawText none close (c :: cs) = .ok false) :
    rawTextRun none close (c :: cs) =
      (rawTextRun none close cs).map fun run => (c :: run.1, run.2) := by
  simp only [rawTextRun, h, bind, Except.bind, pure, Except.pure]
  cases rawTextRun none close cs <;> rfl

/-- The first character of a body that is read does not end it. -/
theorem rawTextRun_eq_cons {close cs rest text : List Char} {c : Char}
    (h : rawTextRun none close cs = .ok (c :: text, rest)) :
    ∃ ds, cs = c :: ds ∧ closesRawText none close (c :: ds) = .ok false ∧
      rawTextRun none close ds = .ok (text, rest) := by
  cases cs with
  | nil => simp [rawTextRun] at h
  | cons d ds =>
    cases hcloses : closesRawText none close (d :: ds) with
    | error f => simp [rawTextRun, hcloses, bind, Except.bind] at h
    | ok closes =>
      cases closes with
      | true => simp [rawTextRun, hcloses, bind, Except.bind, pure, Except.pure] at h
      | false =>
        rw [rawTextRun_cons hcloses] at h
        cases hrun : rawTextRun none close ds with
        | error f => simp [hrun, Except.map] at h
        | ok run =>
          simp only [hrun, Except.map, Except.ok.injEq, Prod.mk.injEq, List.cons.injEq] at h
          obtain ⟨⟨rfl, rfl⟩, rfl⟩ := h
          exact ⟨ds, rfl, hcloses, hrun⟩

/-- The body of an element with raw text is read again up to where it ended. -/
theorem rawTextRun_mark {name : String} (hname : isRawText name = true)
    {text front back : List Char} (h : rawTextRun none (Mark.endTagStart ++ name.toList)
        (text ++ (front ++ (Mark.blockEnd ++ back))) =
      .ok (text, front ++ (Mark.blockEnd ++ back))) (back' : List Char) :
    rawTextRun none (Mark.endTagStart ++ name.toList)
        (text ++ (front ++ (Mark.blockEnd ++ back'))) =
      .ok (text, front ++ (Mark.blockEnd ++ back')) := by
  have hcons (back : List Char) : ∃ c cs, front ++ (Mark.blockEnd ++ back) = c :: cs :=
    List.exists_cons_of_ne_nil (by simp [Mark.blockEnd])
  induction text with
  | nil =>
    obtain ⟨c, cs, hcs⟩ := hcons back
    have hcloses := (closes_of_rawTextRun h).resolve_left (by simp [Mark.blockEnd])
    rw [closesRawText_mark hname front back back'] at hcloses
    obtain ⟨d, ds, hds⟩ := hcons back'
    rw [hds] at hcloses
    rw [List.nil_append, hds]
    simp [rawTextRun, hcloses, bind, Except.bind, pure, Except.pure]
  | cons c text ih =>
    obtain ⟨ds, hds, hcloses, hrun⟩ := rawTextRun_eq_cons h
    obtain rfl : text ++ (front ++ (Mark.blockEnd ++ back)) = ds := by simpa using hds
    have hagain : closesRawText none (Mark.endTagStart ++ name.toList)
        (c :: (text ++ (front ++ (Mark.blockEnd ++ back')))) = .ok false := by
      have hsame := closesRawText_mark hname (c :: text ++ front) back back'
      simp only [List.append_assoc, List.cons_append] at hsame
      rw [← hsame]
      exact hcloses
    rw [List.cons_append, rawTextRun_cons hagain, ih hrun]
    rfl

/-- What is read in a block in front of the closing mark is read again whatever comes behind the
mark. -/
theorem scanUnit_mark {front back : List Char}
    (hopen : ∀ l ∈ ls, l.kind.isBlockMark = false)
    (h : scanUnit mode none true (rawText ls ++ (front ++ (Mark.blockEnd ++ back))) =
      .ok (ls, front ++ (Mark.blockEnd ++ back))) (back' : List Char) :
    scanUnit mode none true (rawText ls ++ (front ++ (Mark.blockEnd ++ back'))) =
      .ok (ls, front ++ (Mark.blockEnd ++ back')) := by
  obtain ⟨-, rfl⟩ | ⟨hopens, hscan⟩ | ⟨text, hne, rfl, hrun⟩ :=
    cases_of_scan (by simp [Mark.blockEnd]) h
  · simp [TokenKind.isBlockMark] at hopen
  · obtain ⟨hopens', hscan'⟩ :=
      scanMarkup_again hopens hscan (front ++ (Mark.blockEnd ++ back'))
    rw [scanUnit_of_opens true hopens', hscan']
  · rw [rawText_cons, rawText_nil, List.append_nil] at hrun ⊢
    exact scanUnit_of_textRun mode hne (textRun_mark hrun back')

/-- In a block the closing mark is the only mark of a block that is read. -/
theorem isBlockMark_of_scanUnit (hcs : cs ≠ [])
    (h : scanUnit mode none true cs = .ok (ls, rest)) :
    ls = [⟨.blockEnd, Mark.blockEnd⟩] ∨ ∀ l ∈ ls, l.kind.isBlockMark = false := by
  obtain ⟨-, rfl⟩ | ⟨hopens, hscan⟩ | ⟨text, -, rfl, -⟩ := cases_of_scan hcs h
  · exact .inl rfl
  · refine .inr ?_
    cases scans_of_scanMarkup hscan with
    | blockStart _ hblock => cases hblock
    | delimited hk _ hscan =>
      obtain ⟨content, hl⟩ := kind_of_scanDelimited hscan
      cases hk <;> simp [hl, TokenKind.isBlockMark]
    | endTag _ hscan =>
      obtain ⟨name, hl⟩ := kind_of_scanEndTag hscan
      simp [hl, TokenKind.isBlockMark]
    | startTag hconstruct hscan =>
      obtain ⟨tag, -, rfl⟩ := exists_of_scanStartTag hopens hconstruct hscan
      intro l hl
      have hpart := isTagPart_lexemes hl
      cases hkind : l.kind <;> simp_all [TokenKind.isTagPart, TokenKind.isBlockMark]
  · exact .inr (by simp [ofText, TokenKind.isBlockMark])

/-- Text as lexemes: one, or none if the text is empty. -/
def ofRun (text : List Char) : List Lexeme := if text = [] then [] else [ofText text]

@[simp]
theorem rawText_ofRun (text : List Char) : rawText (ofRun text) = text := by
  unfold ofRun
  split
  · next hempty => exact hempty.symm
  · simp [ofText]

theorem isBlockMark_ofRun {text : List Char} {l : Lexeme} (h : l ∈ ofRun text) :
    l.kind.isBlockMark = false := by
  unfold ofRun at h
  split at h
  · cases h
  · rw [List.mem_singleton.mp h]
    rfl

end Lexeme

/-! ## Blocks -/

/-- Whether a text is read as some lexemes in a block, up to where the closing mark follows it with
more text behind; `body` is the element whose raw text comes first, if there is one. -/
inductive Covers (mode : Mode) (back : List Char) : Option String → List Char → List Lexeme → Prop
  | nil : Covers mode back none [] []
  | body {name : String} {text front : List Char} {ls : List Lexeme}
      (hname : isRawText name = true)
      (hrun : rawTextRun none (Mark.endTagStart ++ name.toList)
        (text ++ (front ++ (Mark.blockEnd ++ back))) = .ok (text, front ++ (Mark.blockEnd ++ back)))
      (h : Covers mode back none front ls) :
      Covers mode back (some name) (text ++ front) (ofRun text ++ ls)
  | unit {front : List Char} {ls ms : List Lexeme}
      (hopen : ∀ l ∈ ls, l.kind.isBlockMark = false)
      (hscan : scanUnit mode none true (rawText ls ++ (front ++ (Mark.blockEnd ++ back))) =
        .ok (ls, front ++ (Mark.blockEnd ++ back)))
      (h : Covers mode back (rawTextAfter mode ls) front ms) :
      Covers mode back none (rawText ls ++ front) (ls ++ ms)

namespace Covers

variable {mode : Mode} {back front : List Char} {body : Option String} {ls : List Lexeme}

/-- What comes behind the mark does not matter. -/
theorem exchange (h : Covers mode back body front ls) (back' : List Char) :
    Covers mode back' body front ls := by
  induction h with
  | nil => exact .nil
  | body hname hrun _ ih => exact .body hname (rawTextRun_mark hname hrun back') ih
  | unit hopen hscan _ ih => exact .unit hopen (scanUnit_mark hopen hscan back') ih

theorem rawText_eq (h : Covers mode back body front ls) : rawText ls = front := by
  induction h with
  | nil => rfl
  | body _ _ _ ih => rw [rawText_append, rawText_ofRun, ih]
  | unit _ _ _ ih => rw [rawText_append, ih]

theorem isBlockMark (h : Covers mode back body front ls) :
    ∀ l ∈ ls, l.kind.isBlockMark = false := by
  induction h with
  | nil => simp
  | body _ _ _ ih =>
    intro l hl
    exact (List.mem_append.mp hl).elim isBlockMark_ofRun (ih l)
  | unit hopen _ _ ih =>
    intro l hl
    exact (List.mem_append.mp hl).elim (hopen l) (ih l)

end Covers

/-- Tokens that are no marks of blocks come before the next closing mark. -/
theorem Token.exists_of_append_eq {us ts inside after : List Token} {e : Token}
    (hus : ∀ t ∈ us, t.kind.isBlockMark = false) (he : e.kind = .blockEnd)
    (h : us ++ ts = inside ++ e :: after) :
    ∃ more, inside = us ++ more ∧ ts = more ++ e :: after := by
  obtain ⟨more, hinside, hts⟩ | ⟨more, hus', hts⟩ := List.append_eq_append_iff.mp h
  · exact ⟨more, hinside, hts⟩
  · cases more with
    | nil => exact ⟨[], by simpa using hus'.symm, hts.symm⟩
    | cons u more =>
      obtain ⟨rfl, -⟩ := List.cons.inj hts
      have hmark := hus e (by simp [hus'])
      rw [he] at hmark
      cases hmark

namespace Tokens

variable {mode : Mode} {back front : List Char} {body : Option String} {ls : List Lexeme}

theorem read_body (mode : Mode) {failure : Option ReadFailure} (p : Position)
    (block : Option Location) {name : String} {cs text rest : List Char}
    (hrun : rawTextRun failure (Mark.endTagStart ++ name.toList) cs = .ok (text, rest)) :
    read mode failure p block (some name) cs =
      (read mode failure (p.advanceBy text) block none rest).prepend
        (locate p (ofRun text)) := by
  rw [read]
  split
  · next hfailed => cases hrun.symm.trans hfailed
  · next hread =>
    cases hrun.symm.trans hread
    cases text <;> rfl

theorem blockAfter_of_forall (block : Option Location) (l : Location)
    (h : ∀ l ∈ ls, l.kind.isBlockMark = false) : blockAfter block l ls = block := by
  cases ls with
  | nil => rfl
  | cons m ms =>
    have hm := h m List.mem_cons_self
    unfold blockAfter
    split <;> simp_all [TokenKind.isBlockMark]

/-- A text that is read in a block up to the closing mark ends the block there. -/
theorem read_of_covers (h : Covers mode back body front ls) (p : Position) (start : Location) :
    read mode none p (some start) body (front ++ (Mark.blockEnd ++ back)) =
      (read mode none (p.advanceBy (front ++ Mark.blockEnd)) none none back).prepend
        (locate p (ls ++ [⟨.blockEnd, Mark.blockEnd⟩])) := by
  induction h generalizing p with
  | nil => simpa using read_blockEnd back
  | @body name text front ls hname hrun h ih =>
    rw [List.append_assoc, read_body mode p (some start) hrun, ih]
    simp only [prepend_prepend, locate_append, rawText_ofRun, List.append_assoc,
      Position.advanceBy_append]
  | @unit front ls ms hopen hscan h ih =>
    have hne : rawText ls ++ (front ++ (Mark.blockEnd ++ back)) ≠ [] := by simp [Mark.blockEnd]
    have hscan' : scanUnit mode none (some start).isSome _ = _ := hscan
    rw [List.append_assoc, read_next hne hscan', blockAfter_of_forall _ _ hopen, ih]
    simp only [prepend_prepend, locate_append, List.append_assoc, Position.advanceBy_append]

/-- A block that ends with a closing mark was read up to there. -/
theorem covers_of_read {p : Position} {block : Option Location} {cs : List Char}
    {inside after : List Token} {e : Token} (hblock : block.isSome = true)
    (hbody : ∀ name ∈ body, isRawText name = true)
    (hopen : ∀ t ∈ inside, t.kind.isBlockMark = false) (he : e.kind = .blockEnd)
    (h : (read mode none p block body cs).tokens = inside ++ e :: after)
    (hcs : cs = (Token.rawText inside).toList ++ (Mark.blockEnd ++ back)) :
    ∃ ls, Covers mode back body (Token.rawText inside).toList ls := by
  fun_induction read mode none p block body cs generalizing inside with
  | case1 | case4 | case5 | case7 => simp at h
  | case2 p block cs name text rest hrun after hempty =>
    rename_i ih
    obtain rfl : text = [] := by simpa using hempty
    obtain rfl : rest = cs := rawTextRun_append hrun
    obtain ⟨ls, hcovers⟩ := ih hblock (by simp) hopen h hcs
    rw [hcs] at hrun
    have hbodied : Covers mode back (some name) ([] ++ (Token.rawText inside).toList)
        (ofRun [] ++ ls) := .body (hbody name rfl) hrun hcovers
    exact ⟨_, hbodied⟩
  | case3 p block cs name text rest hrun after' hempty =>
    rename_i ih
    have h : Token.text (String.ofList text) p.location :: after'.tokens =
      inside ++ e :: after := h
    cases inside with
    | nil =>
      obtain ⟨rfl, -⟩ := List.cons.inj h
      cases he
    | cons u inside =>
      obtain ⟨rfl, hrest⟩ := List.cons.inj h
      have happ := rawTextRun_append hrun
      have hraw : (Token.rawText (Token.text (String.ofList text) p.location :: inside)).toList =
          text ++ (Token.rawText inside).toList := by
        simp [Token.text]
      rw [hraw, List.append_assoc] at hcs
      rw [hcs, List.append_cancel_left_eq] at happ
      obtain ⟨ls, hcovers⟩ := ih hblock (by simp) (List.forall_mem_cons.mp hopen).2 hrest happ
      rw [hcs, happ] at hrun
      rw [hraw]
      exact ⟨_, .body (hbody name rfl) hrun hcovers⟩
  | case6 p => cases hblock
  | case8 p block c cs ls rest hscan =>
    rename_i ih
    rw [hblock] at hscan
    obtain rfl | hmarks := isBlockMark_of_scanUnit (List.cons_ne_nil c cs) hscan
    · cases inside with
      | nil => exact ⟨[], .nil⟩
      | cons u inside =>
        obtain ⟨rfl, -⟩ := List.cons.inj h
        cases (List.forall_mem_cons.mp hopen).1
    · obtain ⟨more, rfl, hmore⟩ := Token.exists_of_append_eq
        (forall_kind_locate (q := fun k => k.isBlockMark = false) hmarks p) he h
      have hraw : (Token.rawText (locate p ls ++ more)).toList =
          rawText ls ++ (Token.rawText more).toList := by
        simp
      have happ := scanUnit_append hscan
      rw [hraw, List.append_assoc] at hcs
      rw [hcs, List.append_cancel_left_eq] at happ
      rw [blockAfter_of_forall _ _ hmarks] at hmore ih
      obtain ⟨ms, hcovers⟩ := ih hblock isRawText_of_rawTextAfter
        (fun t ht => hopen t (List.mem_append_right _ ht)) hmore happ
      rw [hcs, happ] at hscan
      rw [hraw]
      exact ⟨_, .unit hmarks hscan hcovers⟩

/-- A block that is open where reading begins is closed if reading comes to the end. -/
theorem exists_blockEnd {p : Position} {block : Option Location} {cs : List Char}
    (hblock : block.isSome = true) (h : (read mode none p block body cs).error = none) :
    ∃ inside e after back, (read mode none p block body cs).tokens = inside ++ e :: after ∧
      (∀ t ∈ inside, t.kind.isBlockMark = false) ∧ e.kind = .blockEnd ∧
      cs = (Token.rawText inside).toList ++ (Mark.blockEnd ++ back) := by
  fun_induction read mode none p block body cs with
  | case1 | case4 | case7 => cases h
  | case2 p block cs name text rest hrun after hempty =>
    rename_i ih
    obtain rfl : text = [] := by simpa using hempty
    rw [← rawTextRun_append hrun]
    exact ih hblock h
  | case3 p block cs name text rest hrun after hempty =>
    rename_i ih
    obtain ⟨inside, e, after, back, hread, hopen, he, hcs⟩ := ih hblock h
    refine ⟨.text (String.ofList text) p.location :: inside, e, after, back, ?_,
      List.forall_mem_cons.mpr ⟨rfl, hopen⟩, he, ?_⟩
    · rw [prepend, hread]
      rfl
    · rw [← rawTextRun_append hrun, hcs]
      simp [Token.text]
  | case5 p start => cases h
  | case6 p => cases hblock
  | case8 p block c cs ls rest hscan =>
    rename_i ih
    rw [hblock] at hscan
    rw [← scanUnit_append hscan]
    obtain rfl | hmarks := isBlockMark_of_scanUnit (List.cons_ne_nil c cs) hscan
    · exact ⟨[], _, _, rest, rfl, by simp, rfl, by simp⟩
    · have herror : (read mode none (p.advanceBy (rawText ls)) (blockAfter block p.location ls)
          (rawTextAfter mode ls) rest).error = none := h
      rw [blockAfter_of_forall _ _ hmarks] at ih herror
      obtain ⟨inside, e, after, back, hread, hopen, he, hcs⟩ := ih hblock herror
      refine ⟨locate p ls ++ inside, e, after, back, ?_, fun t ht => ?_, he, ?_⟩
      · rw [prepend, blockAfter_of_forall _ _ hmarks, hread, List.append_assoc]
      · exact (List.mem_append.mp ht).elim
          (forall_kind_locate (q := fun k => k.isBlockMark = false) hmarks p t) (hopen t)
      · rw [hcs]
        simp

/-- A text with its closing mark is covered if it can be read in a block. -/
theorem covers_of_error {p : Position} {start : Location}
    (hfirst : EndsFirst front Mark.blockEnd back)
    (h : (read mode none p (some start) none (front ++ Mark.blockEnd)).error = none) :
    ∃ ls, Covers mode back none front ls := by
  obtain ⟨inside, e, after, more, hread, hopen, he, hcs⟩ := exists_blockEnd rfl h
  obtain ⟨ls, hcovers⟩ := covers_of_read rfl (by simp) hopen he hread hcs
  have hle : front.length ≤ (Token.rawText inside).toList.length := by
    refine hfirst _ (more ++ back) ?_
    rw [hcs]
    simp
  have hlength := congrArg List.length hcs
  simp only [List.length_append] at hlength
  obtain ⟨hfront, -⟩ := List.append_inj hcs (by omega)
  rw [hfront]
  exact ⟨ls, hcovers.exchange back⟩

end Tokens

/-- The block that begins a source is read from behind its mark. -/
theorem error_tokenize_block (mode : Mode) (cs : List Char) :
    (tokenize mode (.ofString (String.ofList (Mark.blockStart ++ cs)))).error =
      (Tokens.read mode none (Position.start.advanceBy Mark.blockStart) (some .start) none
        cs).error := by
  have hscan : scanUnit mode none false (Mark.blockStart ++ cs) =
      .ok ([⟨.blockStart, Mark.blockStart⟩], cs) := by
    have hopens : opensMarkup none (Mark.blockStart ++ cs) = .ok true := by
      rw [opensMarkup_none]
      simp [Mark.blockStart, Mark.commentStart]
    have hconstruct : construct none (Mark.blockStart ++ cs) = .ok .block := by
      rw [construct_none]
      simp
    rw [scanUnit_of_opens false hopens, scanMarkup, hconstruct]
    simp
  have hread : tokenize mode (.ofString (String.ofList (Mark.blockStart ++ cs))) =
      (Tokens.read mode none .start none none (Mark.blockStart ++ cs)).prepend
        [⟨.documentStart, "", .start⟩] := by
    simp [tokenize, Source.ofString]
  rw [hread, Tokens.read_next (by simp [Mark.blockStart]) hscan, rawTextAfter_singleton]
  rfl

section
variable {mode : Mode} {s : Source} {before after : List Token} {b : Token}

/-- What is behind the mark of a block was read inside the block. -/
theorem exists_read_of_blockStart (htokens : (tokenize mode s).tokens = before ++ b :: after)
    (hb : b.kind = .blockStart) :
    ∃ p cs, s.chars = (Token.rawText before).toList ++ (Mark.blockStart ++ cs) ∧
      b.location = .after (Token.rawText before) ∧
      (⟨after, (tokenize mode s).error⟩ : Tokens) =
        Tokens.read mode s.failure p (some b.location) none cs := by
  cases before with
  | nil =>
    obtain ⟨rfl, -⟩ := List.cons.inj htokens
    cases hb
  | cons d before =>
    obtain ⟨rfl, hread⟩ := List.cons.inj htokens
    cases Tokens.wasRead_of_read (by rw [Token.isText, hb]) (by rw [hb]; rfl) (by simp [hb]) hread
    with
    | @intro l here rest hchars hhere hscan htoken hafter =>
      have hl : l.kind = .blockStart := by rw [← hb, htoken]
      have hraw : l.raw = Mark.blockStart := by
        have hspelled := (isUnit_of_scanUnit hscan).1 l List.mem_cons_self "<!--/*/"
          (by rw [hl]; rfl)
        rw [← String.toList_ofList (l := l.raw), hspelled]
        rfl
      have hopen : Token.openBlock none (before ++ [b]) = some b.location := by
        rw [Token.openBlock_append, Token.openBlock, List.foldl_cons, hb]
        rfl
      have happ := scanUnit_append hscan
      rw [rawText_cons, rawText_nil, List.append_nil, hraw] at happ
      refine ⟨_, rest, ?_, ?_, hopen ▸ hafter⟩
      · simpa [happ] using hchars
      · rw [htoken, Position.location_advanceBy_start, String.ofList_toList]
        simp

theorem Token.infix_rawText {t : Token} {ts : List Token} (h : t ∈ ts) :
    t.raw.toList <:+: (rawText ts).toList := by
  obtain ⟨front, back, rfl⟩ := List.append_of_mem h
  exact ⟨(rawText front).toList, (rawText back).toList, by simp⟩

/-- Whether the first closing mark of a block among some tokens stands behind a text. -/
def Token.CloseAfter (front : List Char) (ts : List Token) : Prop :=
  ∃ inside e rest, ts = inside ++ e :: rest ∧ (∀ t ∈ inside, t.kind.isBlockMark = false) ∧
    e.kind = .blockEnd ∧ Token.rawText inside = String.ofList front

theorem Token.CloseAfter.mono {front : List Char} {ts us : List Token}
    (h : CloseAfter front ts) (hbegin : ts <+: us) : CloseAfter front us := by
  obtain ⟨inside, e, rest, rfl, hopen, he, hfront⟩ := h
  obtain ⟨more, rfl⟩ := hbegin
  exact ⟨inside, e, rest ++ more, by simp, hopen, he, hfront⟩

/-- The tokens up to the next mark are spelled in front of it. -/
theorem Token.CloseAfter.infix_of_mem {front : List Char} {ts inside : List Token}
    (h : CloseAfter front ts) (hbegin : inside <+: ts)
    (hopen : ∀ t ∈ inside, t.kind.isBlockMark = false) {t : Token} (ht : t ∈ inside) :
    t.raw.toList <:+: front := by
  obtain ⟨us, e, rest, rfl, -, he, hfront⟩ := h
  obtain ⟨others, hothers⟩ := hbegin
  obtain ⟨more, rfl, -⟩ := Token.exists_of_append_eq hopen he hothers
  rw [← String.toList_ofList (l := front), ← hfront]
  exact Token.infix_rawText (List.mem_append_left more ht)

/-- Whether a text can be read by itself between the marks of a block. -/
def ReadsAlone (mode : Mode) (front : List Char) : Prop :=
  (tokenize mode (.ofString
    (String.ofList (Mark.blockStart ++ (front ++ Mark.blockEnd))))).error = none

instance (mode : Mode) (front : List Char) : Decidable (ReadsAlone mode front) :=
  inferInstanceAs (Decidable (_ = none))

theorem readsAlone_of_closeAfter {p : Position} {start : Location} {front back : List Char}
    (h : Token.CloseAfter front (Tokens.read mode none p (some start) none
      (front ++ (Mark.blockEnd ++ back))).tokens) : ReadsAlone mode front := by
  obtain ⟨inside, e, rest, hinside, hopen, he, hfront⟩ := h
  have hraw : (Token.rawText inside).toList = front := by rw [hfront, String.toList_ofList]
  obtain ⟨ls, hcovers⟩ := Tokens.covers_of_read rfl (by simp) hopen he hinside (by rw [hraw])
  rw [hraw] at hcovers
  have hclosed := Tokens.read_of_covers (hcovers.exchange [])
    (Position.start.advanceBy Mark.blockStart) .start
  rw [List.append_nil] at hclosed
  rw [ReadsAlone, error_tokenize_block, hclosed, Tokens.read_nil]
  rfl

theorem closeAfter_of_readsAlone {front back : List Char}
    (hfirst : EndsFirst front Mark.blockEnd back) (h : ReadsAlone mode front) (p : Position)
    (start : Location) : Token.CloseAfter front (Tokens.read mode none p (some start) none
      (front ++ (Mark.blockEnd ++ back))).tokens := by
  rw [ReadsAlone, error_tokenize_block] at h
  obtain ⟨ls, hcovers⟩ := Tokens.covers_of_error hfirst h
  have hclosed := congrArg Tokens.tokens (Tokens.read_of_covers hcovers p start)
  rw [locate_append] at hclosed
  refine ⟨locate p ls, _, _, hclosed.trans (List.append_assoc ..),
    forall_kind_locate (q := fun k => k.isBlockMark = false) hcovers.isBlockMark p, rfl, ?_⟩
  rw [rawText_locate, hcovers.rawText_eq]

/-- Two blocks do not begin at the same place. -/
theorem location_ne_of_later {more back : List Token} {t : Token}
    (htokens : (tokenize mode s).tokens = before ++ b :: (more ++ t :: back))
    (hb : b.kind = .blockStart) (ht : t.kind = .blockStart) : b.location ≠ t.location := by
  have hlater : (tokenize mode s).tokens = (before ++ b :: more) ++ t :: back := by
    rw [htokens, List.append_assoc]
    rfl
  have hraw : b.raw = "<!--/*/" := by
    refine (tokenize_faithful mode s).spelled b ?_ _ (by rw [hb]; rfl)
    rw [htokens]
    simp
  obtain ⟨-, -, -, hplace, -⟩ := exists_read_of_blockStart htokens hb
  obtain ⟨-, -, -, hplace', -⟩ := exists_read_of_blockStart hlater ht
  rw [hplace, hplace']
  intro hsame
  have hoffset := congrArg Location.offset hsame
  simp only [Location.after, Token.rawText_append, Token.rawText_cons, hraw,
    String.utf8ByteSize_append] at hoffset
  have hsize : "<!--/*/".utf8ByteSize = 7 := rfl
  omega

/-- A block that is closed is not the one that is missing its closing mark. -/
theorem error_ne_of_blockEnd (htokens : (tokenize mode s).tokens = before ++ b :: after)
    (hb : b.kind = .blockStart) {e : Token} (hmem : e ∈ after) (he : e.kind = .blockEnd) :
    (tokenize mode s).error ≠ some (.malformed .unterminatedBlock b.location) := by
  intro herror
  have hread : (Tokens.read mode s.failure .start none none s.chars).error =
      some (.malformed .unterminatedBlock b.location) := herror
  cases Tokens.read_breaks hread with
  | construct _ hrest hscan _ =>
    obtain ⟨-, k, -, -, hcause, -⟩ := malformed_of_scanUnit hrest hscan
    cases hcause
  | block _ _ hopen =>
    obtain ⟨front, t, back, hfront, ht, hlocation, hback⟩ := Token.exists_of_openBlock hopen
    have hlast : e ∉ back := fun hin => by
      have hmark := hback e hin
      rw [he] at hmark
      cases hmark
    have hsplit : (tokenize mode s).tokens =
        (⟨.documentStart, "", .start⟩ :: front) ++ t :: back := by
      rw [tokenize, Tokens.prepend, hfront]
      rfl
    have hsame := htokens.symm.trans hsplit
    obtain ⟨more, -, hrest⟩ | ⟨more, -, hrest⟩ := List.append_eq_append_iff.mp hsame
    · cases more with
      | nil =>
        obtain ⟨-, rfl⟩ := List.cons.inj hrest
        exact hlast hmem
      | cons u more =>
        -- The mark that is missing its end would stand further on.
        obtain ⟨rfl, rfl⟩ := List.cons.inj hrest
        exact location_ne_of_later htokens hb ht hlocation.symm
    · cases more with
      | nil =>
        obtain ⟨-, rfl⟩ := List.cons.inj hrest
        exact hlast hmem
      | cons u more =>
        obtain ⟨-, rfl⟩ := List.cons.inj hrest
        exact hlast (by simp [hmem])

end

/-- A block ends with the first closing mark behind its opening mark exactly if its text up to there
can be read by itself, so that nothing in it reaches beyond the mark; only where a source failed,
reading may stop before. Such a block is not missing its end, and no token in it has the mark in its
text. -/
theorem tokenize_block {mode : Mode} {s : Source} {before after : List Token} {b : Token}
    (htokens : (tokenize mode s).tokens = before ++ b :: after) (hb : b.kind = .blockStart)
    {front back : List Char} (hs : s.chars = (Token.rawText before).toList ++
      (Mark.blockStart ++ (front ++ (Mark.blockEnd ++ back))))
    (hfirst : EndsFirst front Mark.blockEnd back) :
    (Token.CloseAfter front after → ReadsAlone mode front) ∧
    (ReadsAlone mode front →
      (Token.CloseAfter front after ∨
        ∃ f, s.failure = some f ∧ (tokenize mode s).error = some (.source f)) ∧
      (tokenize mode s).error ≠ some (.malformed .unterminatedBlock b.location) ∧
      ∀ inside rest, after = inside ++ rest → (∀ t ∈ inside, t.kind.isBlockMark = false) →
        ∀ t ∈ inside, ¬ Mark.blockEnd <:+: t.raw.toList) := by
  obtain ⟨p, cs, hchars, -, hread⟩ := exists_read_of_blockStart htokens hb
  have hcs : cs = front ++ (Mark.blockEnd ++ back) := by
    have hsame := hs.symm.trans hchars
    rw [List.append_cancel_left_eq, List.append_cancel_left_eq] at hsame
    exact hsame.symm
  subst hcs
  obtain ⟨hbegin, hfull⟩ := Tokens.tokens_read mode s.failure p (some b.location) none
    (front ++ (Mark.blockEnd ++ back))
  rw [← hread] at hbegin hfull
  refine ⟨fun hclose => readsAlone_of_closeAfter (hclose.mono hbegin), fun halone => ?_⟩
  have hclose := closeAfter_of_readsAlone hfirst halone p b.location
  have hcloses : Token.CloseAfter front after ∨
      ∃ f, s.failure = some f ∧ (tokenize mode s).error = some (.source f) := by
    obtain hafter | hfailed := hfull
    · rw [show after = _ from hafter]
      exact .inl hclose
    · exact .inr hfailed
  refine ⟨hcloses, ?_, ?_⟩
  · obtain ⟨inside, e, rest, rfl, -, he, -⟩ | ⟨f, -, herror⟩ := hcloses
    · exact error_ne_of_blockEnd htokens hb (by simp) he
    · simp [herror]
  · rintro inside rest rfl hopen t ht hmark
    have hinside := hclose.infix_of_mem ((List.prefix_append inside rest).trans hbegin) hopen ht
    exact hfirst.not_infix (by decide) (hmark.trans hinside)

/-- An element in a block does not reach beyond the mark. -/
theorem tokenize_block_element :
    let s : Source := .ofString "<!--/*/<b>c</b>/*/-->d"
    let b : Token := ⟨.blockStart, "<!--/*/", .start⟩
    ∃ after, (tokenize .strict s).tokens = [⟨.documentStart, "", .start⟩] ++ b :: after ∧
      EndsFirst "<b>c</b>".toList Mark.blockEnd "d".toList ∧
      ReadsAlone .strict "<b>c</b>".toList ∧ Token.CloseAfter "<b>c</b>".toList after := by
  intro s b
  have htokens : (tokenize .strict s).tokens =
      [⟨.documentStart, "", .start⟩] ++ b :: (tokenize .strict s).tokens.drop 2 := by
    decide +kernel
  have hfirst : EndsFirst "<b>c</b>".toList Mark.blockEnd "d".toList := by decide
  have halone : ReadsAlone .strict "<b>c</b>".toList := by decide +kernel
  obtain ⟨-, hcloses⟩ := tokenize_block htokens rfl rfl hfirst
  obtain ⟨hclose | ⟨f, hfailure, -⟩, -, -⟩ := hcloses halone
  · exact ⟨_, htokens, hfirst, halone, hclose⟩
  · cases hfailure

/-- The body of a script does: its text takes in the mark, and the block is said to have no end. -/
theorem tokenize_block_script :
    let s : Source := .ofString "<!--/*/<script>a/*/-->"
    let b : Token := ⟨.blockStart, "<!--/*/", .start⟩
    s.chars = Mark.blockStart ++ ("<script>a".toList ++ (Mark.blockEnd ++ [])) ∧
      EndsFirst "<script>a".toList Mark.blockEnd [] ∧
      (tokenize .tolerant s).error = some (.malformed .unterminatedBlock b.location) ∧
      ∃ after, (tokenize .tolerant s).tokens = [⟨.documentStart, "", .start⟩] ++ b :: after ∧
        (∀ t ∈ after, t.kind ≠ .blockEnd) ∧ ∃ t ∈ after, Mark.blockEnd <:+: t.raw.toList := by
  intro s b
  refine ⟨rfl, by decide, by decide +kernel, (tokenize .tolerant s).tokens.drop 2, ?_, ?_, ?_⟩
  · decide +kernel
  · decide +kernel
  · decide +kernel

end NaturalTemplate.Markup
