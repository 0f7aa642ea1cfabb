import NaturalTemplate.Proofs.Markup.Tags

/-!
# Strict constructs

What strict reading takes for one construct it takes for the same construct wherever its text
stands, as it knows the construct by its marks and ends it with a bracket. Text alone is ended by
what comes behind it.
-/
namespace NaturalTemplate.Markup

/-- Comments and what else becomes one node that is no element. -/
def TokenKind.isLeaf : TokenKind → Bool
  | .comment .. | .cdata _ | .docType _ | .instruction _ => true
  | _ => false

namespace Lexeme

/-- Whether lexemes are read from their text whatever comes behind it, in a block and outside. -/
structure Closed (ls : List Lexeme) : Prop where
  opens : ∀ rest, opensMarkup none (rawText ls ++ rest) = .ok true
  scan : ∀ inBlock rest, scanMarkup .strict none inBlock (rawText ls ++ rest) = .ok (ls, rest)

theorem scanUnit_of_opens {mode : Mode} {cs : List Char} (inBlock : Bool)
    (h : opensMarkup none cs = .ok true) :
    scanUnit mode none inBlock cs = scanMarkup mode none inBlock cs := by
  obtain ⟨ds, rfl⟩ := opensMarkup_mark h
  have hmark : Mark.blockEnd.isPrefixOf (['<'] ++ ds) = false := rfl
  cases inBlock <;> simp only [scanUnit, Source.lookingAt_none, hmark, h, if_true, if_false,
    Bool.false_eq_true]

theorem Closed.scanUnit {ls : List Lexeme} (h : Closed ls) (inBlock : Bool) (rest : List Char) :
    scanUnit .strict none inBlock (rawText ls ++ rest) = .ok (ls, rest) := by
  rw [scanUnit_of_opens inBlock (h.opens rest), h.scan]

/-! ## Tags -/

theorem ne_mark_of_isAlphabetic {c : Char} (h : Text.isAlphabetic c = true) :
    c ≠ '!' ∧ c ≠ '?' ∧ c ≠ '/' := by
  have hmark : ∀ d ∈ ['!', '?', '/'], Text.isAlphabetic d = false :=
    Text.forall_of_all (by decide +kernel)
  have hne : ∀ d ∈ ['!', '?', '/'], c ≠ d := by
    rintro d hd rfl
    rw [hmark c hd] at h
    contradiction
  simpa using hne

theorem construct_startTag {c : Char} (h : Text.isAlphabetic c = true) (cs : List Char) :
    construct none ('<' :: c :: cs) = .ok .startTag := by
  obtain ⟨hbang, hquestion, hslash⟩ := ne_mark_of_isAlphabetic h
  have hfold : '!' ≠ c.toLower := fun heq =>
    hbang (Text.eq_of_toLower_eq (by decide) heq.symm)
  simp [construct_none, Mark.blockStart, Mark.parserCommentStart, Mark.commentStart,
    Mark.cdataStart, Mark.docTypeStart, Mark.instructionStart, Mark.endTagStart, Text.fold,
    hbang.symm, hquestion.symm, hslash.symm, hfold]

theorem construct_endTag (cs : List Char) : construct none ('<' :: '/' :: cs) = .ok .endTag := by
  rw [construct_none]
  rfl

/-- The name of a start tag is enough to know it by. -/
theorem opens_tag {t : Tag} (hname : IsTagName t.name) (rest : List Char) :
    opensMarkup none (rawText t.lexemes ++ rest) = .ok true ∧
      construct none (rawText t.lexemes ++ rest) = .ok .startTag := by
  obtain ⟨c, hc, halpha⟩ := hname.head
  obtain ⟨cs, hcs⟩ := List.head?_eq_some_iff.mp hc
  obtain ⟨ds, hds⟩ : ∃ ds, rawText t.lexemes ++ rest = '<' :: c :: ds := by
    simp [Tag.lexemes, hcs]
  have hmark := ne_mark_of_isAlphabetic halpha
  rw [hds]
  refine ⟨?_, construct_startTag halpha ds⟩
  rw [opensMarkup_none]
  split <;> simp_all

theorem closed_tag {t : Tag} (ht : t.IsStrict) : Closed t.lexemes := by
  refine ⟨fun rest => (opens_tag ht.name rest).1, fun inBlock rest => ?_⟩
  rw [scanMarkup, (opens_tag ht.name rest).2]
  exact scanStartTag_lexemes ht rest

/-- A start tag is read where it begins. -/
theorem scanUnit_tag {mode : Mode} {t : Tag} (hname : IsTagName t.name) (inBlock : Bool)
    (rest : List Char) : scanUnit mode none inBlock (rawText t.lexemes ++ rest) =
      scanStartTag mode none (rawText t.lexemes ++ rest) := by
  obtain ⟨hopens, hconstruct⟩ := opens_tag hname rest
  rw [scanUnit_of_opens inBlock hopens, scanMarkup, hconstruct]

theorem opens_endTag {name : String} (hname : IsTagName name) (space : String)
    (rest : List Char) :
    opensMarkup none (rawText [endTagLexeme name space] ++ rest) = .ok true := by
  obtain ⟨c, hc, halpha⟩ := hname.head
  obtain ⟨cs, hcs⟩ := List.head?_eq_some_iff.mp hc
  simp [endTagLexeme, hcs, opensMarkup_none, halpha]

/-- An end tag is read by either rules. -/
theorem scanMarkup_endTag (mode : Mode) {name space : String} (hname : IsTagName name)
    (hspace : IsSpace space) (inBlock : Bool) (rest : List Char) :
    scanMarkup mode none inBlock (rawText [endTagLexeme name space] ++ rest) =
      .ok ([endTagLexeme name space], rest) := by
  have hscan := scanEndTag_lexeme mode hname hspace rest
  have hconstruct : construct none ((endTagLexeme name space).raw ++ rest) = .ok .endTag :=
    construct_endTag _
  rw [rawText_cons, rawText_nil, List.append_nil, scanMarkup, hconstruct, hscan]
  rfl

theorem closed_endTag {name space : String} (hname : IsTagName name) (hspace : IsSpace space) :
    Closed [endTagLexeme name space] :=
  ⟨opens_endTag hname space, scanMarkup_endTag .strict hname hspace⟩

/-! ## Comments and other leaves -/

theorem opensMarkup_congr {cs ds : List Char} (htake : cs.take 3 = ds.take 3)
    (hcomment : Mark.commentStart <+: cs ↔ Mark.commentStart <+: ds)
    (hcdata : Mark.cdataStart <+: cs ↔ Mark.cdataStart <+: ds)
    (hdocType : Text.fold Mark.docTypeStart <+: Text.fold cs ↔
      Text.fold Mark.docTypeStart <+: Text.fold ds) :
    opensMarkup none cs = opensMarkup none ds := by
  have hget : ∀ i < 3, cs[i]? = ds[i]? := by
    intro i hi
    rw [← List.getElem?_take_of_lt hi, htake, List.getElem?_take_of_lt hi]
  simp only [opensMarkup, Source.peek_none, Source.lookingAt_none,
    Source.lookingAtIgnoringCase_none, hget 0 (by omega), hget 1 (by omega), hget 2 (by omega),
    Source.isPrefixOf_congr hcomment, Source.isPrefixOf_congr hcdata,
    Source.isPrefixOf_congr hdocType]

theorem mem_fold_of_mem {cs : List Char} (h : '>' ∈ cs) : '>' ∈ Text.fold cs :=
  List.mem_map.mpr ⟨'>', h, by decide⟩

theorem fold_append (cs ds : List Char) :
    Text.fold (cs ++ ds) = Text.fold cs ++ Text.fold ds := by
  simp [Text.fold]

/-- Where markup ends with a bracket, it does not matter what comes behind it. -/
theorem opensMarkup_append {raw : List Char} (hmark : '>' ∈ raw) (hlength : 3 ≤ raw.length)
    (rest : List Char) : opensMarkup none (raw ++ rest) = opensMarkup none raw := by
  have hdocType := Source.prefix_append_of_mem (mem_fold_of_mem hmark)
    (by decide : '>' ∉ Text.fold Mark.docTypeStart) (Text.fold rest)
  refine opensMarkup_congr ?_ ?_ ?_ ?_
  · rw [List.take_append_of_le_length hlength]
  · exact Source.prefix_append_of_mem hmark (by decide) rest
  · exact Source.prefix_append_of_mem hmark (by decide) rest
  · rwa [fold_append]

theorem construct_append {raw : List Char} (hmark : '>' ∈ raw) (rest : List Char) :
    construct none (raw ++ rest) = construct none raw := by
  have hsame : ∀ pattern : List Char, '>' ∉ pattern →
      pattern.isPrefixOf (raw ++ rest) = pattern.isPrefixOf raw := fun pattern hpattern =>
    Source.isPrefixOf_congr (Source.prefix_append_of_mem hmark hpattern rest)
  have hdocType : (Text.fold Mark.docTypeStart).isPrefixOf (Text.fold (raw ++ rest)) =
      (Text.fold Mark.docTypeStart).isPrefixOf (Text.fold raw) := by
    rw [fold_append]
    exact Source.isPrefixOf_congr
      (Source.prefix_append_of_mem (mem_fold_of_mem hmark) (by decide) (Text.fold rest))
  simp only [construct_none, hdocType, hsame Mark.blockStart (by decide),
    hsame Mark.parserCommentStart (by decide), hsame Mark.commentStart (by decide),
    hsame Mark.cdataStart (by decide), hsame Mark.instructionStart (by decide),
    hsame Mark.endTagStart (by decide)]

/-- A construct that was read up to its closing mark is read up to it again. -/
theorem scanDelimited_append_raw {start stop cs rest : List Char} {cause : Malformation}
    {kind : String → TokenKind} {l : Lexeme} (hstart : start <+: cs)
    (h : scanDelimited none start stop cause kind cs = .ok (l, rest)) (rest' : List Char) :
    scanDelimited none start stop cause kind (l.raw ++ rest') = .ok (l, rest') := by
  obtain ⟨ds, rfl⟩ := hstart
  unfold scanDelimited at h ⊢
  simp only [Source.readUntil_none, List.drop_left, List.take_left] at h ⊢
  split at h
  · simp at h
  · simp at h
  · next content rest₁ hfind =>
    simp only [Except.ok.injEq, Prod.mk.injEq] at h hfind
    obtain ⟨rfl, rfl⟩ := h
    have hsplit := Text.splitAt?_eq_some hfind
    rw [hsplit, List.append_assoc] at hfind
    have hagain := Text.splitAt?_append hfind rest'
    simp [hagain]

theorem raw_of_scanDelimited {start stop cs rest : List Char} {cause : Malformation}
    {kind : String → TokenKind} {l : Lexeme} (hstart : start <+: cs)
    (h : scanDelimited none start stop cause kind cs = .ok (l, rest)) :
    ∃ content, l = ⟨kind (String.ofList content), start ++ content ++ stop⟩ := by
  obtain ⟨ds, rfl⟩ := hstart
  unfold scanDelimited at h
  simp only [Source.readUntil_none, List.take_left] at h
  split at h
  · simp at h
  · simp at h
  · next content rest' _ =>
    simp only [Except.ok.injEq, Prod.mk.injEq] at h
    exact ⟨content, h.1.symm⟩

theorem bracket_of_scanDelimited {k : Construct} {start stop cs rest : List Char}
    {cause : Malformation} {kind : String → TokenKind} {l : Lexeme}
    (hk : k.Delimits start stop cause kind) (hstart : start <+: cs)
    (h : scanDelimited none start stop cause kind cs = .ok (l, rest)) :
    '>' ∈ l.raw ∧ 3 ≤ l.raw.length := by
  obtain ⟨content, rfl⟩ := raw_of_scanDelimited hstart h
  have hstop : '>' ∈ stop := by cases hk <;> decide
  have hmarks : 3 ≤ start.length + stop.length := by cases hk <;> decide
  refine ⟨List.mem_append_right _ hstop, ?_⟩
  simp only [List.length_append]
  omega

/-- A construct between two marks, of which the second one has a bracket. -/
theorem closed_of_scanDelimited {k : Construct} {start stop cs rest : List Char}
    {cause : Malformation} {kind : String → TokenKind} {l : Lexeme}
    (hk : k.Delimits start stop cause kind) (hopens : opensMarkup none cs = .ok true)
    (hconstruct : construct none cs = .ok k)
    (h : scanDelimited none start stop cause kind cs = .ok (l, rest)) :
    l.kind.isLeaf = true ∧ Closed [l] := by
  have hstart := hk.isPrefix hconstruct
  obtain ⟨hmark, hlength⟩ := bracket_of_scanDelimited hk hstart h
  have hcs := scanDelimited_append h
  refine ⟨?_, fun rest' => ?_, fun inBlock rest' => ?_⟩
  · obtain ⟨content, rfl⟩ := raw_of_scanDelimited hstart h
    cases hk <;> rfl
  · rw [rawText_cons, rawText_nil, List.append_nil, opensMarkup_append hmark hlength,
      ← opensMarkup_append hmark hlength rest, hcs, hopens]
  · have hagain := scanDelimited_append_raw hstart h rest'
    have hconstruct' : construct none (l.raw ++ rest') = .ok k := by
      rw [construct_append hmark, ← construct_append hmark rest, hcs, hconstruct]
    rw [rawText_cons, rawText_nil, List.append_nil,
      scanMarkup_of_delimits hk .strict inBlock hconstruct', hagain]
    rfl

/-! ## All constructs -/

/-- What strict reading can take for one construct other than text and the end of a block. -/
inductive Shape : Bool → List Lexeme → Prop where
  | blockStart : Shape false [⟨.blockStart, Mark.blockStart⟩]
  | tag (inBlock : Bool) {t : Tag} (ht : t.IsStrict) : Shape inBlock t.lexemes
  | endTag (inBlock : Bool) {name space : String} (hname : IsTagName name)
    (hspace : IsSpace space) : Shape inBlock [endTagLexeme name space]
  | leaf (inBlock : Bool) {l : Lexeme} (hkind : l.kind.isLeaf = true) (h : Closed [l]) :
    Shape inBlock [l]

theorem shape_of_scanMarkup {inBlock : Bool} {cs rest : List Char} {ls : List Lexeme}
    (hopens : opensMarkup none cs = .ok true)
    (h : scanMarkup .strict none inBlock cs = .ok (ls, rest)) : Shape inBlock ls := by
  cases scans_of_scanMarkup h with
  | blockStart hconstruct hblock =>
    rw [← List.prefix_iff_eq_take.mp (construct_mark hconstruct), hblock]
    exact .blockStart
  | delimited hk hconstruct hscan =>
    obtain ⟨hkind, hclosed⟩ := closed_of_scanDelimited hk hopens hconstruct hscan
    exact .leaf inBlock hkind hclosed
  | endTag hconstruct hscan =>
    obtain ⟨name, space, hname, hspace, rfl⟩ := scanEndTag_strict hopens hconstruct hscan
    exact .endTag inBlock hname hspace
  | startTag hconstruct hscan =>
    obtain ⟨t, ht, rfl⟩ := scanStartTag_strict hopens hconstruct hscan
    exact .tag inBlock ht

def ofText (cs : List Char) : Lexeme := ⟨.text (String.ofList cs), cs⟩

/-- Whether text does not end here is what is asked before a construct is read. -/
theorem endsText_eq_false_iff {inBlock : Bool} {cs : List Char} :
    endsText none inBlock cs = .ok false ↔
      opensMarkup none cs = .ok false ∧
        (if inBlock then Source.lookingAt none Mark.blockEnd cs else .ok false) = .ok false := by
  unfold endsText
  cases opensMarkup none cs with
  | error f => simp [bind, Except.bind]
  | ok opens => cases opens <;> cases inBlock <;> simp [bind, Except.bind, pure, Except.pure]

theorem textRun_cons {inBlock : Bool} {c : Char} {cs : List Char}
    (h : endsText none inBlock (c :: cs) = .ok false) :
    textRun none inBlock (c :: cs) =
      (textRun none inBlock cs).map fun run => (c :: run.1, run.2) := by
  simp only [textRun, h, bind, Except.bind, pure, Except.pure]
  cases textRun none inBlock cs <;> rfl

theorem textRun_of_ends {inBlock : Bool} {c : Char} {cs : List Char}
    (h : endsText none inBlock (c :: cs) = .ok true) :
    textRun none inBlock (c :: cs) = .ok ([], c :: cs) := by
  simp [textRun, h, bind, Except.bind, pure, Except.pure]

/-- The first character of text that is read does not end it. -/
theorem textRun_eq_cons {inBlock : Bool} {cs rest text : List Char} {c : Char}
    (h : textRun none inBlock cs = .ok (c :: text, rest)) :
    ∃ ds, cs = c :: ds ∧ endsText none inBlock (c :: ds) = .ok false ∧
      textRun none inBlock ds = .ok (text, rest) := by
  cases cs with
  | nil => simp [textRun] at h
  | cons d ds =>
    cases hends : endsText none inBlock (d :: ds) with
    | error f => simp [textRun, hends, bind, Except.bind] at h
    | ok ends =>
      cases ends with
      | true => simp [textRun_of_ends hends] at h
      | false =>
        rw [textRun_cons hends] at h
        cases hrun : textRun none inBlock ds with
        | error f => simp [hrun, Except.map] at h
        | ok run =>
          simp only [hrun, Except.map, Except.ok.injEq, Prod.mk.injEq, List.cons.injEq] at h
          obtain ⟨⟨rfl, rfl⟩, rfl⟩ := h
          exact ⟨ds, rfl, hends, hrun⟩

/-- Text is read as long as it does not end. -/
theorem scanUnit_of_textRun (mode : Mode) {inBlock : Bool} {cs text rest : List Char}
    (hne : text ≠ []) (h : textRun none inBlock cs = .ok (text, rest)) :
    scanUnit mode none inBlock cs = .ok ([ofText text], rest) := by
  obtain ⟨c, text, rfl⟩ := List.exists_cons_of_ne_nil hne
  obtain ⟨ds, rfl, hends, hrun⟩ := textRun_eq_cons h
  obtain ⟨hopens, hmark⟩ := endsText_eq_false_iff.mp hends
  rw [scanUnit, hmark, hopens]
  simp [scanText, hrun, ofText]

/-- What one step of reading takes. -/
theorem cases_of_scan {mode : Mode} {inBlock : Bool} {cs rest : List Char} {ls : List Lexeme}
    (hcs : cs ≠ []) (h : scanUnit mode none inBlock cs = .ok (ls, rest)) :
    (inBlock = true ∧ ls = [⟨.blockEnd, Mark.blockEnd⟩]) ∨
      (opensMarkup none cs = .ok true ∧ scanMarkup mode none inBlock cs = .ok (ls, rest)) ∨
      ∃ text, text ≠ [] ∧ ls = [ofText text] ∧ textRun none inBlock cs = .ok (text, rest) := by
  obtain ⟨c, ds, rfl⟩ := List.exists_cons_of_ne_nil hcs
  cases steps_of_scanUnit h with
  | blockEnd hblock hmark =>
    rw [← List.prefix_iff_eq_take.mp (Source.lookingAt_eq_true hmark)]
    exact .inl ⟨hblock, rfl⟩
  | markup hopens hscan => exact .inr (.inl ⟨hopens, hscan⟩)
  | @text more rest hopens hmark hrun =>
    refine .inr (.inr ⟨c :: more, by simp, rfl, ?_⟩)
    rw [List.drop_succ_cons, List.drop_zero] at hrun
    rw [textRun_cons (endsText_eq_false_iff.mpr ⟨hopens, hmark⟩), hrun]
    rfl

/-- What one step of strict reading takes. -/
theorem cases_of_scanUnit {inBlock : Bool} {cs rest : List Char} {ls : List Lexeme} (hcs : cs ≠ [])
    (h : scanUnit .strict none inBlock cs = .ok (ls, rest)) :
    (inBlock = true ∧ ls = [⟨.blockEnd, Mark.blockEnd⟩]) ∨ Shape inBlock ls ∨
      ∃ text, text ≠ [] ∧ ls = [ofText text] ∧ textRun none inBlock cs = .ok (text, rest) :=
  (cases_of_scan hcs h).imp_right (Or.imp_left fun ⟨hopens, hscan⟩ =>
    shape_of_scanMarkup hopens hscan)

/-! ## Text in blocks -/

/-- Whether text in a block ends here, and what comes behind is too far off to matter. -/
structure Stops (more : List Char) : Prop where
  ends : ∀ rest, endsText none true (more ++ rest) = .ok true
  length : 6 ≤ more.length

theorem Closed.stops {ls : List Lexeme} (h : Closed ls) {more : List Char}
    (hlength : 6 ≤ more.length) : Stops (rawText ls ++ more) := by
  refine ⟨fun rest => ?_, ?_⟩
  · rw [List.append_assoc]
    simp [endsText, h.opens, bind, Except.bind, pure, Except.pure]
  · rw [List.length_append]
    omega

theorem stops_blockEnd : Stops Mark.blockEnd := by
  refine ⟨fun rest => ?_, by decide⟩
  have hopens : opensMarkup none (Mark.blockEnd ++ rest) = .ok false := by
    rw [opensMarkup_none]
    rfl
  simp [endsText, hopens, bind, Except.bind]

/-- Text ends with a mark that begins with a bracket or a slash. -/
theorem Stops.exists_cons {more : List Char} (h : Stops more) :
    ∃ c ds, more = c :: ds ∧ (c = '<' ∨ c = '/') := by
  have hends := h.ends []
  rw [List.append_nil] at hends
  obtain ⟨hopens, -⟩ | ⟨-, hend⟩ := Source.ask_eq_ok hends
  · obtain ⟨ds, rfl⟩ := opensMarkup_mark hopens
    exact ⟨'<', ds, rfl, .inl rfl⟩
  · have hmark : Mark.blockEnd <+: more := by simpa using hend
    obtain ⟨ds, rfl⟩ := hmark
    exact ⟨'/', _, rfl, .inr rfl⟩

theorem endsText_congr {inBlock : Bool} {cs ds : List Char}
    (hopens : opensMarkup none cs = opensMarkup none ds)
    (hend : Mark.blockEnd <+: cs ↔ Mark.blockEnd <+: ds) :
    endsText none inBlock cs = endsText none inBlock ds := by
  simp only [endsText, hopens, Source.lookingAt_none, Source.isPrefixOf_congr hend]

/-- Whether text goes on is settled before the place where it stops. -/
theorem endsText_append {more : List Char} (h : Stops more) {text : List Char} (hne : text ≠ [])
    (rest : List Char) :
    endsText none true (text ++ (more ++ rest)) = endsText none true (text ++ more) := by
  have hlength := h.length
  obtain ⟨c, ds, rfl, hc⟩ := h.exists_cons
  have hmark : ∀ {front back more pattern : List Char}, front ≠ [] → '<' ∉ pattern.tail →
      '/' ∉ pattern.tail → (pattern <+: front ++ c :: more ↔ pattern <+: front ++ c :: back) := by
    intro front back more pattern hfront hbracket hslash
    have hpattern : c ∉ pattern.tail := by
      obtain rfl | rfl := hc
      · exact hbracket
      · exact hslash
    rw [Source.prefix_append_cons hfront hpattern, Source.prefix_append_cons hfront hpattern]
  have hfold : ∀ more, Text.fold (text ++ c :: more) = Text.fold text ++ c :: Text.fold more := by
    intro more
    have hlower : c.toLower = c := by
      obtain rfl | rfl := hc <;> decide
    simp [Text.fold, hlower]
  have hpos := List.length_pos_iff.mpr hne
  refine endsText_congr (opensMarkup_congr ?_ ?_ ?_ ?_) ?_
  · rw [← List.append_assoc, List.take_append_of_le_length]
    rw [List.length_append]
    omega
  · exact hmark hne (by decide) (by decide)
  · exact hmark hne (by decide) (by decide)
  · rw [List.cons_append, hfold, hfold]
    exact hmark (by simpa [Text.fold] using hne) (by decide) (by decide)
  · rw [← List.append_assoc]
    refine Source.prefix_append_of_length ?_ rest
    rw [List.length_append]
    exact Nat.le_trans (by decide) (Nat.add_le_add (Nat.zero_le text.length) hlength)

/-- Text in a block is read again where it stops. -/
theorem textRun_append_stops {more : List Char} (h : Stops more) {text rest : List Char}
    (hrun : textRun none true (text ++ (more ++ rest)) = .ok (text, more ++ rest))
    (rest' : List Char) :
    textRun none true (text ++ (more ++ rest')) = .ok (text, more ++ rest') := by
  induction text with
  | nil =>
    obtain ⟨c, ds, hcs, -⟩ := h.exists_cons
    have hends := h.ends rest'
    rw [hcs] at hends
    rw [hcs]
    exact textRun_of_ends hends
  | cons c text ih =>
    obtain ⟨ds, heq, hends, hrest⟩ := textRun_eq_cons hrun
    obtain rfl : text ++ (more ++ rest) = ds := by simpa using heq
    have hagain : endsText none true (c :: (text ++ (more ++ rest'))) = .ok false := by
      rw [← hends, ← List.cons_append, ← List.cons_append, endsText_append h (by simp),
        endsText_append h (by simp)]
    rw [List.cons_append, textRun_cons hagain, ih hrest]
    rfl

end Lexeme
end NaturalTemplate.Markup
