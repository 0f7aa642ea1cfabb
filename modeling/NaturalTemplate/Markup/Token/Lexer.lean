import NaturalTemplate.Markup.Token.Lexeme

/-!
# Reading tokens

Markup is read construct by construct: a tag with its attributes, a comment, a run of text. The
lexemes of a construct come out only when all of it was read, and then get their places.
`scanUnit_append` says that nothing is lost or added, and `scanUnit_length` that every construct
makes progress.
-/
namespace NaturalTemplate.Markup

namespace Lexeme

/-! ## Start tags -/

/-- What comes next in a start tag, after any space. -/
inductive TagPart where
  | missing
  | close (selfClosing : Bool)
  /-- A slash that does not end the tag; tolerant reading takes it for space. -/
  | slash
  | attr
deriving DecidableEq, Inhabited

def tagPart (mode : Mode) (failure : Option ReadFailure) (cs : List Char) :
    Except ReadFailure TagPart := do
  match ← Source.peek failure 0 cs with
  | none => return .missing
  | some '>' => return .close false
  | some '/' =>
    if (← Source.peek failure 1 cs) = some '>' then return .close true
    else return if mode = .tolerant then .slash else .attr
  | some _ => return .attr

theorem ne_nil_of_tagPart_slash {mode : Mode} {failure : Option ReadFailure} {cs : List Char}
    (h : tagPart mode failure cs = .ok .slash) : cs ≠ [] := by
  rintro rfl
  cases failure <;>
    simp [tagPart, Source.peek, Source.has, bind, Except.bind, pure, Except.pure] at h

/-- Reads a start tag after its name, or after `before`, the text of the tag read so far, and
`leading`, the space that the next part begins with. -/
def scanTagRest (mode : Mode) (failure : Option ReadFailure) (name : String)
    (before leading cs : List Char) : Except Fault (List Lexeme × List Char) :=
  match _ : Source.readWhile failure Text.isBlank cs with
  | .error f => .error (.source f)
  | .ok (space, rest) =>
    let lead := leading ++ space
    match _ : tagPart mode failure rest with
    | .error f => .error (.source f)
    | .ok .missing => .error (.malformed (.unterminatedStartTag name) [])
    | .ok (.close false) =>
      .ok ([⟨.tagStartEnd (String.ofList lead) false, lead ++ rest.take 1⟩], rest.drop 1)
    | .ok (.close true) =>
      .ok ([⟨.tagStartEnd (String.ofList lead) true, lead ++ rest.take 2⟩], rest.drop 2)
    | .ok .slash => scanTagRest mode failure name before (lead ++ rest.take 1) (rest.drop 1)
    | .ok .attr =>
      if mode = .strict ∧ lead = [] then .error (.malformed .attributesNotSeparated before)
      else
        match _ : scanAttribute mode failure (before ++ leading) lead rest with
        | .error fault => .error fault
        | .ok (l, rest) =>
          match scanTagRest mode failure name (before ++ l.raw) [] rest with
          | .error fault => .error fault
          | .ok (ls, rest) => .ok (l :: ls, rest)
termination_by cs.length
decreasing_by
  · have h1 := congrArg List.length (Source.readWhile_append ‹_›)
    have h2 := List.length_pos_iff.mpr (ne_nil_of_tagPart_slash ‹_›)
    simp only [List.length_append, List.length_drop] at h1 ⊢
    omega
  · have h1 := congrArg List.length (Source.readWhile_append ‹_›)
    have h2 := scanAttribute_length ‹_›
    simp only [List.length_append] at h1
    omega

def scanStartTag (mode : Mode) (failure : Option ReadFailure) (cs : List Char) :
    Except Fault (List Lexeme × List Char) :=
  match Source.readWhile failure isTagNameChar (cs.drop 1) with
  | .error f => .error (.source f)
  | .ok (name, rest) =>
    let raw := cs.take 1 ++ name
    match scanTagRest mode failure (String.ofList name) raw [] rest with
    | .error fault => .error fault
    | .ok (ls, rest) => .ok (⟨.tagStart (String.ofList name), raw⟩ :: ls, rest)

/-! ## Any construct -/

def one : Lexeme × List Char → List Lexeme × List Char := fun (l, rest) => ([l], rest)

/-- Reads the construct that is known to begin here. -/
def scanMarkup (mode : Mode) (failure : Option ReadFailure) (inBlock : Bool) (cs : List Char) :
    Except Fault (List Lexeme × List Char) :=
  match construct failure cs with
  | .error f => .error (.source f)
  | .ok .block =>
    if inBlock then .error (.malformed .nestedBlock [])
    else .ok ([⟨.blockStart, cs.take Mark.blockStart.length⟩], cs.drop Mark.blockStart.length)
  | .ok .parserComment =>
    (scanDelimited failure Mark.parserCommentStart Mark.parserCommentEnd .unterminatedParserComment
      (.comment .parserLevel) cs).map one
  | .ok .comment =>
    (scanDelimited failure Mark.commentStart Mark.commentEnd .unterminatedComment
      (.comment .normal) cs).map one
  | .ok .cdata =>
    (scanDelimited failure Mark.cdataStart Mark.cdataEnd .unterminatedCData .cdata cs).map one
  | .ok .docType =>
    (scanDelimited failure Mark.declarationStart Mark.tagEnd .unterminatedDocType
      .docType cs).map one
  | .ok .instruction =>
    (scanDelimited failure Mark.instructionStart Mark.instructionEnd .unterminatedInstruction
      .instruction cs).map one
  | .ok .endTag => (scanEndTag mode failure cs).map one
  | .ok .startTag => scanStartTag mode failure cs

/-- Reads text whose first character is known to open no markup. -/
def scanText (failure : Option ReadFailure) (inBlock : Bool) (cs : List Char) :
    Except Fault (List Lexeme × List Char) :=
  match textRun failure inBlock (cs.drop 1) with
  | .error f => .error (.source f)
  | .ok (more, rest) =>
    let text := cs.take 1 ++ more
    .ok ([⟨.text (String.ofList text), text⟩], rest)

/-- Reads the next construct. -/
def scanUnit (mode : Mode) (failure : Option ReadFailure) (inBlock : Bool) (cs : List Char) :
    Except Fault (List Lexeme × List Char) :=
  match if inBlock then Source.lookingAt failure Mark.blockEnd cs else .ok false with
  | .error f => .error (.source f)
  | .ok true => .ok ([⟨.blockEnd, cs.take Mark.blockEnd.length⟩], cs.drop Mark.blockEnd.length)
  | .ok false =>
    match opensMarkup failure cs with
    | .error f => .error (.source f)
    | .ok true => scanMarkup mode failure inBlock cs
    | .ok false => scanText failure inBlock cs

/-- The raw-text element whose body follows a construct. -/
def rawTextAfter (mode : Mode) (lexemes : List Lexeme) : Option String :=
  match mode, lexemes.head?.map Lexeme.kind, lexemes.getLast?.map Lexeme.kind with
  | .tolerant, some (.tagStart name), some (.tagStartEnd _ false) =>
    if isRawText name then some name else none
  | _, _, _ => none

/-- The start of the prototype-only block that is open after a construct. -/
def blockAfter (block : Option Location) (location : Location) (lexemes : List Lexeme) :
    Option Location :=
  match lexemes.head?.map Lexeme.kind with
  | some .blockStart => some location
  | some .blockEnd => none
  | _ => block

/-! ## What can be read -/

/-- The constructs that stand between two marks, with these and the kind of their tokens. -/
inductive Construct.Delimits : Construct → List Char → List Char → Malformation →
    (String → TokenKind) → Prop where
  | parserComment : Delimits .parserComment Mark.parserCommentStart Mark.parserCommentEnd
      .unterminatedParserComment (.comment .parserLevel)
  | comment : Delimits .comment Mark.commentStart Mark.commentEnd .unterminatedComment
      (.comment .normal)
  | cdata : Delimits .cdata Mark.cdataStart Mark.cdataEnd .unterminatedCData .cdata
  | docType : Delimits .docType Mark.declarationStart Mark.tagEnd .unterminatedDocType .docType
  | instruction : Delimits .instruction Mark.instructionStart Mark.instructionEnd
      .unterminatedInstruction .instruction

section
variable {mode : Mode} {failure : Option ReadFailure} {inBlock : Bool} {cs rest : List Char}
  {ls : List Lexeme}

theorem scanMarkup_of_delimits {k : Construct} {start stop : List Char} {cause : Malformation}
    {kind : String → TokenKind} (hk : k.Delimits start stop cause kind) (mode : Mode)
    (inBlock : Bool) (h : construct failure cs = .ok k) :
    scanMarkup mode failure inBlock cs =
      (scanDelimited failure start stop cause kind cs).map one := by
  cases hk <;> rw [scanMarkup, h]

/-- What can be read where markup begins. -/
inductive Scans (mode : Mode) (failure : Option ReadFailure) (inBlock : Bool) (cs : List Char) :
    List Lexeme → List Char → Prop where
  | blockStart (hconstruct : construct failure cs = .ok .block) (hblock : inBlock = false) :
    Scans mode failure inBlock cs [⟨.blockStart, cs.take Mark.blockStart.length⟩]
      (cs.drop Mark.blockStart.length)
  | delimited {k : Construct} {start stop : List Char} {cause : Malformation}
    {kind : String → TokenKind} {l : Lexeme} {rest : List Char}
    (hk : k.Delimits start stop cause kind) (hconstruct : construct failure cs = .ok k)
    (hscan : scanDelimited failure start stop cause kind cs = .ok (l, rest)) :
    Scans mode failure inBlock cs [l] rest
  | endTag {l : Lexeme} {rest : List Char} (hconstruct : construct failure cs = .ok .endTag)
    (hscan : scanEndTag mode failure cs = .ok (l, rest)) : Scans mode failure inBlock cs [l] rest
  | startTag {ls : List Lexeme} {rest : List Char}
    (hconstruct : construct failure cs = .ok .startTag)
    (hscan : scanStartTag mode failure cs = .ok (ls, rest)) :
    Scans mode failure inBlock cs ls rest

theorem exists_of_map_one {e : Except Fault (Lexeme × List Char)} (h : e.map one = .ok (ls, rest)) :
    ∃ l, e = .ok (l, rest) ∧ ls = [l] := by
  cases e with
  | error => simp [Except.map] at h
  | ok r =>
    simp only [Except.map, one, Except.ok.injEq, Prod.mk.injEq] at h
    obtain ⟨rfl, rfl⟩ := h
    exact ⟨r.1, rfl, rfl⟩

theorem scans_of_scanMarkup (h : scanMarkup mode failure inBlock cs = .ok (ls, rest)) :
    Scans mode failure inBlock cs ls rest := by
  have hdelimited {k : Construct} {start stop : List Char} {cause : Malformation}
      {kind : String → TokenKind} (hconstruct : construct failure cs = .ok k)
      (hk : k.Delimits start stop cause kind) : Scans mode failure inBlock cs ls rest := by
    rw [scanMarkup_of_delimits hk mode inBlock hconstruct] at h
    obtain ⟨l, hscan, rfl⟩ := exists_of_map_one h
    exact .delimited hk hconstruct hscan
  cases hconstruct : construct failure cs with
  | error => simp [scanMarkup, hconstruct] at h
  | ok k =>
    cases k with
    | block =>
      simp only [scanMarkup, hconstruct] at h
      split at h
      · simp at h
      · next hblock =>
        simp only [Except.ok.injEq, Prod.mk.injEq] at h
        obtain ⟨rfl, rfl⟩ := h
        exact .blockStart hconstruct (eq_false_of_ne_true hblock)
    | parserComment => exact hdelimited hconstruct .parserComment
    | comment => exact hdelimited hconstruct .comment
    | cdata => exact hdelimited hconstruct .cdata
    | docType => exact hdelimited hconstruct .docType
    | instruction => exact hdelimited hconstruct .instruction
    | endTag =>
      rw [scanMarkup, hconstruct] at h
      obtain ⟨l, hscan, rfl⟩ := exists_of_map_one h
      exact .endTag hconstruct hscan
    | startTag =>
      rw [scanMarkup, hconstruct] at h
      exact .startTag hconstruct h

/-- What can be read in one step. -/
inductive Steps (mode : Mode) (failure : Option ReadFailure) (inBlock : Bool) (cs : List Char) :
    List Lexeme → List Char → Prop where
  | blockEnd (hblock : inBlock = true)
    (hmark : Source.lookingAt failure Mark.blockEnd cs = .ok true) :
    Steps mode failure inBlock cs [⟨.blockEnd, cs.take Mark.blockEnd.length⟩]
      (cs.drop Mark.blockEnd.length)
  | markup {ls : List Lexeme} {rest : List Char} (hopens : opensMarkup failure cs = .ok true)
    (hscan : scanMarkup mode failure inBlock cs = .ok (ls, rest)) :
    Steps mode failure inBlock cs ls rest
  | text {more rest : List Char} (hopens : opensMarkup failure cs = .ok false)
    (hmark : (if inBlock then Source.lookingAt failure Mark.blockEnd cs else .ok false) = .ok false)
    (hrun : textRun failure inBlock (cs.drop 1) = .ok (more, rest)) :
    Steps mode failure inBlock cs
      [⟨.text (String.ofList (cs.take 1 ++ more)), cs.take 1 ++ more⟩] rest

theorem steps_of_scanUnit (h : scanUnit mode failure inBlock cs = .ok (ls, rest)) :
    Steps mode failure inBlock cs ls rest := by
  unfold scanUnit at h
  split at h
  · simp at h
  · next hmark =>
    simp only [Except.ok.injEq, Prod.mk.injEq] at h
    obtain ⟨rfl, rfl⟩ := h
    cases inBlock with
    | false => simp at hmark
    | true => exact .blockEnd rfl hmark
  · next hmark =>
    split at h
    · simp at h
    · next hopens => exact .markup hopens h
    · next hopens =>
      unfold scanText at h
      split at h
      · simp at h
      · next more rest' hrun =>
        simp only [Except.ok.injEq, Prod.mk.injEq] at h
        obtain ⟨rfl, rfl⟩ := h
        exact .text hopens hmark hrun

end

/-- What stands at the end of a start tag. -/
theorem tagPart_close {mode : Mode} {failure : Option ReadFailure} {cs : List Char}
    {selfClosing : Bool} (h : tagPart mode failure cs = .ok (.close selfClosing)) :
    (if selfClosing then ['/', '>'] else ['>']) <+: cs := by
  unfold tagPart at h
  cases hpeek : Source.peek failure 0 cs with
  | error f => simp [hpeek, bind, Except.bind] at h
  | ok c =>
    obtain rfl := Source.peek_eq_ok hpeek
    simp only [hpeek, bind, Except.bind, pure, Except.pure] at h
    split at h
    · simp at h
    next hc =>
      simp only [Except.ok.injEq, TagPart.close.injEq] at h
      subst h
      cases cs with
      | nil => simp at hc
      | cons d ds => simpa using hc.symm
    next hc =>
      cases hnext : Source.peek failure 1 cs with
      | error f => simp [hnext] at h
      | ok d =>
        obtain rfl := Source.peek_eq_ok hnext
        simp only [hnext] at h
        split at h
        next hgt =>
          simp only [Except.ok.injEq, TagPart.close.injEq] at h
          subst h
          cases cs with
          | nil => simp at hc
          | cons a as => cases as with
            | nil => simp at hgt
            | cons b ds => simp_all
        · split at h <;> simp at h
    · simp at h

/-- How a start tag is read after its name, part after part. -/
inductive ScansTagRest (mode : Mode) (failure : Option ReadFailure) :
    List Char → List Char → List Char → List Lexeme → List Char → Prop where
  | close {before leading cs space rest : List Char} (selfClosing : Bool)
    (hspace : Source.readWhile failure Text.isBlank cs =
      .ok (space, (if selfClosing then ['/', '>'] else ['>']) ++ rest)) :
    ScansTagRest mode failure before leading cs
      [⟨.tagStartEnd (String.ofList (leading ++ space)) selfClosing,
        leading ++ space ++ if selfClosing then ['/', '>'] else ['>']⟩] rest
  | slash {before leading cs space after rest : List Char} {ls : List Lexeme}
    (hspace : Source.readWhile failure Text.isBlank cs = .ok (space, after))
    (hpart : tagPart mode failure after = .ok .slash)
    (h : ScansTagRest mode failure before (leading ++ space ++ after.take 1) (after.drop 1) ls
      rest) : ScansTagRest mode failure before leading cs ls rest
  | attr {before leading cs space after behind rest : List Char} {l : Lexeme} {ls : List Lexeme}
    (hspace : Source.readWhile failure Text.isBlank cs = .ok (space, after))
    (hlead : mode = .strict → leading ++ space ≠ [])
    (hattr : scanAttribute mode failure (before ++ leading) (leading ++ space) after =
      .ok (l, behind))
    (h : ScansTagRest mode failure (before ++ l.raw) [] behind ls rest) :
    ScansTagRest mode failure before leading cs (l :: ls) rest

theorem scansTagRest_of_scanTagRest {mode : Mode} {failure : Option ReadFailure} {name : String}
    {before leading cs rest : List Char} {ls : List Lexeme}
    (h : scanTagRest mode failure name before leading cs = .ok (ls, rest)) :
    ScansTagRest mode failure before leading cs ls rest := by
  fun_induction scanTagRest mode failure name before leading cs generalizing ls rest with
  | case1 | case2 | case3 | case7 | case8 | case9 => cases h
  | case4 before leading cs space after hspace =>
    rename_i hpart
    obtain ⟨ds, rfl⟩ := tagPart_close hpart
    cases h
    exact .close false hspace
  | case5 before leading cs space after hspace =>
    rename_i hpart
    obtain ⟨ds, rfl⟩ := tagPart_close hpart
    cases h
    exact .close true hspace
  | case6 before leading cs space after hspace lead hpart =>
    rename_i ih
    exact .slash hspace hpart (ih h)
  | case10 before leading cs space after hspace lead hpart hlead l behind hattr ls rest hrec =>
    rename_i ih
    cases h
    exact .attr hspace (fun hstrict hnil => hlead ⟨hstrict, hnil⟩) hattr (ih hrec)

/-- How a start tag is read. -/
inductive ScansTag (mode : Mode) (failure : Option ReadFailure) (cs : List Char) :
    List Lexeme → List Char → Prop where
  | intro {name after rest : List Char} {parts : List Lexeme}
    (hname : Source.readWhile failure isTagNameChar (cs.drop 1) = .ok (name, after))
    (hparts : scanTagRest mode failure (String.ofList name) (cs.take 1 ++ name) [] after =
      .ok (parts, rest)) :
    ScansTag mode failure cs (⟨.tagStart (String.ofList name), cs.take 1 ++ name⟩ :: parts) rest

theorem scansTag_of_scanStartTag {mode : Mode} {failure : Option ReadFailure} {cs rest : List Char}
    {ls : List Lexeme} (h : scanStartTag mode failure cs = .ok (ls, rest)) :
    ScansTag mode failure cs ls rest := by
  unfold scanStartTag at h
  split at h
  · cases h
  · next hname =>
    dsimp only at h
    split at h
    · cases h
    · next hparts =>
      cases h
      exact .intro hname hparts

/-! ## What is read is what was there -/

theorem scanTagRest_append {mode : Mode} {failure : Option ReadFailure} {name : String}
    {before leading cs rest : List Char} {ls : List Lexeme}
    (h : scanTagRest mode failure name before leading cs = .ok (ls, rest)) :
    rawText ls ++ rest = leading ++ cs := by
  replace h := scansTagRest_of_scanTagRest h
  induction h with
  | close _ hspace =>
    simp only [rawText_cons, rawText_nil, List.append_assoc, List.nil_append,
      Source.readWhile_append hspace]
  | slash hspace _ _ ih =>
    rw [ih]
    simp only [List.append_assoc, List.take_append_drop, Source.readWhile_append hspace]
  | attr hspace _ hattr _ ih =>
    simp only [rawText_cons, List.append_assoc, ih, List.nil_append, scanAttribute_append hattr,
      Source.readWhile_append hspace]

theorem scanStartTag_append {mode : Mode} {failure : Option ReadFailure} {cs rest : List Char}
    {ls : List Lexeme} (h : scanStartTag mode failure cs = .ok (ls, rest)) :
    rawText ls ++ rest = cs := by
  cases scansTag_of_scanStartTag h with
  | intro hname hparts =>
    simp only [rawText_cons, List.append_assoc, scanTagRest_append hparts, List.nil_append,
      Source.readWhile_append hname, List.take_append_drop]

theorem scanMarkup_append {mode : Mode} {failure : Option ReadFailure} {inBlock : Bool}
    {cs rest : List Char} {ls : List Lexeme}
    (h : scanMarkup mode failure inBlock cs = .ok (ls, rest)) : rawText ls ++ rest = cs := by
  cases scans_of_scanMarkup h with
  | blockStart =>
    simp only [rawText_cons, rawText_nil, List.append_nil, List.take_append_drop]
  | delimited _ _ hscan => simpa using scanDelimited_append hscan
  | endTag _ hscan => simpa using scanEndTag_append hscan
  | startTag _ hscan => exact scanStartTag_append hscan

theorem scanUnit_append {mode : Mode} {failure : Option ReadFailure} {inBlock : Bool}
    {cs rest : List Char} {ls : List Lexeme}
    (h : scanUnit mode failure inBlock cs = .ok (ls, rest)) : rawText ls ++ rest = cs := by
  cases steps_of_scanUnit h with
  | blockEnd => simp only [rawText_cons, rawText_nil, List.append_nil, List.take_append_drop]
  | markup _ hscan => exact scanMarkup_append hscan
  | text _ _ hrun =>
    simp only [rawText_cons, rawText_nil, List.append_nil, List.append_assoc,
      textRun_append hrun, List.take_append_drop]

private theorem take_append_ne_nil {n : Nat} {cs ds : List Char} (hn : n ≠ 0) (hcs : cs ≠ []) :
    cs.take n ++ ds ≠ [] := by
  simp [hn, hcs]

private theorem scanDelimited_raw_ne_nil {failure : Option ReadFailure}
    {start stop cs rest : List Char} {cause : Malformation} {kind : String → TokenKind} {l : Lexeme}
    (hstop : stop ≠ []) (h : scanDelimited failure start stop cause kind cs = .ok (l, rest)) :
    l.raw ≠ [] := by
  unfold scanDelimited at h
  split at h
  · simp at h
  · simp at h
  · simp only [Except.ok.injEq, Prod.mk.injEq] at h
    obtain ⟨rfl, rfl⟩ := h
    simp [hstop]

private theorem scanEndTag_raw_ne_nil {mode : Mode} {failure : Option ReadFailure}
    {cs rest : List Char} {l : Lexeme} (h : scanEndTag mode failure cs = .ok (l, rest)) :
    l.raw ≠ [] := by
  unfold scanEndTag at h
  split at h
  · simp at h
  · split at h
    · simp at h
    · simp at h
    · split at h
      · simp at h
      · simp only [Except.ok.injEq, Prod.mk.injEq] at h
        obtain ⟨rfl, rfl⟩ := h
        simp [Mark.tagEnd]

theorem scanMarkup_rawText_ne_nil {mode : Mode} {failure : Option ReadFailure} {inBlock : Bool}
    {cs rest : List Char} {ls : List Lexeme} (hcs : cs ≠ [])
    (h : scanMarkup mode failure inBlock cs = .ok (ls, rest)) : rawText ls ≠ [] := by
  cases scans_of_scanMarkup h with
  | blockStart => simp [Mark.blockStart, hcs]
  | @delimited _ _ stop _ _ _ _ hk _ hscan =>
    have hstop : stop ≠ [] := by cases hk <;> decide
    simpa using scanDelimited_raw_ne_nil hstop hscan
  | endTag _ hscan => simpa using scanEndTag_raw_ne_nil hscan
  | startTag _ hscan =>
    cases scansTag_of_scanStartTag hscan with
    | intro =>
      simp only [rawText_cons, List.append_assoc]
      exact take_append_ne_nil Nat.one_ne_zero hcs

theorem scanUnit_rawText_ne_nil {mode : Mode} {failure : Option ReadFailure} {inBlock : Bool}
    {cs rest : List Char} {ls : List Lexeme} (hcs : cs ≠ [])
    (h : scanUnit mode failure inBlock cs = .ok (ls, rest)) : rawText ls ≠ [] := by
  cases steps_of_scanUnit h with
  | blockEnd => simp [Mark.blockEnd, hcs]
  | markup _ hscan => exact scanMarkup_rawText_ne_nil hcs hscan
  | text =>
    simp only [rawText_cons, rawText_nil, List.append_nil]
    exact take_append_ne_nil Nat.one_ne_zero hcs

theorem scanUnit_length {mode : Mode} {failure : Option ReadFailure} {inBlock : Bool}
    {cs rest : List Char} {ls : List Lexeme} (hcs : cs ≠ [])
    (h : scanUnit mode failure inBlock cs = .ok (ls, rest)) : rest.length < cs.length := by
  have happ := congrArg List.length (scanUnit_append h)
  have hpos := List.length_pos_iff.mpr (scanUnit_rawText_ne_nil hcs h)
  rw [List.length_append] at happ
  omega

/-! ## Places -/

/-- The part of a lexeme's text that lies before its place. A part of a start tag is placed after
the last stray slash in the space before it, all else where its text begins. -/
def lead (l : Lexeme) : List Char :=
  match l.kind with
  | .attribute leading .. | .tagStartEnd leading _ =>
    (leading.toList.reverse.dropWhile (· != '/')).reverse
  | _ => []

/-- Gives lexemes their places. -/
def locate (p : Position) : List Lexeme → List Token
  | [] => []
  | l :: ls =>
    ⟨l.kind, String.ofList l.raw, (p.advanceBy l.lead).location⟩ :: locate (p.advanceBy l.raw) ls

end Lexeme

/-- The error that a fault is, in a construct that begins at `p`. -/
def Fault.toError (p : Position) : Fault → ParseError
  | source failure => .source failure
  | malformed cause before => .malformed cause (p.advanceBy before).location

/-- The tokens of a source, up to the construct that could not be read, if any. -/
structure Tokens where
  tokens : List Token
  error : Option ParseError
deriving DecidableEq, Inhabited

namespace Tokens

def prepend (ts : List Token) (t : Tokens) : Tokens := ⟨ts ++ t.tokens, t.error⟩

/-- The tokens from `p` on, where `block` is the start of an open prototype-only block, and `body`
the raw-text element whose body comes next. -/
def read (mode : Mode) (failure : Option ReadFailure) (p : Position) (block : Option Location)
    (body : Option String) (cs : List Char) : Tokens :=
  match body with
  | some name =>
    match _ : Lexeme.rawTextRun failure (Mark.endTagStart ++ name.toList) cs with
    | .error f => ⟨[], some (.source f)⟩
    | .ok (text, rest) =>
      let after := read mode failure (p.advanceBy text) block none rest
      if text.isEmpty then after else after.prepend [.text (String.ofList text) p.location]
  | none =>
    match cs with
    | [] =>
      match failure, block with
      | some f, _ => ⟨[], some (.source f)⟩
      | none, some start => ⟨[], some (.malformed .unterminatedBlock start)⟩
      | none, none => ⟨[⟨.documentEnd, "", p.location⟩], none⟩
    | c :: cs =>
      match _ : Lexeme.scanUnit mode failure block.isSome (c :: cs) with
      | .error fault => ⟨[], some (fault.toError p)⟩
      | .ok (ls, rest) =>
        (read mode failure (p.advanceBy (Lexeme.rawText ls)) (Lexeme.blockAfter block p.location ls)
          (Lexeme.rawTextAfter mode ls) rest).prepend (Lexeme.locate p ls)
termination_by 2 * cs.length + body.isSome.toNat
decreasing_by
  · have hlen := congrArg List.length (Lexeme.rawTextRun_append ‹_›)
    rw [List.length_append] at hlen
    simp only [Option.isSome_some, Bool.toNat_true, Option.isSome_none, Bool.toNat_false]
    omega
  · have hlen := Lexeme.scanUnit_length (List.cons_ne_nil c cs) ‹_›
    have hbody := Bool.toNat_le (Lexeme.rawTextAfter mode ls).isSome
    omega

end Tokens

/-- The tokens of a source. -/
def tokenize (mode : Mode) (s : Source) : Tokens :=
  (Tokens.read mode s.failure .start none none s.chars).prepend [⟨.documentStart, "", .start⟩]

end NaturalTemplate.Markup
