import NaturalTemplate.Markup.Error
import NaturalTemplate.Markup.Name
import NaturalTemplate.Markup.Options
import NaturalTemplate.Markup.Token
import NaturalTemplate.Markup.Token.Mark
import NaturalTemplate.Source.Lookahead

/-!
# Lexemes

The constructs of markup as they stand in a text, before they are given places. A construct is read
as a whole: its lexemes come out together, and their texts one after the other are the text that was
read.
-/
namespace NaturalTemplate.Markup

structure Lexeme where
  kind : TokenKind
  raw : List Char
deriving DecidableEq, Inhabited

/-- Why a construct could not be read. -/
inductive Fault where
  | source (failure : ReadFailure)
  /-- The place to blame follows the text `before`, counted from the start of the construct. -/
  | malformed (cause : Malformation) (before : List Char)
deriving DecidableEq, Inhabited

namespace Lexeme

/-- The text of lexemes one after the other. -/
def rawText (lexemes : List Lexeme) : List Char :=
  lexemes.flatMap Lexeme.raw

@[simp]
theorem rawText_nil : rawText [] = [] := rfl

@[simp]
theorem rawText_cons (l : Lexeme) (ls : List Lexeme) :
    rawText (l :: ls) = l.raw ++ rawText ls := rfl

/-! ## Text -/

/-- Whether a construct other than text begins here. -/
def opensMarkup (failure : Option ReadFailure) (cs : List Char) : Except ReadFailure Bool := do
  match ← Source.peek failure 0 cs with
  | some '<' =>
    match ← Source.peek failure 1 cs with
    | some '!' =>
      if ← Source.lookingAt failure Mark.commentStart cs then return true
      else if ← Source.lookingAt failure Mark.cdataStart cs then return true
      else Source.lookingAtIgnoringCase failure Mark.docTypeStart cs
    | some '?' => return true
    | some '/' => return (← Source.peek failure 2 cs).any Text.isAlphabetic
    | some c => return Text.isAlphabetic c
    | none => return false
  | _ => return false

/-- Whether text ends here. -/
def endsText (failure : Option ReadFailure) (inBlock : Bool) (cs : List Char) :
    Except ReadFailure Bool := do
  if ← opensMarkup failure cs then return true
  else if inBlock then Source.lookingAt failure Mark.blockEnd cs
  else return false

/-- The text up to the place where it ends, and what follows it. -/
def textRun (failure : Option ReadFailure) (inBlock : Bool) :
    List Char → Except ReadFailure (List Char × List Char)
  | [] =>
    match failure with
    | none => .ok ([], [])
    | some f => .error f
  | c :: cs => do
    if ← endsText failure inBlock (c :: cs) then return ([], c :: cs)
    else
      let (text, rest) ← textRun failure inBlock cs
      return (c :: text, rest)

/-- Whether the end tag of a raw-text element stands here; `close` is its opening with the name. -/
def closesRawText (failure : Option ReadFailure) (close cs : List Char) :
    Except ReadFailure Bool := do
  if ← Source.lookingAtIgnoringCase failure close cs then
    match ← Source.peek failure close.length cs with
    | none => return true
    | some c => return c == '>' || c == '/' || Text.isBlank c
  else return false

/-- The body of a raw-text element, and what follows it. -/
def rawTextRun (failure : Option ReadFailure) (close : List Char) :
    List Char → Except ReadFailure (List Char × List Char)
  | [] =>
    match failure with
    | none => .ok ([], [])
    | some f => .error f
  | c :: cs => do
    if ← closesRawText failure close (c :: cs) then return ([], c :: cs)
    else
      let (text, rest) ← rawTextRun failure close cs
      return (c :: text, rest)

/-! ## Constructs between two marks -/

/-- The constructs that begin with a mark. -/
inductive Construct where
  | block
  | parserComment
  | comment
  | cdata
  | docType
  | instruction
  | endTag
  | startTag
deriving DecidableEq, Inhabited

/-- Which construct begins here, where one is known to begin. -/
def construct (failure : Option ReadFailure) (cs : List Char) : Except ReadFailure Construct := do
  if ← Source.lookingAt failure Mark.blockStart cs then return .block
  else if ← Source.lookingAt failure Mark.parserCommentStart cs then return .parserComment
  else if ← Source.lookingAt failure Mark.commentStart cs then return .comment
  else if ← Source.lookingAt failure Mark.cdataStart cs then return .cdata
  else if ← Source.lookingAtIgnoringCase failure Mark.docTypeStart cs then return .docType
  else if ← Source.lookingAt failure Mark.instructionStart cs then return .instruction
  else if ← Source.lookingAt failure Mark.endTagStart cs then return .endTag
  else return .startTag

/-- Reads a construct that begins with as many characters as `start` has and ends with the first
`stop` after them. -/
def scanDelimited (failure : Option ReadFailure) (start stop : List Char) (cause : Malformation)
    (kind : String → TokenKind) (cs : List Char) : Except Fault (Lexeme × List Char) :=
  match Source.readUntil failure stop (cs.drop start.length) with
  | .error f => .error (.source f)
  | .ok none => .error (.malformed cause [])
  | .ok (some (content, rest)) =>
    .ok (⟨kind (String.ofList content), cs.take start.length ++ content ++ stop⟩, rest)

/-! ## Tags -/

def scanEndTag (mode : Mode) (failure : Option ReadFailure) (cs : List Char) :
    Except Fault (Lexeme × List Char) :=
  match Source.readWhile failure isTagNameChar (cs.drop 2) with
  | .error f => .error (.source f)
  | .ok (name, rest) =>
    match Source.readUntil failure Mark.tagEnd rest with
    | .error f => .error (.source f)
    | .ok none => .error (.malformed (.unterminatedEndTag (String.ofList name)) [])
    | .ok (some (content, rest)) =>
      if mode = .strict ∧ ¬ content.all Text.isBlank then
        .error (.malformed (.contentInEndTag (String.ofList name)) [])
      else
        .ok (⟨.tagEnd (String.ofList name), cs.take 2 ++ name ++ content ++ Mark.tagEnd⟩, rest)

/-- The name of an attribute. Where none stands, tolerant reading takes one character for it. -/
def scanName (mode : Mode) (failure : Option ReadFailure) (cs : List Char) :
    Except ReadFailure (Option (List Char × List Char)) :=
  match Source.readWhile failure isAttributeNameChar cs with
  | .error f => .error f
  | .ok ([], rest) =>
    match mode, rest with
    | .tolerant, c :: rest => .ok (some ([c], rest))
    | _, _ => .ok none
  | .ok (name, rest) => .ok (some (name, rest))

/-- The value of an attribute after its equals sign and the space around it; the text of the value
with its quotes comes second. -/
def scanValue (mode : Mode) (failure : Option ReadFailure) (name : String)
    (before cs : List Char) : Except Fault (List Char × Quote × List Char × List Char) :=
  match cs with
  | [] =>
    match failure with
    | none => .error (.malformed (.unterminatedAttribute name) [])
    | some f => .error (.source f)
  | '"' :: rest =>
    match Source.readUntil failure ['"'] rest with
    | .error f => .error (.source f)
    | .ok none => .error (.malformed (.unterminatedValue name) [])
    | .ok (some (value, rest)) => .ok (value, .double, '"' :: value ++ ['"'], rest)
  | c :: rest =>
    if mode = .strict then .error (.malformed (.valueNotDoubleQuoted name) before)
    else if c = '\'' then
      match Source.readUntil failure ['\''] rest with
      | .error f => .error (.source f)
      | .ok none => .error (.malformed (.unterminatedValue name) [])
      | .ok (some (value, rest)) => .ok (value, .single, '\'' :: value ++ ['\''], rest)
    else
      match Source.readWhile failure (fun c => !Text.isBlank c && c != '>') (c :: rest) with
      | .error f => .error (.source f)
      | .ok (value, rest) => .ok (value, .unquoted, value, rest)

/-- Reads an attribute. The text of the tag in front of it is `before`, and `leading` the space that
was read already. Space that no equals sign follows is left to the next attribute. -/
def scanAttribute (mode : Mode) (failure : Option ReadFailure) (before leading cs : List Char) :
    Except Fault (Lexeme × List Char) :=
  match scanName mode failure cs with
  | .error f => .error (.source f)
  | .ok none => .error (.malformed .missingAttributeName before)
  | .ok (some (name, rest)) =>
    match Source.readWhile failure Text.isBlank rest with
    | .error f => .error (.source f)
    | .ok (space, '=' :: afterEquals) =>
      match Source.readWhile failure Text.isBlank afterEquals with
      | .error f => .error (.source f)
      | .ok (moreSpace, afterSpace) =>
        let operator := space ++ '=' :: moreSpace
        match scanValue mode failure (String.ofList name) before afterSpace with
        | .error fault => .error fault
        | .ok (value, quote, quoted, rest) =>
          .ok (⟨.attribute (String.ofList leading) (String.ofList name) (String.ofList operator)
            (some (String.ofList value)) quote, leading ++ name ++ operator ++ quoted⟩, rest)
    | .ok _ =>
      .ok (⟨.attribute (String.ofList leading) (String.ofList name) "" none .none,
        leading ++ name⟩, rest)

/-! ## What is read is what was there -/

theorem textRun_append {failure : Option ReadFailure} {inBlock : Bool} {cs text rest : List Char}
    (h : textRun failure inBlock cs = .ok (text, rest)) : text ++ rest = cs := by
  induction cs generalizing text with
  | nil =>
    cases failure <;> simp_all [textRun]
  | cons c cs ih =>
    simp only [textRun, bind, Except.bind] at h
    split at h
    · simp at h
    · split at h
      · simp_all [pure, Except.pure]
      · split at h
        · simp at h
        next r hr =>
          simp only [pure, Except.pure, Except.ok.injEq, Prod.mk.injEq] at h
          obtain ⟨rfl, rfl⟩ := h
          simp [ih hr]

theorem rawTextRun_append {failure : Option ReadFailure} {close cs text rest : List Char}
    (h : rawTextRun failure close cs = .ok (text, rest)) : text ++ rest = cs := by
  induction cs generalizing text with
  | nil =>
    cases failure <;> simp_all [rawTextRun]
  | cons c cs ih =>
    simp only [rawTextRun, bind, Except.bind] at h
    split at h
    · simp at h
    · split at h
      · simp_all [pure, Except.pure]
      · split at h
        · simp at h
        next r hr =>
          simp only [pure, Except.pure, Except.ok.injEq, Prod.mk.injEq] at h
          obtain ⟨rfl, rfl⟩ := h
          simp [ih hr]

theorem scanDelimited_append {failure : Option ReadFailure} {start stop cs rest : List Char}
    {cause : Malformation} {kind : String → TokenKind} {l : Lexeme}
    (h : scanDelimited failure start stop cause kind cs = .ok (l, rest)) : l.raw ++ rest = cs := by
  unfold scanDelimited at h
  split at h
  · simp at h
  · simp at h
  next content rest' hr =>
    simp only [Except.ok.injEq, Prod.mk.injEq] at h
    obtain ⟨rfl, rfl⟩ := h
    have := Source.readUntil_eq_some hr
    simp only [List.append_assoc] at this ⊢
    rw [← this, List.take_append_drop]

theorem scanEndTag_append {mode : Mode} {failure : Option ReadFailure} {cs rest : List Char}
    {l : Lexeme} (h : scanEndTag mode failure cs = .ok (l, rest)) : l.raw ++ rest = cs := by
  unfold scanEndTag at h
  split at h
  · simp at h
  next name afterName hname =>
    split at h
    · simp at h
    · simp at h
    next content rest' hr =>
      split at h
      · simp at h
      · simp only [Except.ok.injEq, Prod.mk.injEq] at h
        obtain ⟨rfl, rfl⟩ := h
        have h1 := Source.readUntil_eq_some hr
        have h2 := Source.readWhile_append hname
        simp only [List.append_assoc] at h1 ⊢
        rw [← h1, h2, List.take_append_drop]

theorem scanName_append {mode : Mode} {failure : Option ReadFailure} {cs name rest : List Char}
    (h : scanName mode failure cs = .ok (some (name, rest))) : name ++ rest = cs ∧ name ≠ [] := by
  unfold scanName at h
  split at h
  · simp at h
  next rest' hr =>
    have := Source.readWhile_append hr
    split at h
    · simp only [Except.ok.injEq, Option.some.injEq, Prod.mk.injEq] at h
      obtain ⟨rfl, rfl⟩ := h
      exact ⟨this, by simp⟩
    · simp at h
  next name' rest' hne hr =>
    have := Source.readWhile_append hr
    simp only [Except.ok.injEq, Option.some.injEq, Prod.mk.injEq] at h
    obtain ⟨rfl, rfl⟩ := h
    exact ⟨this, fun hnil => hne (by simp [hnil])⟩

theorem scanValue_append {mode : Mode} {failure : Option ReadFailure} {name : String}
    {before cs value quoted rest : List Char} {quote : Quote}
    (h : scanValue mode failure name before cs = .ok (value, quote, quoted, rest)) :
    quoted ++ rest = cs := by
  unfold scanValue at h
  split at h
  · split at h <;> simp at h
  · split at h
    · simp at h
    · simp at h
    next hr =>
      simp only [Except.ok.injEq, Prod.mk.injEq] at h
      obtain ⟨rfl, rfl, rfl, rfl⟩ := h
      simp [Source.readUntil_eq_some hr]
  · split at h
    · simp at h
    · split at h
      · split at h
        · simp at h
        · simp at h
        next hr =>
          simp only [Except.ok.injEq, Prod.mk.injEq] at h
          obtain ⟨rfl, rfl, rfl, rfl⟩ := h
          simp_all [Source.readUntil_eq_some hr]
      · split at h
        · simp at h
        next hr =>
          simp only [Except.ok.injEq, Prod.mk.injEq] at h
          obtain ⟨rfl, rfl, rfl, rfl⟩ := h
          exact Source.readWhile_append hr

theorem scanAttribute_append {mode : Mode} {failure : Option ReadFailure}
    {before leading cs rest : List Char} {l : Lexeme}
    (h : scanAttribute mode failure before leading cs = .ok (l, rest)) :
    l.raw ++ rest = leading ++ cs := by
  unfold scanAttribute at h
  split at h
  · simp at h
  · simp at h
  next name afterName hname =>
    have h1 := (scanName_append hname).1
    split at h
    · simp at h
    next space afterEquals hspace =>
      have h2 := Source.readWhile_append hspace
      split at h
      · simp at h
      next moreSpace afterSpace hmore =>
        have h3 := Source.readWhile_append hmore
        simp only at h
        split at h
        · simp at h
        next value quote quoted rest' hvalue =>
          have h4 := scanValue_append hvalue
          simp only [Except.ok.injEq, Prod.mk.injEq] at h
          obtain ⟨rfl, rfl⟩ := h
          simp [← h1, ← h2, ← h3, ← h4]
    next =>
      simp only [Except.ok.injEq, Prod.mk.injEq] at h
      obtain ⟨rfl, rfl⟩ := h
      simp [← h1]

theorem scanAttribute_length {mode : Mode} {failure : Option ReadFailure}
    {before leading cs rest : List Char} {l : Lexeme}
    (h : scanAttribute mode failure before leading cs = .ok (l, rest)) :
    rest.length < cs.length := by
  unfold scanAttribute at h
  split at h
  · simp at h
  · simp at h
  next name afterName hname =>
    obtain ⟨h1, hne⟩ := scanName_append hname
    have hpos : 0 < name.length := List.length_pos_iff.mpr hne
    have hlen : cs.length = name.length + afterName.length := by simp [← h1]
    split at h
    · simp at h
    next space afterEquals hspace =>
      have h2 := congrArg List.length (Source.readWhile_append hspace)
      split at h
      · simp at h
      next moreSpace afterSpace hmore =>
        have h3 := congrArg List.length (Source.readWhile_append hmore)
        simp only at h
        split at h
        · simp at h
        next value quote quoted rest' hvalue =>
          have h4 := congrArg List.length (scanValue_append hvalue)
          simp only [Except.ok.injEq, Prod.mk.injEq] at h
          obtain ⟨-, rfl⟩ := h
          simp only [List.length_append, List.length_cons] at h2 h3 h4
          omega
    next =>
      simp only [Except.ok.injEq, Prod.mk.injEq] at h
      obtain ⟨-, rfl⟩ := h
      omega

end Lexeme
end NaturalTemplate.Markup
