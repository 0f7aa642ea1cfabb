import NaturalTemplate.Markup.Token.Lexer

/-!
# Tokens one by one

A stream hands out the tokens of a source as it is asked for them, and does not read further than it
has to. It reads whole constructs, and keeps their tokens until they are asked for. After an error,
or after the end of the document, it has nothing more to give.
-/
namespace NaturalTemplate.Markup

namespace TokenStream

inductive Stage where
  /-- Nobody has asked yet. -/
  | start
  | running
  /-- There is nothing more to read. -/
  | done
deriving DecidableEq, Inhabited

end TokenStream

structure TokenStream where
  mode : Mode
  failure : Option ReadFailure
  /-- Where reading stands. -/
  position : Position := .start
  /-- The characters that were not read yet. -/
  rest : List Char
  stage : TokenStream.Stage := .start
  /-- The tokens that were read and not handed out. -/
  pending : List Token := []
  /-- The start of the prototype-only block that is open. -/
  block : Option Location := none
  /-- The raw-text element whose body comes next. -/
  body : Option String := none
deriving Inhabited

namespace TokenStream

def ofSource (mode : Mode) (s : Source) : TokenStream :=
  { mode, failure := s.failure, rest := s.chars }

/-- Reads the next construct, or finds the end of the document. -/
def scan (t : TokenStream) : Except ParseError TokenStream :=
  match t.body with
  | some name =>
    match Lexeme.rawTextRun t.failure (Mark.endTagStart ++ name.toList) t.rest with
    | .error f => .error (.source f)
    | .ok (text, rest) =>
      let pending := if text.isEmpty then [] else [.text (String.ofList text) t.position.location]
      .ok { t with position := t.position.advanceBy text, rest, pending, body := none }
  | none =>
    match t.rest with
    | [] =>
      match t.failure, t.block with
      | some f, _ => .error (.source f)
      | none, some start => .error (.malformed .unterminatedBlock start)
      | none, none =>
        .ok { t with stage := .done, pending := [⟨.documentEnd, "", t.position.location⟩] }
    | c :: cs =>
      match Lexeme.scanUnit t.mode t.failure t.block.isSome (c :: cs) with
      | .error fault => .error (fault.toError t.position)
      | .ok (ls, rest) =>
        .ok { t with
          position := t.position.advanceBy (Lexeme.rawText ls), rest
          pending := Lexeme.locate t.position ls
          block := Lexeme.blockAfter t.block t.position.location ls
          body := Lexeme.rawTextAfter t.mode ls }

/-- What is still to be read: every construct takes some of it, and so does the end. -/
def work (t : TokenStream) : Nat :=
  2 * t.rest.length + t.body.isSome.toNat + if t.stage = .done then 0 else 1

theorem work_of_scan {t t' : TokenStream} (hstage : t.stage = .running) (h : t.scan = .ok t') :
    t'.work < t.work := by
  unfold scan at h
  split at h
  · next name hbody =>
    split at h
    · cases h
    · next text rest hrun =>
      cases h
      have hlength := congrArg List.length (Lexeme.rawTextRun_append hrun)
      rw [List.length_append] at hlength
      simp only [work, hbody, Option.isSome_some, Option.isSome_none, Bool.toNat_true,
        Bool.toNat_false]
      omega
  · next hbody =>
    split at h
    · split at h <;> cases h
      simp [work, hstage]
    · next c cs hrest =>
      split at h
      · cases h
      · next ls rest hscan =>
        cases h
        have hlength := Lexeme.scanUnit_length (List.cons_ne_nil c cs) hscan
        have hbool := Bool.toNat_le (Lexeme.rawTextAfter t.mode ls).isSome
        rw [← hrest] at hlength
        simp only [work, hstage]
        omega

/-- Asks for the next token. -/
def next (t : TokenStream) : Option (Except ParseError Token) × TokenStream :=
  match t.pending, _ : t.stage with
  | token :: pending, _ => (some (.ok token), { t with pending })
  | [], .done => (none, t)
  | [], .start => (some (.ok ⟨.documentStart, "", .start⟩), { t with stage := .running })
  | [], .running =>
    match _ : t.scan with
    | .error e => (some (.error e), { t with stage := .done })
    | .ok t => next t
termination_by t.work
decreasing_by exact work_of_scan ‹_› ‹_›

/-- What the stream gives after it was asked so many times before. -/
def answer (t : TokenStream) : Nat → Option (Except ParseError Token)
  | 0 => t.next.1
  | n + 1 => t.next.2.answer n

end TokenStream
end NaturalTemplate.Markup
