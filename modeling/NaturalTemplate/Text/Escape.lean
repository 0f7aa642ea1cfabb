/-!
# Character references

Five characters are written as references wherever text goes into markup, and six references are
read back as characters; every other reference is left as it stands. Reading gives back what was
written.
-/
namespace NaturalTemplate.Text

/-- How one character is written. -/
def escapeChar : Char → List Char
  | '&' => ['&', 'a', 'm', 'p', ';']
  | '<' => ['&', 'l', 't', ';']
  | '>' => ['&', 'g', 't', ';']
  | '"' => ['&', 'q', 'u', 'o', 't', ';']
  | '\'' => ['&', '#', '3', '9', ';']
  | c => [c]

/-- Text as it is written in the body of an element or in the value of an attribute. -/
def escape (s : String) : String :=
  String.ofList (s.toList.flatMap escapeChar)

/-- The characters that are written as references. -/
def needsEscape (c : Char) : Bool :=
  c == '&' || c == '<' || c == '>' || c == '"' || c == '\''

/-- The same text, made only where it differs: up to the first character that needs a reference it
is copied, and from there it is written one character at a time. Other text is used as it stands. -/
def escaped? (s : String) : Option String :=
  match s.toList.dropWhile (!needsEscape ·) with
  | [] => none
  | rest =>
    some (String.ofList (s.toList.takeWhile (!needsEscape ·) ++ rest.flatMap escapeChar))

/-- Reads the references that are known. -/
def decodeReferences : List Char → List Char
  | [] => []
  | '&' :: 'a' :: 'm' :: 'p' :: ';' :: rest => '&' :: decodeReferences rest
  | '&' :: 'l' :: 't' :: ';' :: rest => '<' :: decodeReferences rest
  | '&' :: 'g' :: 't' :: ';' :: rest => '>' :: decodeReferences rest
  | '&' :: 'q' :: 'u' :: 'o' :: 't' :: ';' :: rest => '"' :: decodeReferences rest
  | '&' :: '#' :: '3' :: '9' :: ';' :: rest => '\'' :: decodeReferences rest
  | '&' :: 'a' :: 'p' :: 'o' :: 's' :: ';' :: rest => '\'' :: decodeReferences rest
  | c :: rest => c :: decodeReferences rest

/-- The text that markup stands for. -/
def unescape (s : String) : String :=
  String.ofList (decodeReferences s.toList)

theorem decodeReferences_cons {c : Char} (h : c ≠ '&') (rest : List Char) :
    decodeReferences (c :: rest) = c :: decodeReferences rest := by
  rw [decodeReferences] <;> simp_all

theorem decodeReferences_escapeChar (c : Char) (rest : List Char) :
    decodeReferences (escapeChar c ++ rest) = c :: decodeReferences rest := by
  unfold escapeChar
  split
  case h_6 h _ _ _ _ => exact decodeReferences_cons h rest
  all_goals simp [decodeReferences]

theorem decodeReferences_flatMap_escapeChar (cs : List Char) :
    decodeReferences (cs.flatMap escapeChar) = cs := by
  induction cs with
  | nil => rfl
  | cons c cs ih => rw [List.flatMap_cons, decodeReferences_escapeChar, ih]

theorem unescape_escape (s : String) : unescape (escape s) = s := by
  simp [unescape, escape, decodeReferences_flatMap_escapeChar]

end NaturalTemplate.Text
