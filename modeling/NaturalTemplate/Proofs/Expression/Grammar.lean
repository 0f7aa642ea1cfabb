import NaturalTemplate.Proofs.Expression.Scanning
import NaturalTemplate.Proofs.Expression.Term

/-!
# The grammar of expressions

An expression as it is derived from the grammar: with the white space between its parts, the
spelling of its operators and the brackets that it has. Each production is one constructor, and what
it takes stands at the level that the grammar asks for. The value of a derivation is defined along
the productions, from left to right, with only the operands that are needed.
-/
namespace NaturalTemplate.Grammar

/-! ## Words and spaces -/

/-- White space between the parts of an expression. -/
structure Layout where
  chars : List Char
  blank : ∀ c ∈ chars, Text.isBlank c = true

def Layout.none : Layout := ⟨[], by simp⟩

def Layout.space : Layout := ⟨[' '], by simp [Text.isBlank]⟩

/-- A name of a path, with the white space around it. -/
structure Segment where
  before : Layout
  name : Identifier
  after : Layout

def Segment.chars (s : Segment) : List Char :=
  s.before.chars ++ (s.name.name.toList ++ s.after.chars)

/-- `path := name ("." name)*` -/
structure Names where
  first : Segment
  rest : List Segment

namespace Names

def chars (p : Names) : List Char :=
  p.first.chars ++ p.rest.flatMap fun s => '.' :: s.chars

/-- The names after the first one. -/
def properties (p : Names) : List Identifier := p.rest.map Segment.name

def path (p : Names) : Path := p.first.name.name :: p.properties.map Identifier.name

end Names

/-- A character of a string literal, which can be any other than a quote or a backslash, or any one
after a backslash. -/
inductive Quoted where
  | plain (c : Char) (h : c ≠ '\\' ∧ c ≠ '\'')
  | escaped (c : Char)

namespace Quoted

def chars : Quoted → List Char
  | plain c _ => [c]
  | escaped c => ['\\', c]

/-- The character that is meant. -/
def meant : Quoted → Char
  | plain c _ => c
  | escaped c => c

end Quoted

/-- The number that a text is, whole or not. -/
def number? (cs : List Char) : Option Value :=
  match Decimal.int64? cs with
  | some n => some (.integer n)
  | none => (Decimal.float? cs).map .float

/-- A number literal. The grammar leaves open what that is: here it is what the readers of numbers
take, from a digit or a minus sign on and with no plus sign, which would be an operator. -/
structure Number where
  chars : List Char
  starts : ∃ c, chars.head? = some c ∧ (c.isDigit = true ∨ c = '-')
  unsigned : '+' ∉ chars
  isNumber : (number? chars).isSome = true

def Number.value (n : Number) : Value := (number? n.chars).get n.isNumber

/-- A part of a literal substitution. -/
inductive Part where
  | char (c : Char)
  | variable (p : Names)
  | selected (p : Names)

namespace Part

def chars : Part → List Char
  | char c => [c]
  | .variable p => '$' :: '{' :: (p.chars ++ ['}'])
  | selected p => '*' :: '{' :: (p.chars ++ ['}'])

/-- Whether no plain text looks like the beginning of an expression. -/
def Apart : List Part → Prop
  | [] => True
  | char c :: ps =>
    (c = '$' ∨ c = '*' → ∀ d ∈ ps.head?, d.chars.head? ≠ some '{') ∧ Apart ps
  | _ :: ps => Apart ps

end Part

/-- A literal substitution: any text without a bar, whose brackets are as many as its closing
ones. -/
structure Substitution where
  parts : List Part
  apart : Part.Apart parts
  barless : '|' ∉ parts.flatMap Part.chars
  even : (parts.flatMap Part.chars).countP (fun c => c = '{' ∨ c = '(') =
    (parts.flatMap Part.chars).countP fun c => c = '}' ∨ c = ')'

namespace Substitution

def text (s : Substitution) : List Char := s.parts.flatMap Part.chars

def chars (s : Substitution) : List Char := '|' :: (s.text ++ ['|'])

end Substitution

inductive Atom where
  | variable (p : Names)
  | selected (p : Names)
  | string (cs : List Quoted)
  | number (n : Number)
  | bool (b : Bool)
  | null
  | substitution (s : Substitution)

def Atom.chars : Atom → List Char
  | .variable p => '$' :: '{' :: (p.chars ++ ['}'])
  | selected p => '*' :: '{' :: (p.chars ++ ['}'])
  | string cs => '\'' :: (cs.flatMap Quoted.chars ++ ['\''])
  | number n => n.chars
  | bool b => (toString b).toList
  | null => ['n', 'u', 'l', 'l']
  | substitution s => s.chars

/-! ## Operators -/

/-- How tightly an expression binds, from loose to tight. -/
inductive Level where
  | expression
  | disjunction
  | conjunction
  | equality
  | relation
  | sum
  | unary
  | atom
deriving DecidableEq

def Level.rank : Level → Nat
  | expression => 0
  | disjunction => 1
  | conjunction => 2
  | equality => 3
  | relation => 4
  | sum => 5
  | unary => 6
  | atom => 7

/-- A tighter level is a greater one. -/
instance : LE Level := ⟨fun l m => l.rank ≤ m.rank⟩

instance (l m : Level) : Decidable (l ≤ m) := inferInstanceAs (Decidable (l.rank ≤ m.rank))

theorem Level.expression_le (l : Level) : expression ≤ l := Nat.zero_le l.rank

theorem Level.le_atom (l : Level) : l ≤ atom := by cases l <;> decide

/-- The next tighter level. -/
def Level.tighter : Level → Level
  | expression => disjunction
  | disjunction => conjunction
  | conjunction => equality
  | equality => relation
  | relation => sum
  | sum => unary
  | unary | atom => atom

/-- The operators between two operands. Some are spelled as a word or not. -/
inductive Operator where
  | or
  | and
  | equal (word : Bool)
  | differ (word : Bool)
  | order (relation : Relation) (word : Bool)
  | add

namespace Operator

def relationWord : Relation → List Char
  | .greaterEqual => ['g', 'e']
  | .lessEqual => ['l', 'e']
  | .greater => ['g', 't']
  | .less => ['l', 't']

def chars : Operator → List Char
  | or => ['o', 'r']
  | and => ['a', 'n', 'd']
  | equal word => if word then ['e', 'q'] else ['=', '=']
  | differ word => if word then ['n', 'e'] else ['!', '=']
  | order relation word => if word then relationWord relation else relation.spelling
  | add => ['+']

def isWord : Operator → Bool
  | or | and => true
  | equal word | differ word | order _ word => word
  | add => false

def level : Operator → Level
  | or => .disjunction
  | and => .conjunction
  | equal _ | differ _ => .equality
  | order .. => .relation
  | add => .sum

/-- A chain of sums is one of sums and a last operand. -/
def leftLevel : Operator → Level
  | add => .sum
  | o => o.level.tighter

/-- A chain of `or` or of `and` is a first operand and one of those. -/
def rightLevel : Operator → Level
  | or => .disjunction
  | and => .conjunction
  | o => o.level.tighter

theorem level_le_leftLevel (o : Operator) : o.level ≤ o.leftLevel := by
  cases o <;> simp only [level, leftLevel] <;> decide

theorem level_le_rightLevel (o : Operator) : o.level ≤ o.rightLevel := by
  cases o <;> simp only [level, rightLevel] <;> decide

theorem disjunction_le_level (o : Operator) : .disjunction ≤ o.level := by
  cases o <;> simp only [level] <;> decide

end Operator

/-- What is around an operator. A word has white space on both sides. -/
structure Gap (o : Operator) where
  before : Layout
  after : Layout
  apart : o.isWord = true →
    (∃ c, before.chars.getLast? = some c ∧ Text.isAsciiBlank c = true) ∧
      ∃ c, after.chars.head? = some c ∧ Text.isAsciiBlank c = true

def Gap.spaces (o : Operator) : Gap o where
  before := .space
  after := .space
  apart _ := ⟨⟨' ', rfl, rfl⟩, ' ', rfl, rfl⟩

/-- The sign or the word for a negation, and the white space after it. -/
inductive Negation where
  | sign (after : Layout)
  | word (after : Layout)

def Negation.chars : Negation → List Char
  | sign after => '!' :: after.chars
  | word after => 'n' :: 'o' :: 't' :: ' ' :: after.chars

/-! ## Derivations -/

/-- A derivation of an expression at some level. -/
inductive Phrase : Level → Type where
  /-- What binds more tightly, where something looser may stand. -/
  | tighter {l m : Level} (h : l ≤ m) (p : Phrase m) : Phrase l
  | atom (a : Atom) : Phrase .atom
  | bracket (before : Layout) (p : Phrase .expression) (after : Layout) : Phrase .atom
  | not (n : Negation) (p : Phrase .unary) : Phrase .unary
  | binary (o : Operator) (left : Phrase o.leftLevel) (gap : Gap o) (right : Phrase o.rightLevel) :
    Phrase o.level
  /-- `condition ? yes : no` -/
  | conditional (condition : Phrase .disjunction) (a b : Layout) (yes : Phrase .expression)
    (c d : Layout) (no : Phrase .expression) : Phrase .expression
  /-- `condition ? yes` -/
  | guarded (condition : Phrase .disjunction) (a b : Layout) (yes : Phrase .expression) :
    Phrase .expression
  /-- `value ?: default` -/
  | elvis (value : Phrase .disjunction) (a b : Layout) (default : Phrase .expression) :
    Phrase .expression

namespace Phrase

/-- The text that is derived. -/
def chars {l : Level} : Phrase l → List Char
  | tighter _ p => p.chars
  | atom a => a.chars
  | bracket before p after => '(' :: (before.chars ++ (p.chars ++ (after.chars ++ [')'])))
  | not n p => n.chars ++ p.chars
  | binary o left gap right =>
    left.chars ++ (gap.before.chars ++ (o.chars ++ (gap.after.chars ++ right.chars)))
  | conditional condition a b yes c d no =>
    condition.chars ++ (a.chars ++ '?' :: (b.chars ++ (yes.chars ++ (c.chars ++
      ':' :: (d.chars ++ no.chars)))))
  | guarded condition a b yes => condition.chars ++ (a.chars ++ '?' :: (b.chars ++ yes.chars))
  | elvis value a b default =>
    value.chars ++ (a.chars ++ '?' :: ':' :: (b.chars ++ default.chars))

/-- Whether an else part that follows would belong to a question mark in the phrase. -/
def isOpen {l : Level} : Phrase l → Bool
  | tighter _ p => p.isOpen
  | guarded .. => true
  | conditional _ _ _ _ _ _ no => no.isOpen
  | elvis _ _ _ default => default.isOpen
  | atom _ | bracket .. | not .. | binary .. => false

/-- Every else part belongs to the nearest question mark that is still without one. -/
def ElseNearest {l : Level} : Phrase l → Prop
  | tighter _ p => p.ElseNearest
  | atom _ => True
  | bracket _ p _ => p.ElseNearest
  | not _ p => p.ElseNearest
  | binary _ left _ right => left.ElseNearest ∧ right.ElseNearest
  | conditional condition _ _ yes _ _ no =>
    condition.ElseNearest ∧ yes.ElseNearest ∧ no.ElseNearest ∧ yes.isOpen = false
  | guarded condition _ _ yes => condition.ElseNearest ∧ yes.ElseNearest
  | elvis value _ _ default => value.ElseNearest ∧ default.ElseNearest

/-- Whether there is a colon in the phrase that is not in brackets. -/
def hasColon {l : Level} : Phrase l → Bool
  | tighter _ p => p.hasColon
  | conditional .. | elvis .. => true
  | guarded _ _ _ yes => yes.hasColon
  | atom _ | bracket .. | not .. | binary .. => false

/-- No part between a question mark and its else part, or the end, has a colon that is not in
brackets. -/
def Bracketed {l : Level} : Phrase l → Prop
  | tighter _ p => p.Bracketed
  | atom _ => True
  | bracket _ p _ => p.Bracketed
  | not _ p => p.Bracketed
  | binary _ left _ right => left.Bracketed ∧ right.Bracketed
  | conditional condition _ _ yes _ _ no =>
    condition.Bracketed ∧ yes.Bracketed ∧ no.Bracketed ∧ yes.hasColon = false
  | guarded condition _ _ yes => condition.Bracketed ∧ yes.Bracketed ∧ yes.hasColon = false
  | elvis value _ _ default => value.Bracketed ∧ default.Bracketed

/-- In brackets, what is between the bars of a literal substitution is not passed over. So there it
has to close what it opens, quotes included. -/
def Sheltered (inside : Bool) {l : Level} : Phrase l → Prop
  | tighter _ p => p.Sheltered inside
  | atom (.substitution s) => inside = true → Nesting.Balanced s.chars
  | atom _ => True
  | bracket _ p _ => p.Sheltered true
  | not _ p => p.Sheltered inside
  | binary _ left _ right => left.Sheltered inside ∧ right.Sheltered inside
  | conditional condition _ _ yes _ _ no =>
    condition.Sheltered inside ∧ yes.Sheltered inside ∧ no.Sheltered inside
  | guarded condition _ _ yes => condition.Sheltered inside ∧ yes.Sheltered inside
  | elvis value _ _ default => value.Sheltered inside ∧ default.Sheltered inside

end Phrase

/-! ## Values -/

def Names.run (p : Names) : Evaluation Value := Evaluation.path p.first.name p.properties

/-- A path from the selected object, or from the variables where none is selected. -/
def Names.runSelected (p : Names) : Evaluation Value :=
  (Term.selected p.first.name p.properties).run

namespace Part

def run : Part → Evaluation String
  | char c => return String.singleton c
  | .variable p => do Evaluation.ofExcept (Piece.text.written (← p.run))
  | selected p => do Evaluation.ofExcept (Piece.text.written (← p.runSelected))

/-- The texts of some parts one after the other. -/
def runAll : List Part → Evaluation String
  | [] => return ""
  | p :: ps => do return (← p.run) ++ (← runAll ps)

end Part

def Atom.run : Atom → Evaluation Value
  | .variable p => p.run
  | selected p => p.runSelected
  | string cs => return .string (String.ofList (cs.map Quoted.meant))
  | number n => return n.value
  | bool b => return .bool b
  | null => return .null
  | substitution s => do return .string (← Part.runAll s.parts)

/-- Whether a value comes before another one. An error has the operator as it is spelled. -/
def Operator.test (relation : Relation) (word : Bool) (left right : Value) :
    Except ExpressionError Value :=
  match left.order? right with
  | some o => .ok (.bool (relation.holds o))
  | none => .error (.operands (String.ofList (order relation word).chars) left.type right.type)

def Operator.run : Operator → Evaluation Value → Evaluation Value → Evaluation Value
  | or, left, right => BinaryOperator.or.run left right
  | and, left, right => BinaryOperator.and.run left right
  | equal _, left, right => BinaryOperator.equal.run left right
  | differ _, left, right => BinaryOperator.differ.run left right
  | order relation word, left, right => do
    let a ← left
    let b ← right
    Evaluation.ofExcept (test relation word a b)
  | add, left, right => BinaryOperator.add.run left right

/-- The value of a derivation. -/
def Phrase.run {l : Level} : Phrase l → Evaluation Value
  | tighter _ p => p.run
  | atom a => a.run
  | bracket _ p _ => p.run
  | not _ p => do return .bool !(← p.run).isTruthy
  | binary o left _ right => o.run left.run right.run
  | conditional condition _ _ yes _ _ no => do
    if (← condition.run).isTruthy then yes.run else no.run
  | guarded condition _ _ yes => do
    if (← condition.run).isTruthy then yes.run else return .null
  | elvis value _ _ default => do
    let v ← value.run
    if v.isNull then default.run else return v

end NaturalTemplate.Grammar
