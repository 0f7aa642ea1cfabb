import NaturalTemplate.Markup.Token.Stream

/-!
# What a stream of tokens gives

A stream gives the tokens of its source one after the other, then the error that ends them, if there
is one, and nothing ever after.
-/
namespace NaturalTemplate.Markup

namespace Tokens

/-- Tokens, and behind them the error that ends them, if there is one. -/
def items (t : Tokens) : List (Except ParseError Token) :=
  t.tokens.map .ok ++ t.error.toList.map .error

@[simp]
theorem items_nil (error : Option ParseError) :
    items ⟨[], error⟩ = error.toList.map .error := rfl

@[simp]
theorem items_prepend (ts : List Token) (t : Tokens) :
    (t.prepend ts).items = ts.map .ok ++ t.items := by
  simp [items, prepend]

end Tokens

namespace TokenStream

/-- The tokens of what was not read yet. -/
def unread (t : TokenStream) : Tokens :=
  .read t.mode t.failure t.position t.block t.body t.rest

/-- All that a stream has still to give. -/
def left (t : TokenStream) : Tokens :=
  .prepend t.pending
    (match t.stage with
      | .start => t.unread.prepend [⟨.documentStart, "", .start⟩]
      | .running => t.unread
      | .done => ⟨[], none⟩)

theorem left_ofSource (mode : Mode) (s : Source) : (ofSource mode s).left = tokenize mode s := rfl

/-- Reading the next construct hands over to the stream behind it, or ends with the error. -/
theorem unread_eq (t : TokenStream) (hstage : t.stage = .running) :
    t.unread = match t.scan with
      | .error e => ⟨[], some e⟩
      | .ok t' => t'.left := by
  obtain ⟨mode, failure, position, rest, stage, pending, block, body⟩ := t
  obtain rfl : stage = .running := hstage
  rw [unread, Tokens.read.eq_def]
  cases body with
  | some name =>
    simp only
    split
    · next hrun => simp only [scan, hrun]
    · next text rest' hrun =>
      simp only [scan, hrun, left, unread]
      split <;> rfl
  | none =>
    cases rest with
    | nil => cases failure <;> cases block <;> rfl
    | cons c cs =>
      simp only
      split
      · next hscan => simp only [scan, hscan]
      · next ls rest' hscan => simp only [scan, hscan, left, unread]

/-- Asking takes the first of what is left. -/
theorem items_next (t : TokenStream) :
    t.next.1 = t.left.items.head? ∧ t.next.2.left.items = t.left.items.tail := by
  fun_induction next t with
  | case1 t token pending hpending => simp [left, hpending, unread]
  | case2 t hpending hstage => simp [left, hpending, hstage]
  | case3 t hpending hstage => simp [left, hpending, hstage, unread]
  | case4 t hstage hpending e hscan => simp [left, hpending, hstage, unread_eq t hstage, hscan]
  | case5 t hstage hpending t' hscan ih =>
    have hleft : t.left = t'.left := by
      rw [left, hpending, hstage, unread_eq t hstage, hscan]
      rfl
    rwa [hleft]

theorem answer_eq (t : TokenStream) (n : Nat) : t.answer n = t.left.items[n]? := by
  induction n generalizing t with
  | zero => rw [answer, (items_next t).1, List.head?_eq_getElem?]
  | succ n ih => rw [answer, ih, (items_next t).2, List.getElem?_tail]

/-- A stream gives the tokens of its source in turn, then the error, and nothing ever after. -/
theorem answer_ofSource (mode : Mode) (s : Source) (n : Nat) :
    (ofSource mode s).answer n = (tokenize mode s).items[n]? := by
  rw [answer_eq, left_ofSource]

end TokenStream
end NaturalTemplate.Markup
