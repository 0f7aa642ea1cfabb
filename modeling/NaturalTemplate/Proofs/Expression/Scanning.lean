import Mathlib.Tactic.ByContra
import NaturalTemplate.Expression.Parser

/-!
# Where an expression is not cut

An expression is cut at operators that stand at its top level. A text in which no operator can stand
at the top level, whatever follows, is passed over when it is searched for one. A text that closes
what it opens, and nothing else, can be put in brackets, and no operator in it is seen from outside.
-/
namespace NaturalTemplate.Nesting

/-! ## Texts without operators -/

/-- Whether an operator may stand where some text follows, if more text comes after it. -/
def mayStand (previous : Char) (cs operator : List Char) : Bool :=
  (operator.isPrefixOf cs || cs.isPrefixOf operator) &&
    if (operator.head?.map Char.isAlpha).getD false then Text.isAsciiBlank previous else true

theorem operatorAt_append {previous : Char} {cs operator : List Char} (rest : List Char)
    (h : mayStand previous cs operator = false) :
    operatorAt previous (cs ++ rest) operator = false := by
  by_contra hat
  simp only [operatorAt, Bool.not_eq_false, Bool.and_eq_true] at hat
  obtain ⟨hstarts, hblank⟩ := hat
  have hpre := List.isPrefixOf_iff_prefix.mp hstarts
  have heither : operator.isPrefixOf cs || cs.isPrefixOf operator := by
    rw [Bool.or_eq_true, List.isPrefixOf_iff_prefix, List.isPrefixOf_iff_prefix]
    exact List.prefix_or_prefix_of_prefix hpre (List.prefix_append cs rest)
  simp only [mayStand, heither, Bool.true_and] at h
  split at h
  · next halpha => simp [halpha, h] at hblank
  · simp at h

/-- Whether none of some operators can stand at the top level of a text that follows a character,
if there is one. -/
def quiet (operators : List (List Char)) (n : Nesting) (previous : Option Char) :
    List Char → Bool
  | [] => true
  | c :: cs =>
    (!n.atTop || previous.all fun p => operators.all fun o => !mayStand p (c :: cs) o) &&
      quiet operators (n.step c) (some c) cs

/-- The character before what follows a text. -/
def lastOf (previous : Option Char) (cs : List Char) : Option Char :=
  cs.foldl (fun _ c => some c) previous

/-- What is open after a text. -/
def after (n : Nesting) (cs : List Char) : Nesting := cs.foldl step n

variable {operators smaller : List (List Char)} {n : Nesting} {previous : Option Char}
  {cs ds : List Char}

@[simp] theorem after_nil (n : Nesting) : n.after [] = n := rfl

@[simp] theorem after_cons (n : Nesting) (c : Char) (cs : List Char) :
    n.after (c :: cs) = (n.step c).after cs := rfl

@[simp] theorem after_append (n : Nesting) (cs ds : List Char) :
    n.after (cs ++ ds) = (n.after cs).after ds := List.foldl_append

@[simp] theorem lastOf_cons (previous : Option Char) (c : Char) (cs : List Char) :
    lastOf previous (c :: cs) = lastOf (some c) cs := rfl

theorem quiet_mono (h : quiet operators n previous cs = true) (hsub : smaller ⊆ operators) :
    quiet smaller n previous cs = true := by
  induction cs generalizing n previous with
  | nil => rfl
  | cons c cs ih =>
    simp only [quiet, Bool.and_eq_true, Bool.or_eq_true, Option.all_eq_true, List.all_eq_true]
      at h ⊢
    refine ⟨h.1.imp_right fun hall p hp o ho => hall p hp o (hsub ho), ih h.2⟩

theorem mayStand_append {p : Char} {o : List Char} (ds : List Char)
    (h : mayStand p cs o = false) : mayStand p (cs ++ ds) o = false := by
  by_contra hmay
  simp only [mayStand, Bool.not_eq_false, Bool.and_eq_true, Bool.or_eq_true,
    List.isPrefixOf_iff_prefix] at hmay
  have heither : o.isPrefixOf cs || cs.isPrefixOf o := by
    rw [Bool.or_eq_true, List.isPrefixOf_iff_prefix, List.isPrefixOf_iff_prefix]
    obtain hpre | hpre := hmay.1
    · exact List.prefix_or_prefix_of_prefix hpre (List.prefix_append cs ds)
    · exact .inr ((List.prefix_append cs ds).trans hpre)
  simp only [mayStand, heither, Bool.true_and] at h
  rw [h] at hmay
  exact absurd hmay.2 (by simp)

theorem quiet_append (hcs : quiet operators n previous cs = true)
    (hds : quiet operators (n.after cs) (lastOf previous cs) ds = true) :
    quiet operators n previous (cs ++ ds) = true := by
  induction cs generalizing n previous with
  | nil => exact hds
  | cons c cs ih =>
    simp only [quiet, List.cons_append, Bool.and_eq_true, Bool.or_eq_true, Option.all_eq_true,
      List.all_eq_true, Bool.not_eq_true'] at hcs ⊢
    refine ⟨hcs.1.imp_right fun hall p hp o ho => ?_, ih hcs.2 hds⟩
    exact mayStand_append ds (hall p hp o ho)

/-- A text that is quiet is passed over in the search for the first operator. -/
theorem splitFirst?_append {α : Type} {operators : List (List Char × α)}
    (h : quiet (operators.map Prod.fst) n previous cs = true) (ds : List Char) :
    splitFirst? operators n previous (cs ++ ds) =
      (splitFirst? operators (n.after cs) (lastOf previous cs) ds).map fun (left, o, right) =>
        (cs ++ left, o, right) := by
  induction cs generalizing n previous with
  | nil => simp [lastOf]
  | cons c cs ih =>
    simp only [quiet, Bool.and_eq_true, Bool.or_eq_true, Option.all_eq_true, List.all_eq_true,
      Bool.not_eq_true'] at h
    have hnone : (previous.bind fun p =>
        if n.atTop then operators.find? fun o => operatorAt p (c :: (cs ++ ds)) o.1
        else none) = none := by
      rw [Option.bind_eq_none_iff]
      intro p hp
      split
      · next htop =>
        refine List.find?_eq_none.mpr fun o ho => ?_
        have hmay := h.1.resolve_left (by simp [htop]) p hp o.1 (List.mem_map_of_mem ho)
        rw [show operatorAt p (c :: (cs ++ ds)) o.1 = false from
          operatorAt_append ds hmay]
        exact Bool.false_ne_true
      · rfl
    rw [List.cons_append, splitFirst?, hnone, ih h.2, Option.map_map]
    rfl

theorem splitFirst?_eq_none {α : Type} {operators : List (List Char × α)}
    (h : quiet (operators.map Prod.fst) n previous cs = true) :
    splitFirst? operators n previous cs = none := by
  have happend := splitFirst?_append h []
  rwa [List.append_nil] at happend

/-- A text without separators at the top level is passed over in the search for the first one. -/
theorem splitOnce?_append {separator : Char} (hletter : separator.isAlpha = false)
    (hprevious : previous.isSome)
    (h : quiet [[separator]] n previous cs = true) (ds : List Char) :
    splitOnce? separator n (cs ++ ds) =
      (splitOnce? separator (n.after cs) ds).map fun (left, right) => (cs ++ left, right) := by
  induction cs generalizing n previous with
  | nil => simp
  | cons c cs ih =>
    obtain ⟨p, rfl⟩ := Option.isSome_iff_exists.mp hprevious
    simp only [quiet, Bool.and_eq_true] at h
    have hc : ¬ (c = separator ∧ n.atTop = true) := by
      rintro ⟨rfl, htop⟩
      simp [htop, mayStand, hletter] at h
    rw [List.cons_append, splitOnce?, if_neg hc, ih rfl h.2, Option.map_map]
    rfl

theorem splitLast?_append {operator : Char} (hletter : operator.isAlpha = false)
    (h : quiet [[operator]] n previous cs = true) (ds : List Char) :
    splitLast? operator n previous (cs ++ ds) =
      (splitLast? operator (n.after cs) (lastOf previous cs) ds).map fun (left, right) =>
        (cs ++ left, right) := by
  induction cs generalizing n previous with
  | nil => simp [lastOf]
  | cons c cs ih =>
    simp only [quiet, Bool.and_eq_true] at h
    have hc : ¬ (previous.isSome = true ∧ n.atTop = true ∧ c = operator) := by
      rintro ⟨hprevious, htop, rfl⟩
      obtain ⟨p, rfl⟩ := Option.isSome_iff_exists.mp hprevious
      simp [htop, mayStand, hletter] at h
    rw [List.cons_append, splitLast?, ih h.2, if_neg hc, after_cons, lastOf_cons]
    cases splitLast? operator ((n.step c).after cs) (lastOf (some c) cs) ds <;> rfl

/-! ## Texts with operators -/

/-- Whether one of some operators stands at the top level of a text that follows a character, if
there is one. -/
def stands (operators : List (List Char)) (n : Nesting) (previous : Option Char) :
    List Char → Bool
  | [] => false
  | c :: cs =>
    (n.atTop && previous.any fun p => operators.any (operatorAt p (c :: cs))) ||
      stands operators (n.step c) (some c) cs

theorem stands_of_quiet (h : quiet operators n previous cs = true) :
    stands operators n previous cs = false := by
  induction cs generalizing n previous with
  | nil => rfl
  | cons c cs ih =>
    simp only [quiet, Bool.and_eq_true, Bool.or_eq_true, Option.all_eq_true, List.all_eq_true,
      Bool.not_eq_true'] at h
    rw [stands, ih h.2, Bool.or_false, Bool.and_eq_false_iff]
    refine h.1.imp id fun hall => ?_
    rw [Option.any_eq_false]
    intro p hp
    rw [List.any_eq_false]
    intro o ho
    rw [Bool.not_eq_true]
    have hat := operatorAt_append [] (hall p hp o ho)
    rwa [List.append_nil] at hat

theorem stands_append_operators (operators more : List (List Char)) :
    stands (operators ++ more) n previous cs =
      (stands operators n previous cs || stands more n previous cs) := by
  induction cs generalizing n previous with
  | nil => rfl
  | cons c cs ih =>
    simp only [stands, ih]
    cases n.atTop <;> cases previous <;> simp [List.any_append, Bool.or_assoc, Bool.or_left_comm]

/-- A text is not cut at some operators if none of them stands in it. -/
theorem splitFirst?_eq_none_iff {α : Type} (operators : List (List Char × α)) :
    splitFirst? operators n previous cs = none ↔
      stands (operators.map Prod.fst) n previous cs = false := by
  induction cs generalizing n previous with
  | nil => simp [splitFirst?, stands]
  | cons c cs ih =>
    have hhere : (previous.bind fun p =>
        if n.atTop then operators.find? fun o => operatorAt p (c :: cs) o.1 else none) = none ↔
        (n.atTop && previous.any fun p =>
          (operators.map Prod.fst).any (operatorAt p (c :: cs))) = false := by
      cases previous <;> cases n.atTop <;> simp
    rw [splitFirst?, stands, Bool.or_eq_false_iff, ← ih, ← hhere]
    cases previous.bind fun p =>
      if n.atTop then operators.find? fun o => operatorAt p (c :: cs) o.1 else none <;> simp

theorem splitLast?_eq_none_iff {operator : Char} (hletter : operator.isAlpha = false) :
    splitLast? operator n previous cs = none ↔ stands [[operator]] n previous cs = false := by
  induction cs generalizing n previous with
  | nil => simp [splitLast?, stands]
  | cons c cs ih =>
    rw [splitLast?, stands, Bool.or_eq_false_iff, ← ih]
    cases splitLast? operator (n.step c) (some c) cs with
    | some cut => simp
    | none =>
      by_cases hc : c = operator
      · cases previous <;> cases n.atTop <;> simp [operatorAt, hletter, hc]
      · cases previous <;> cases n.atTop <;> simp [operatorAt, hc, Ne.symm hc]

/-! ## Texts that close what they open -/

/-- Whether, at every place of a text, at least some brackets are open. -/
def StaysAt (depth : Int) (n : Nesting) : List Char → Prop
  | [] => True
  | c :: cs => depth ≤ (n.step c).depth ∧ StaysAt depth (n.step c) cs

/-- A text that closes the brackets and the literals that it opens, and no others. -/
def Balanced (cs : List Char) : Prop :=
  ∀ depth : Int, after { depth } cs = { depth } ∧ StaysAt depth { depth } cs

theorem StaysAt.append {depth : Int} (hcs : StaysAt depth n cs)
    (hds : StaysAt depth (n.after cs) ds) : StaysAt depth n (cs ++ ds) := by
  induction cs generalizing n with
  | nil => exact hds
  | cons c cs ih => exact ⟨hcs.1, ih hcs.2 hds⟩

theorem StaysAt.mono {small large : Int} (h : StaysAt large n cs) (hle : small ≤ large) :
    StaysAt small n cs := by
  induction cs generalizing n with
  | nil => trivial
  | cons c cs ih => exact ⟨Int.le_trans hle h.1, ih h.2⟩

theorem neverBelow_of_staysAt (h : StaysAt 0 n cs) : n.neverBelow cs = true := by
  induction cs generalizing n with
  | nil => rfl
  | cons c cs ih =>
    rw [neverBelow, Bool.and_eq_true]
    exact ⟨decide_eq_true h.1, ih h.2⟩

theorem neverBelow_append (n : Nesting) (cs ds : List Char) :
    n.neverBelow (cs ++ ds) = (n.neverBelow cs && (n.after cs).neverBelow ds) := by
  induction cs generalizing n with
  | nil => rfl
  | cons c cs ih => rw [List.cons_append, neverBelow, neverBelow, ih, Bool.and_assoc, after_cons]

/-- Inside brackets every text is quiet. -/
theorem quiet_of_staysAt (hn : 0 < n.depth) (h : StaysAt 1 n cs) :
    quiet operators n previous cs = true := by
  induction cs generalizing n previous with
  | nil => rfl
  | cons c cs ih =>
    have htop : n.atTop = false := by
      have hne : n.depth ≠ 0 := by omega
      simp [atTop, hne]
    rw [quiet, htop, ih (by have := h.1; omega) h.2]
    rfl

namespace Balanced

theorem append (hcs : Balanced cs) (hds : Balanced ds) : Balanced (cs ++ ds) := by
  intro depth
  obtain ⟨hcs, hstays⟩ := hcs depth
  obtain ⟨hds, hstays'⟩ := hds depth
  refine ⟨by rw [after_append, hcs, hds], hstays.append ?_⟩
  rwa [hcs]

theorem cons {c : Char} (hc : Balanced [c]) (hcs : Balanced cs) : Balanced (c :: cs) :=
  hc.append hcs

/-- The characters that open or close something. -/
def openers : List Char := ['\'', '|', '{', '(', '}', ')']

theorem step_of_not_mem {c : Char} (hc : c ∉ openers) (depth : Int) :
    step { depth } c = { depth } := by
  simp only [openers, List.mem_cons, not_or, List.not_mem_nil, not_false_iff, and_true] at hc
  obtain ⟨hquote, hbar, hbrace, hparen, hbrace', hparen'⟩ := hc
  simp [step, hquote, hbar, hbrace, hparen, hbrace', hparen']

/-- Characters that open and close nothing. -/
theorem of_plain (h : ∀ c ∈ cs, c ∉ openers) : Balanced cs := by
  intro depth
  induction cs with
  | nil => exact ⟨rfl, trivial⟩
  | cons c cs ih =>
    obtain ⟨hafter, hstays⟩ := ih fun d hd => h d (List.mem_cons_of_mem c hd)
    have hstep := step_of_not_mem (h c List.mem_cons_self) depth
    rw [after_cons, StaysAt, hstep]
    exact ⟨hafter, Int.le_refl depth, hstays⟩

/-- A balanced text in brackets. -/
theorem bracket {front back : Char} (hfront : front = '(' ∨ front = '{')
    (hback : back = ')' ∨ back = '}') (h : Balanced cs) : Balanced (front :: (cs ++ [back])) := by
  intro depth
  obtain ⟨hafter, hstays⟩ := h (depth + 1)
  have hopen : step { depth } front = { depth := depth + 1 } := by
    obtain rfl | rfl := hfront <;> simp [step]
  have hclose : step { depth := depth + 1 } back = { depth } := by
    obtain rfl | rfl := hback <;> simp [step]
  refine ⟨by simp [hopen, hafter, hclose], ?_⟩
  rw [StaysAt, hopen]
  refine ⟨by simp only; omega, (hstays.mono (by omega)).append ?_⟩
  rw [hafter, StaysAt, hclose]
  exact ⟨Int.le_refl depth, trivial⟩

end Balanced

/-- No operator is seen in what is in brackets. -/
theorem quiet_bracket {front back : Char} (hfront : front = '(' ∨ front = '{')
    (h : Balanced cs)
    (hhead : ∀ p, ∀ o ∈ operators, mayStand p (front :: (cs ++ [back])) o = false) :
    quiet operators {} previous (front :: (cs ++ [back])) = true := by
  have hopen : step {} front = { depth := 1 } := by
    obtain rfl | rfl := hfront <;> simp [step]
  obtain ⟨hafter, hstays⟩ := h 1
  rw [quiet, hopen, Bool.and_eq_true]
  refine ⟨?_, quiet_append (quiet_of_staysAt (by simp) hstays) ?_⟩
  · simp only [Bool.or_eq_true, Option.all_eq_true, List.all_eq_true, Bool.not_eq_true']
    exact .inr fun p _ o ho => hhead p o ho
  · rw [hafter]
    simp [quiet, atTop]

end NaturalTemplate.Nesting
