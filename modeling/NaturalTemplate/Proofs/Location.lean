import Mathlib.Data.List.Induction
import NaturalTemplate.Location

/-!
# Places, counted

The place behind a text can be counted without reading it character by character: one line for each
of its line ends, one column for each character behind the last of these, and its bytes. Reading a
text from its start comes to that place.
-/
namespace NaturalTemplate

/-- The number of lines that end in a text. Each of CR, LF and CR LF ends one line. -/
def lineEnds : List Char → Nat
  | [] => 0
  | '\r' :: '\n' :: cs => lineEnds cs + 1
  | c :: cs => lineEnds cs + if c = '\r' ∨ c = '\n' then 1 else 0

/-- The place behind a text. -/
def Location.after (text : String) : Location where
  line := lineEnds text.toList + 1
  column := (text.toList.reverse.takeWhile fun c => c ≠ '\r' ∧ c ≠ '\n').length + 1
  offset := text.utf8ByteSize

/-- A line feed ends no further line behind a carriage return. -/
theorem lineEnds_concat (cs : List Char) (c : Char) :
    lineEnds (cs ++ [c]) = lineEnds cs +
      if c = '\r' ∨ c = '\n' ∧ cs.getLast? ≠ some '\r' then 1 else 0 := by
  fun_induction lineEnds cs with
  | case1 => by_cases hreturn : c = '\r' <;> by_cases hfeed : c = '\n' <;> simp_all [lineEnds]
  | case2 cs ih =>
    rw [List.cons_append, List.cons_append, lineEnds, ih]
    cases cs <;> simp [List.getLast?_cons_cons] <;> omega
  | case3 d cs hnot ih =>
    cases cs with
    | nil =>
      by_cases hd : d = '\r' <;> by_cases hc : c = '\n' <;> simp_all [lineEnds, Nat.add_comm]
    | cons e es =>
      have hcons : lineEnds (d :: (e :: es ++ [c])) =
          lineEnds (e :: es ++ [c]) + if d = '\r' ∨ d = '\n' then 1 else 0 := by
        refine lineEnds.eq_3 d _ fun ds hd heq => ?_
        rw [List.cons_append, List.cons.injEq] at heq
        exact hnot es hd (by rw [heq.1])
      rw [List.cons_append, hcons, ih, List.getLast?_cons_cons]
      omega

/-- What one more character does to a place. -/
theorem Location.after_concat (cs : List Char) (c : Char) :
    after (String.ofList (cs ++ [c])) =
      { line := (after (String.ofList cs)).line +
          if c = '\r' ∨ c = '\n' ∧ cs.getLast? ≠ some '\r' then 1 else 0
        column := if c = '\r' ∨ c = '\n' then 1 else (after (String.ofList cs)).column + 1
        offset := (after (String.ofList cs)).offset + c.utf8Size } := by
  have hsize : (String.ofList (cs ++ [c])).utf8ByteSize =
      (String.ofList cs).utf8ByteSize + c.utf8Size := by
    rw [String.ofList_append, String.utf8ByteSize_append, ← String.singleton_eq_ofList,
      String.utf8ByteSize_singleton]
  unfold after
  rw [String.toList_ofList, String.toList_ofList, lineEnds_concat, hsize, List.reverse_concat,
    List.takeWhile_cons]
  obtain rfl | rfl | ⟨hreturn, hfeed⟩ : c = '\r' ∨ c = '\n' ∨ c ≠ '\r' ∧ c ≠ '\n' := by tauto
  · simp
  · simp [Nat.add_right_comm]
  · simp [hreturn, hfeed]

namespace Position

/-- Reading a text from its start comes to the place behind it. -/
theorem advanceBy_start (cs : List Char) :
    start.advanceBy cs = ⟨.after (String.ofList cs), cs.getLast? = some '\r'⟩ := by
  induction cs using List.reverseRecOn with
  | nil => rfl
  | append_singleton cs c ih =>
    rw [advanceBy_append, ih, advanceBy_cons, advanceBy_nil, advance, Location.after_concat]
    by_cases hreturn : c = '\r'
    · simp [hreturn]
    · by_cases hfeed : c = '\n'
      · by_cases hlast : cs.getLast? = some '\r' <;> simp [hfeed, hlast]
      · simp [hreturn, hfeed]

theorem location_advanceBy_start (cs : List Char) :
    (start.advanceBy cs).location = .after (String.ofList cs) := by
  rw [advanceBy_start]

/-- The offset of a position counts the bytes before it. -/
theorem offset_advanceBy (p : Position) (cs : List Char) :
    (p.advanceBy cs).location.offset = p.location.offset + (String.ofList cs).utf8ByteSize := by
  induction cs generalizing p with
  | nil => simp
  | cons c cs ih =>
    have hstep : (p.advance c).location.offset = p.location.offset + c.utf8Size := by
      unfold advance
      split
      · rfl
      · split <;> rfl
    rw [advanceBy_cons, ih, hstep, Nat.add_assoc]
    simp

end Position
end NaturalTemplate
