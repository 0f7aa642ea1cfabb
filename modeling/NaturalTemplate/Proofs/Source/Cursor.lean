import NaturalTemplate.Proofs.Location
import NaturalTemplate.Proofs.Source.Delivery
import NaturalTemplate.Proofs.Source.Lookahead
import NaturalTemplate.Source.Reader

/-!
# Readers and cursors

A reader of a text is a cursor into it. Whatever it is asked, and in whatever order, it answers what
can be seen in the text from the cursor on, and its location is that of the cursor, counted in the
text. This holds behind a pushback too, as long as what is pushed back was read last and the cursor
does not fall further behind the furthest place that was read than the reader remembers: reading
drops the oldest positions of the trail and pushing back uses up the latest, so what is left always
reaches back as far as that.
-/
namespace NaturalTemplate

/-! ## What can be asked -/

inductive Request where
  | read
  | peek (n : ℕ)
  | skip (n : ℕ)
  | lookingAt (pattern : List Char)
  | lookingAtIgnoringCase (pattern : List Char)
  | readUntil (marker : List Char)
  | readWhile (p : Char → Bool)
  | pushback (text : List Char)

inductive Answer where
  | done
  | char (c : Option Char)
  | truth (b : Bool)
  | text (cs : List Char)
  /-- The text before a marker, if there was one. -/
  | found (cs : Option (List Char))
deriving DecidableEq

namespace Reader

def perform (r : Reader) : Request → Except ReadFailure (Answer × Reader)
  | .read => r.read.map fun (c, r) => (.char c, r)
  | .peek n => (r.peek n).map fun c => (.char c, r)
  | .skip n => (r.skip n).map fun r => (.done, r)
  | .lookingAt pattern => (r.lookingAt pattern).map fun b => (.truth b, r)
  | .lookingAtIgnoringCase pattern => (r.lookingAtIgnoringCase pattern).map fun b => (.truth b, r)
  | .readUntil marker => (r.readUntil marker).map fun (cs, r) => (.found cs, r)
  | .readWhile p => (r.readWhile p).map fun (cs, r) => (.text cs, r)
  | .pushback text => .ok (.done, r.pushback text)

/-- What a reader answers to one request after the other, and where it stands after each. -/
def performAll (r : Reader) : List Request → Except ReadFailure (List (Answer × Location))
  | [] => .ok []
  | q :: qs =>
    match r.perform q with
    | .error f => .error f
    | .ok (a, r) => (r.performAll qs).map ((a, r.location) :: ·)

end Reader

/-! ## Cursors -/

/-- A place in a text, and the furthest place that was read so far. -/
structure Cursor where
  text : List Char
  place : ℕ := 0
  furthest : ℕ := 0

namespace Cursor

def ofString (s : String) : Cursor := { text := s.toList }

def location (c : Cursor) : Location := .after (String.ofList (c.text.take c.place))

/-- The text from the cursor up to a place. -/
def upTo (c : Cursor) (i : ℕ) : List Char := (c.text.take i).drop c.place

/-- So many characters from the cursor on. -/
def ahead (c : Cursor) (n : ℕ) : List Char := (c.text.drop c.place).take n

/-- The first place from the cursor on at which a text stands. -/
def occurrence? (c : Cursor) (marker : List Char) : Option ℕ :=
  (List.range' c.place (c.text.length + 1 - c.place)).find? fun i =>
    (c.text.drop i).take marker.length = marker

/-- The first place from the cursor on at which no character with a property stands. -/
def runEnd (c : Cursor) (p : Char → Bool) : ℕ :=
  ((List.range' c.place (c.text.length - c.place)).find? fun i =>
    c.text[i]?.any (!p ·)).getD c.text.length

def answer (c : Cursor) : Request → Answer
  | .read => .char c.text[c.place]?
  | .peek n => .char c.text[c.place + n]?
  | .lookingAt pattern => .truth (c.ahead pattern.length = pattern)
  | .lookingAtIgnoringCase pattern =>
    .truth ((c.ahead pattern.length).map Char.toLower = pattern.map Char.toLower)
  | .readUntil marker => .found ((c.occurrence? marker).map c.upTo)
  | .readWhile p => .text (c.upTo (c.runEnd p))
  | .skip _ | .pushback _ => .done

/-- Where a request takes the cursor. -/
def target (c : Cursor) : Request → ℕ
  | .read => min (c.place + 1) c.text.length
  | .skip n => min (c.place + n) c.text.length
  | .readUntil marker =>
    match c.occurrence? marker with
    | some i => i + marker.length
    | none => c.text.length
  | .readWhile p => c.runEnd p
  | .pushback text => c.place - text.length
  | .peek _ | .lookingAt _ | .lookingAtIgnoringCase _ => c.place

def goTo (c : Cursor) (i : ℕ) : Cursor := ⟨c.text, i, max c.furthest i⟩

def move (c : Cursor) (q : Request) : Cursor := c.goTo (c.target q)

/-- What is pushed back has to be what was read last, and no further away from the furthest place
than a reader remembers. -/
def Allows (c : Cursor) : Request → Prop
  | .pushback text =>
    text <:+ c.text.take c.place ∧ c.furthest ≤ c.place - text.length + Reader.memory
  | _ => True

instance (c : Cursor) : (q : Request) → Decidable (c.Allows q)
  | .pushback _ => inferInstanceAs (Decidable (_ ∧ _))
  | .read | .peek _ | .skip _ | .lookingAt _ | .lookingAtIgnoringCase _ | .readUntil _
  | .readWhile _ => .isTrue trivial

def AllowsAll (c : Cursor) : List Request → Prop
  | [] => True
  | q :: qs => c.Allows q ∧ (c.move q).AllowsAll qs

instance (c : Cursor) : (qs : List Request) → Decidable (c.AllowsAll qs)
  | [] => .isTrue trivial
  | _ :: qs => @instDecidableAnd _ _ _ (instDecidableAllowsAll _ qs)

/-- The answers to one request after the other, and the location after each. -/
def outcomes (c : Cursor) : List Request → List (Answer × Location)
  | [] => []
  | q :: qs => (c.answer q, (c.move q).location) :: (c.move q).outcomes qs

/-! ## What is asked, in the text -/

section

variable {c : Cursor}

theorem upTo_add (c : Cursor) (n : ℕ) : c.upTo (c.place + n) = c.ahead n := by
  rw [upTo, ahead, List.drop_take, Nat.add_sub_cancel_left]

/-- A text stands so far behind the cursor. -/
theorem take_drop_eq_iff {marker : List Char} {n : ℕ} (hn : c.place + n ≤ c.text.length) :
    (c.text.drop (c.place + n)).take marker.length = marker ↔
      ∃ u v, c.text.drop c.place = u ++ marker ++ v ∧ u.length = n := by
  rw [← List.drop_drop, eq_comm, ← List.prefix_iff_eq_take]
  constructor
  · rintro ⟨v, hv⟩
    refine ⟨(c.text.drop c.place).take n, v, ?_, ?_⟩
    · rw [List.append_assoc, hv, List.take_append_drop]
    · rw [List.length_take, List.length_drop]
      omega
  · rintro ⟨u, v, htext, rfl⟩
    rw [htext, List.append_assoc, List.drop_left]
    exact List.prefix_append marker v

/-- The first occurrence from the cursor on is the first in what is left. -/
theorem occurrence?_eq (hplace : c.place ≤ c.text.length) (marker : List Char) :
    c.occurrence? marker =
      (Text.splitAt? marker (c.text.drop c.place)).map fun found => c.place + found.1.length := by
  unfold occurrence?
  cases h : Text.splitAt? marker (c.text.drop c.place) with
  | none =>
    refine List.find?_range'_eq_none.mpr fun i hi hlt => ?_
    obtain ⟨n, rfl⟩ := Nat.exists_eq_add_of_le hi
    have hnot := Text.splitAt?_eq_none_iff.mp h
    have hmark : ¬ (c.text.drop (c.place + n)).take marker.length = marker := by
      rw [take_drop_eq_iff (by omega)]
      rintro ⟨u, v, htext, -⟩
      exact hnot ⟨u, v, htext.symm⟩
    simpa using hmark
  | some found =>
    obtain ⟨before, after⟩ := found
    obtain ⟨htext, hfirst⟩ := Text.splitAt?_eq_some_iff.mp h
    have hlength := congrArg List.length htext
    simp only [List.length_drop, List.length_append] at hlength
    change _ = some (c.place + before.length)
    refine List.find?_range'_eq_some.mpr ⟨?_, ?_, fun i hi hlt => ?_⟩
    · exact decide_eq_true ((take_drop_eq_iff (by omega)).mpr ⟨before, after, htext, rfl⟩)
    · rw [List.mem_range'_1]
      omega
    · obtain ⟨n, rfl⟩ := Nat.exists_eq_add_of_le hi
      have hmark : ¬ (c.text.drop (c.place + n)).take marker.length = marker := by
        rw [take_drop_eq_iff (by omega)]
        rintro ⟨u, v, htext', rfl⟩
        have hle := hfirst u v htext'
        omega
      simpa using hmark

/-- A run of characters goes as far as the characters of what is left have the property. -/
theorem runEnd_eq (hplace : c.place ≤ c.text.length) (p : Char → Bool) :
    c.runEnd p = c.place + ((c.text.drop c.place).takeWhile p).length := by
  have hsplit := List.takeWhile_append_dropWhile (p := p) (l := c.text.drop c.place)
  have hrun : ∀ d ∈ (c.text.drop c.place).takeWhile p, p d = true :=
    List.all_eq_true.mp List.all_takeWhile
  generalize (c.text.drop c.place).takeWhile p = run at *
  have hlength := congrArg List.length hsplit
  simp only [List.length_drop, List.length_append] at hlength
  have hin {n : ℕ} (hn : n < run.length) : c.text[c.place + n]?.any (!p ·) = false := by
    have hget : c.text[c.place + n]? = some run[n] := by
      rw [← List.getElem?_drop, ← hsplit, List.getElem?_append_left hn,
        List.getElem?_eq_getElem hn]
    simp [hget, hrun _ (List.getElem_mem hn)]
  unfold runEnd
  cases hrest : (c.text.drop c.place).dropWhile p with
  | nil =>
    rw [hrest] at hlength
    rw [List.find?_range'_eq_none.mpr fun i hi hlt => ?_]
    · rw [Option.getD_none]
      simp only [List.length_nil] at hlength
      omega
    · obtain ⟨n, rfl⟩ := Nat.exists_eq_add_of_le hi
      rw [hrest, List.length_nil] at *
      simp [hin (n := n) (by omega)]
  | cons d rest =>
    have hd : p d = false := by
      have hhead := List.head?_dropWhile_not p (c.text.drop c.place)
      simpa [hrest] using hhead
    have hfind : (List.range' c.place (c.text.length - c.place)).find?
        (fun i => c.text[i]?.any (!p ·)) = some (c.place + run.length) := by
      rw [hrest, List.length_cons] at hlength
      refine List.find?_range'_eq_some.mpr ⟨?_, ?_, fun i hi hlt => ?_⟩
      · rw [← List.getElem?_drop, ← hsplit, hrest]
        simp [hd]
      · rw [List.mem_range'_1]
        omega
      · obtain ⟨n, rfl⟩ := Nat.exists_eq_add_of_le hi
        simp [hin (n := n) (by omega)]
    rw [hfind, Option.getD_some]

end
end Cursor

/-! ## Readers at a cursor -/

/-- The positions of the characters before a place, the latest first. -/
def Position.behind (text : List Char) : ℕ → List Position
  | 0 => []
  | n + 1 => Position.start.advanceBy (text.take n) :: behind text n

namespace Position

theorem drop_behind (text : List Char) {k n : ℕ} (hk : k ≤ n) :
    (behind text n).drop k = behind text (n - k) := by
  induction n generalizing k with
  | zero =>
    obtain rfl := Nat.le_zero.mp hk
    rfl
  | succ n ih =>
    cases k with
    | zero => rfl
    | succ k => rw [behind, List.drop_succ_cons, ih (by omega), Nat.add_sub_add_right]

theorem getElem?_behind (text : List Char) {k n : ℕ} (hk : k < n) :
    (behind text n)[k]? = some (.advanceBy .start (text.take (n - (k + 1)))) := by
  have hdrop := congrArg List.head? (drop_behind text (Nat.le_of_lt hk))
  obtain ⟨m, hm⟩ : ∃ m, n - k = m + 1 := ⟨n - (k + 1), by omega⟩
  rw [List.head?_drop, hm, behind, List.head?_cons] at hdrop
  rw [hdrop, Nat.sub_add_eq, hm, Nat.add_sub_cancel]

end Position

namespace Reader

/-- Whether a reader is at a cursor. Its trail is a part of the positions behind the cursor, and
reaches back as far as something may still be pushed back. -/
structure At (r : Reader) (c : Cursor) : Prop where
  inside : c.place ≤ c.text.length
  reached : c.place ≤ c.furthest
  rest : r.rest = c.text.drop c.place
  failure : r.failure = none
  position : r.position = .advanceBy .start (c.text.take c.place)
  trail : r.trail <+: Position.behind c.text c.place
  reach : min c.place (memory + c.place - c.furthest) ≤ r.trail.length

theorem at_ofSource (s : String) : (ofSource (.ofString s)).At (.ofString s) where
  inside := Nat.zero_le _
  reached := Nat.le_refl _
  rest := rfl
  failure := rfl
  position := rfl
  trail := List.prefix_refl _
  reach := Nat.zero_le _

namespace At

variable {r : Reader} {c : Cursor}

theorem location (h : r.At c) : r.location = c.location := by
  rw [Reader.location, h.position, Position.location_advanceBy_start, Cursor.location]

theorem take_one (h : r.At c) (hlt : c.place < c.text.length) :
    (r.take 1).At (c.goTo (c.place + 1)) := by
  have hrest : r.rest = c.text[c.place] :: c.text.drop (c.place + 1) := by
    rw [h.rest, List.drop_eq_getElem_cons hlt]
  have htext : c.text.take (c.place + 1) = c.text.take c.place ++ [c.text[c.place]] :=
    List.take_succ_eq_append_getElem hlt
  have htake : r.take 1 = { r with
      rest := c.text.drop (c.place + 1)
      position := r.position.advance c.text[c.place]
      trail := (r.position :: r.trail).take memory } := by
    rw [take, hrest]
    rfl
  have hreach := h.reach
  rw [htake]
  refine ⟨hlt, Nat.le_max_right .., rfl, h.failure, ?_, ?_, ?_⟩
  · rw [h.position, Cursor.goTo, htext, Position.advanceBy_append]
    rfl
  · rw [h.position]
    exact (List.take_prefix _ _).trans (List.cons_prefix_cons.mpr ⟨rfl, h.trail⟩)
  · rw [List.length_take, List.length_cons]
    simp only [Cursor.goTo]
    omega

theorem goTo_place (h : r.At c) : c.goTo c.place = c := by
  rw [Cursor.goTo, Nat.max_eq_left h.reached]

theorem stay (h : r.At c) : r.At (c.goTo c.place) := by
  rw [h.goTo_place]
  exact h

/-- At the end of the text there is nothing more to take. -/
theorem take (h : r.At c) (n : ℕ) : (r.take n).At (c.goTo (min (c.place + n) c.text.length)) := by
  induction n generalizing r c with
  | zero =>
    rw [Nat.add_zero, Nat.min_eq_left h.inside]
    exact h.stay
  | succ n ih =>
    by_cases hlt : c.place < c.text.length
    · have hstep : r.take (n + 1) = (r.take 1).take n := by
        rw [Reader.take, Reader.take, h.rest, List.drop_eq_getElem_cons hlt]
        rfl
      have hgo : (c.goTo (c.place + 1)).goTo (min (c.place + 1 + n) c.text.length) =
          c.goTo (min (c.place + (n + 1)) c.text.length) := by
        simp only [Cursor.goTo, Cursor.mk.injEq, true_and]
        omega
      rw [hstep, ← hgo]
      exact ih (h.take_one hlt)
    · have hend : c.place = c.text.length := Nat.le_antisymm h.inside (Nat.le_of_not_lt hlt)
      have hstep : r.take (n + 1) = r := by
        rw [Reader.take, h.rest, List.drop_eq_nil_of_le (Nat.le_of_eq hend.symm)]
      rw [hstep, Nat.min_eq_right (by omega), ← hend]
      exact h.stay

/-- What was taken last and is still remembered can be pushed back. -/
theorem pushback (h : r.At c) {text : List Char} (htext : text <:+ c.text.take c.place)
    (hreach : c.furthest ≤ c.place - text.length + memory) :
    (r.pushback text).At (c.goTo (c.place - text.length)) := by
  have hinside := h.inside
  have hreached := h.reached
  have hlength : text.length ≤ c.place := by
    have hle := htext.length_le
    rw [List.length_take] at hle
    omega
  have hkept : text.length ≤ r.trail.length := by
    have hkept := h.reach
    omega
  have htaken : r.trail.take text.length = (Position.behind c.text c.place).take text.length := by
    obtain ⟨more, hmore⟩ := h.trail
    rw [← hmore, List.take_append_of_le_length hkept]
  refine ⟨Nat.le_trans (Nat.sub_le ..) hinside, Nat.le_max_right .., ?_, h.failure, ?_, ?_, ?_⟩
  · obtain ⟨front, hfront⟩ := htext
    have hplace : c.place - text.length = front.length := by
      have hsum := congrArg List.length hfront
      rw [List.length_append, List.length_take] at hsum
      omega
    have hwhole : c.text = front ++ (text ++ r.rest) := by
      rw [← List.append_assoc, hfront, h.rest, List.take_append_drop]
    simp only [Reader.pushback, Cursor.goTo, hplace]
    rw [hwhole, List.drop_left]
  · simp only [Reader.pushback, Cursor.goTo, htaken]
    cases hcount : text.length with
    | zero => simpa using h.position
    | succ k =>
      rw [List.getLast?_take, if_neg (Nat.succ_ne_zero k), Nat.add_sub_cancel,
        Position.getElem?_behind c.text (by omega)]
      rfl
  · simp only [Reader.pushback, Cursor.goTo]
    rw [← Position.drop_behind c.text hlength]
    exact h.trail.drop _
  · have hkept := h.reach
    simp only [Reader.pushback, Cursor.goTo, List.length_drop]
    omega

theorem perform_readUntil (h : r.At c) (marker : List Char) :
    ∃ r', r.perform (.readUntil marker) = .ok (c.answer (.readUntil marker), r') ∧
      r'.At (c.move (.readUntil marker)) := by
  have hfind := Cursor.occurrence?_eq h.inside marker
  cases hsplit : Text.splitAt? marker (c.text.drop c.place) with
  | none =>
    rw [hsplit, Option.map_none] at hfind
    have htake := h.take r.rest.length
    have hend : min (c.place + r.rest.length) c.text.length = c.text.length := by
      rw [h.rest, List.length_drop]
      omega
    refine ⟨r.take r.rest.length, ?_, ?_⟩
    · simp [Reader.perform, Reader.readUntil, h.failure, h.rest, hsplit, hfind, Cursor.answer,
        Except.map, bind, Except.bind, pure, Except.pure]
    · rw [hend] at htake
      simpa only [Cursor.move, Cursor.target, hfind] using htake
  | some found =>
    obtain ⟨before, after⟩ := found
    rw [hsplit, Option.map_some] at hfind
    have hinside := h.inside
    have htext := Text.splitAt?_eq_some hsplit
    have hlength := congrArg List.length htext
    simp only [List.length_drop, List.length_append] at hlength
    have hbefore : c.upTo (c.place + before.length) = before := by
      rw [Cursor.upTo_add, Cursor.ahead, htext, List.append_assoc, List.take_left]
    have htake := h.take (before.length + marker.length)
    rw [Nat.min_eq_left (by omega), ← Nat.add_assoc] at htake
    refine ⟨r.take (before.length + marker.length), ?_, ?_⟩
    · simp [Reader.perform, Reader.readUntil, h.failure, h.rest, hsplit, hfind, hbefore,
        Cursor.answer, Except.map, bind, Except.bind, pure, Except.pure]
    · simpa only [Cursor.move, Cursor.target, hfind] using htake

theorem perform_readWhile (h : r.At c) (p : Char → Bool) :
    ∃ r', r.perform (.readWhile p) = .ok (c.answer (.readWhile p), r') ∧
      r'.At (c.move (.readWhile p)) := by
  have hinside := h.inside
  have hend := Cursor.runEnd_eq hinside p
  have hlength := List.Sublist.length_le (List.takeWhile_sublist p (l := c.text.drop c.place))
  rw [List.length_drop] at hlength
  have hrun : c.upTo (c.runEnd p) = (c.text.drop c.place).takeWhile p := by
    rw [hend, Cursor.upTo_add, Cursor.ahead]
    exact (List.prefix_iff_eq_take.mp (List.takeWhile_prefix p)).symm
  have htake := h.take ((c.text.drop c.place).takeWhile p).length
  rw [Nat.min_eq_left (by omega), ← hend] at htake
  refine ⟨_, ?_, htake⟩
  simp [Reader.perform, Reader.readWhile, h.failure, h.rest, hrun, Cursor.answer, Except.map,
    bind, Except.bind, pure, Except.pure]

/-- A reader at a cursor answers as the cursor does, and is at the cursor again. -/
theorem perform (h : r.At c) {q : Request} (hq : c.Allows q) :
    ∃ r', r.perform q = .ok (c.answer q, r') ∧ r'.At (c.move q) := by
  cases q with
  | read =>
    refine ⟨r.take 1, ?_, h.take 1⟩
    simp [Reader.perform, Reader.read, Reader.peek, h.failure, h.rest, Cursor.answer, Except.map,
      bind, Except.bind, pure, Except.pure]
  | peek n =>
    refine ⟨r, ?_, h.stay⟩
    simp [Reader.perform, Reader.peek, h.failure, h.rest, Cursor.answer, Except.map]
  | skip n =>
    refine ⟨r.take n, ?_, h.take n⟩
    simp [Reader.perform, Reader.skip, h.failure, Source.has_none, Cursor.answer, Except.map,
      bind, Except.bind, pure, Except.pure]
  | lookingAt pattern =>
    refine ⟨r, ?_, h.stay⟩
    have hprefix : pattern.isPrefixOf (c.text.drop c.place) =
        decide (c.ahead pattern.length = pattern) := by
      rw [Bool.eq_iff_iff, List.isPrefixOf_iff_prefix, decide_eq_true_iff,
        List.prefix_iff_eq_take, eq_comm]
      rfl
    simp [Reader.perform, Reader.lookingAt, h.failure, h.rest, hprefix, Cursor.answer, Except.map]
  | lookingAtIgnoringCase pattern =>
    refine ⟨r, ?_, h.stay⟩
    have hprefix : (Text.fold pattern).isPrefixOf (Text.fold (c.text.drop c.place)) =
        decide ((c.ahead pattern.length).map Char.toLower = pattern.map Char.toLower) := by
      rw [Bool.eq_iff_iff, List.isPrefixOf_iff_prefix, decide_eq_true_iff,
        List.prefix_iff_eq_take, eq_comm, Cursor.ahead, List.map_take]
      simp [Text.fold]
    simp [Reader.perform, Reader.lookingAtIgnoringCase, h.failure, h.rest, hprefix, Cursor.answer,
      Except.map]
  | readUntil marker => exact h.perform_readUntil marker
  | readWhile p => exact h.perform_readWhile p
  | pushback text => exact ⟨r.pushback text, rfl, h.pushback hq.1 hq.2⟩

theorem performAll (h : r.At c) {qs : List Request} (hqs : c.AllowsAll qs) :
    r.performAll qs = .ok (c.outcomes qs) := by
  induction qs generalizing r c with
  | nil => rfl
  | cons q qs ih =>
    obtain ⟨r', hperform, hr'⟩ := h.perform hqs.1
    have hrest := ih hr' hqs.2
    simp only [Reader.performAll, hperform, hrest, hr'.location, Except.map, Cursor.outcomes]

end At

/-- A reader of the bytes of a text is a cursor into the text: it gives the answers and has the
locations of the cursor, wherever the bytes were cut, and no request fails. -/
theorem performAll_of_delivered {reads : List Read} {s : String}
    (hreads : Source.delivered reads = some s.toUTF8.data.toList) {qs : List Request}
    (hqs : (Cursor.ofString s).AllowsAll qs) :
    (ofSource (.ofReads reads)).location = (Cursor.ofString s).location ∧
      (ofSource (.ofReads reads)).performAll qs = .ok ((Cursor.ofString s).outcomes qs) := by
  have hstart := at_ofSource s
  rw [Source.ofReads_of_delivered hreads]
  exact ⟨hstart.location, hstart.performAll hqs⟩

/-- Two bytes of a character come one by one, and a line end is pushed back as a whole, then its
second character. -/
theorem performAll_of_delivered_lineEnd :
    let reads : List Read := [.bytes [0xC3], .interrupted, .bytes [0xA9, 0x0D],
      .bytes [0x0A, 0x78, 0x2D, 0x3E], .bytes []]
    let qs : List Request := [.lookingAtIgnoringCase ['é', '\r'], .skip 4,
      .pushback ['\r', '\n', 'x'], .read, .read, .pushback ['\n'], .readWhile (· ≠ 'x'),
      .readUntil ['-', '>'], .read]
    Source.delivered reads = some "é\r\nx->".toUTF8.data.toList ∧
      (Cursor.ofString "é\r\nx->").AllowsAll qs ∧
      (ofSource (.ofReads reads)).performAll qs = .ok
        [(.truth true, ⟨1, 1, 0⟩), (.done, ⟨2, 2, 5⟩), (.done, ⟨1, 2, 2⟩),
          (.char (some '\r'), ⟨2, 1, 3⟩), (.char (some '\n'), ⟨2, 1, 4⟩), (.done, ⟨2, 1, 3⟩),
          (.text ['\n'], ⟨2, 1, 4⟩), (.found (some ['x']), ⟨2, 4, 7⟩),
          (.char none, ⟨2, 4, 7⟩)] := by
  intro reads qs
  have hreads : Source.delivered reads = some "é\r\nx->".toUTF8.data.toList := by decide +kernel
  have hqs : (Cursor.ofString "é\r\nx->").AllowsAll qs := by decide +kernel
  refine ⟨hreads, hqs, ?_⟩
  rw [(performAll_of_delivered hreads hqs).2]
  decide +kernel

end Reader
end NaturalTemplate
