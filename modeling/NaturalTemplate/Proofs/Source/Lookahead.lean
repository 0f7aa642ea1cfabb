import Mathlib.Tactic.Common
import NaturalTemplate.Proofs.Text.Characters
import NaturalTemplate.Source.Lookahead

/-!
# Answers that do not depend on what comes later

A source that does not fail answers every question. What it answers is settled by the characters up
to some place: up to the end of the marker that was found, or up to a character that does not occur
in what was looked for.
-/
namespace NaturalTemplate

namespace Source

variable {pattern cs ds run rest : List Char} {p : Char → Bool} {c : Char}

theorem has_none (n : Nat) (cs : List Char) : has none n cs = .ok (decide (n ≤ cs.length)) := by
  unfold has
  by_cases h : n ≤ cs.length <;> simp [h]

@[simp]
theorem peek_none (n : Nat) (cs : List Char) : peek none n cs = .ok cs[n]? := by
  simp [peek, has_none, bind, Except.bind, pure, Except.pure]

@[simp]
theorem lookingAt_none (pattern cs : List Char) :
    lookingAt none pattern cs = .ok (pattern.isPrefixOf cs) := by
  have hlength : pattern.isPrefixOf cs = true → pattern.length ≤ cs.length := fun h =>
    (List.isPrefixOf_iff_prefix.mp h).length_le
  simp only [lookingAt, has_none, bind, Except.bind, pure, Except.pure, Except.ok.injEq]
  by_cases h : pattern.isPrefixOf cs = true
  · simp [h, hlength h]
  · simp [h]

theorem prefix_fold_take (n : Nat) (cs : List Char) : Text.fold (cs.take n) <+: Text.fold cs := by
  rw [Text.fold, List.map_take]
  exact List.take_prefix _ _

@[simp]
theorem lookingAtIgnoringCase_none (pattern cs : List Char) :
    lookingAtIgnoringCase none pattern cs =
      .ok ((Text.fold pattern).isPrefixOf (Text.fold cs)) := by
  simp only [lookingAtIgnoringCase, has_none, bind, Except.bind, pure, Except.pure,
    Except.ok.injEq]
  by_cases h : Text.fold pattern <+: Text.fold cs
  · have hlength : pattern.length ≤ cs.length := by simpa [Text.fold] using h.length_le
    have htake : Text.fold pattern <+: Text.fold (cs.take pattern.length) := by
      refine List.prefix_of_prefix_length_le h (prefix_fold_take _ cs) ?_
      simp [Text.fold, hlength]
    simp [List.isPrefixOf_iff_prefix.mpr h, List.isPrefixOf_iff_prefix.mpr htake, hlength]
  · have hnot : (Text.fold pattern).isPrefixOf (Text.fold cs) = false := by
      simpa [← List.isPrefixOf_iff_prefix] using h
    have htake : (Text.fold pattern).isPrefixOf (Text.fold (cs.take pattern.length)) = false := by
      rw [← Bool.not_eq_true, List.isPrefixOf_iff_prefix]
      exact fun hbegins' => h (hbegins'.trans (prefix_fold_take _ cs))
    simp [hnot, htake]

@[simp]
theorem readUntil_none (marker cs : List Char) :
    readUntil none marker cs = .ok (Text.splitAt? marker cs) := by
  unfold readUntil
  split <;> simp_all

@[simp]
theorem readWhile_none (p : Char → Bool) (cs : List Char) :
    readWhile none p cs = .ok (cs.takeWhile p, cs.dropWhile p) := by
  unfold readWhile
  split <;> simp_all

/-- A run that was read is read again where a character comes next that ends it. -/
theorem takeWhile_run (hrun : ∀ c ∈ run, p c = true) (hc : p c = false) (rest : List Char) :
    (run ++ c :: rest).takeWhile p = run ∧ (run ++ c :: rest).dropWhile p = c :: rest := by
  constructor
  · rw [List.takeWhile_append_of_pos hrun]
    simp [hc]
  · rw [List.dropWhile_append_of_pos hrun]
    simp [hc]

/-! ## Sources that failed -/

/-- Whether a question to a source that failed is answered as if it had not, or not at all. -/
def Agrees {ε α : Type} (f : ε) (x y : Except ε α) : Prop :=
  x = .error f ∨ x = y

namespace Agrees

variable {ε α β : Type} {f : ε}

theorem refl (x : Except ε α) : Agrees f x x := .inr rfl

/-- What is asked for may be taken to have failed, or to be what it would be without the failure. -/
@[elab_as_elim]
theorem elim {motive : Except ε α → Prop} {x y : Except ε α} (h : Agrees f x y)
    (failed : motive (.error f)) (same : motive y) : motive x := by
  obtain rfl | rfl := h
  · exact failed
  · exact same

theorem bind {x y : Except ε α} {g g' : α → Except ε β} (h : Agrees f x y)
    (hg : ∀ a, Agrees f (g a) (g' a)) : Agrees f (x >>= g) (y >>= g') := by
  obtain rfl | rfl := h
  · exact .inl rfl
  · cases x with
    | error e => exact .inr rfl
    | ok a => exact hg a

theorem map {x y : Except ε α} (h : Agrees f x y) (g : α → β) :
    Agrees f (x.map g) (y.map g) := by
  obtain rfl | rfl := h
  · exact .inl rfl
  · exact .refl _

theorem eq_ok {x y : Except ε α} {a : α} (h : Agrees f x y) (hx : x = .ok a) : y = .ok a := by
  obtain rfl | rfl := h
  · cases hx
  · exact hx

end Agrees

theorem agrees_has (f : ReadFailure) (n : Nat) (cs : List Char) :
    Agrees f (has (some f) n cs) (has none n cs) := by
  unfold has
  split
  · exact .refl _
  · exact .inl rfl

theorem agrees_peek (f : ReadFailure) (n : Nat) (cs : List Char) :
    Agrees f (peek (some f) n cs) (peek none n cs) :=
  (agrees_has f (n + 1) cs).bind fun _ => .refl _

theorem agrees_lookingAt (f : ReadFailure) (pattern cs : List Char) :
    Agrees f (lookingAt (some f) pattern cs) (lookingAt none pattern cs) :=
  (agrees_has f pattern.length cs).bind fun _ => .refl _

theorem agrees_lookingAtIgnoringCase (f : ReadFailure) (pattern cs : List Char) :
    Agrees f (lookingAtIgnoringCase (some f) pattern cs) (lookingAtIgnoringCase none pattern cs) :=
  (agrees_has f pattern.length cs).bind fun _ => .refl _

theorem agrees_readUntil (f : ReadFailure) (marker cs : List Char) :
    Agrees f (readUntil (some f) marker cs) (readUntil none marker cs) := by
  unfold readUntil
  cases Text.splitAt? marker cs
  · exact .inl rfl
  · exact .refl _

theorem agrees_readWhile (f : ReadFailure) (p : Char → Bool) (cs : List Char) :
    Agrees f (readWhile (some f) p cs) (readWhile none p cs) := by
  unfold readWhile
  cases cs.dropWhile p
  · exact .inl rfl
  · exact .refl _

theorem readUntil_eq_some_iff {failure : Option ReadFailure} {marker cs before after : List Char} :
    readUntil failure marker cs = .ok (some (before, after)) ↔
      Text.splitAt? marker cs = some (before, after) := by
  unfold readUntil
  split
  · next hnone => simp [hnone]
  · simp

/-- Where a marker does not come, a source that failed says how it did. -/
theorem readUntil_of_splitAt?_eq_none (failure : Option ReadFailure) {marker cs : List Char}
    (h : Text.splitAt? marker cs = none) :
    readUntil failure marker cs = match failure with
      | some f => .error f
      | none => .ok none := by
  cases failure <;> simp [readUntil, h]

/-! ## Prefixes -/

theorem prefix_append_of_length (h : pattern.length ≤ cs.length) (ds : List Char) :
    pattern <+: cs ++ ds ↔ pattern <+: cs :=
  ⟨fun hpattern => List.prefix_of_prefix_length_le hpattern (List.prefix_append cs ds) h,
    fun hpattern => hpattern.trans (List.prefix_append cs ds)⟩

/-- A mark without some character cannot reach beyond it. -/
theorem prefix_append_of_mem (hcs : c ∈ cs) (hpattern : c ∉ pattern) (ds : List Char) :
    pattern <+: cs ++ ds ↔ pattern <+: cs := by
  obtain hle | hlt := Nat.le_total pattern.length cs.length
  · exact prefix_append_of_length hle ds
  · refine ⟨fun h => ?_, fun h => h.trans (List.prefix_append cs ds)⟩
    have hover := List.prefix_of_prefix_length_le (List.prefix_append cs ds) h hlt
    exact absurd (hover.subset hcs) hpattern

/-- A mark cannot reach beyond a text if it does not have the next character, but where it
begins. -/
theorem prefix_append_cons (hcs : cs ≠ []) (hpattern : c ∉ pattern.tail) (ds : List Char) :
    pattern <+: cs ++ c :: ds ↔ pattern <+: cs := by
  obtain hle | hlt := Nat.lt_or_ge cs.length pattern.length
  · refine ⟨fun h => ?_, fun h => h.trans (List.prefix_append cs _)⟩
    have hover : cs ++ [c] <+: pattern := by
      refine List.prefix_of_prefix_length_le ⟨ds, by simp⟩ h ?_
      rw [List.length_append]
      exact hle
    obtain ⟨a, as, rfl⟩ := List.exists_cons_of_ne_nil hcs
    obtain ⟨more, rfl⟩ := hover
    simp at hpattern
  · exact prefix_append_of_length hlt _

theorem isPrefixOf_congr {as bs : List Char} (h : pattern <+: as ↔ pattern <+: bs) :
    pattern.isPrefixOf as = pattern.isPrefixOf bs := by
  rw [Bool.eq_iff_iff, List.isPrefixOf_iff_prefix, List.isPrefixOf_iff_prefix, h]

end Source

namespace Text

variable {marker before after : List Char}

theorem splitAt?_self (marker after : List Char) :
    splitAt? marker (marker ++ after) = some ([], after) := by
  cases h : marker ++ after with
  | nil =>
    obtain ⟨rfl, rfl⟩ := List.append_eq_nil_iff.mp h
    rfl
  | cons c cs =>
    have hmark : marker.isPrefixOf (c :: cs) = true := by
      rw [← h]
      simp
    rw [splitAt?, if_pos hmark, ← h, List.drop_left]

/-- What is found is the first occurrence of a marker. -/
theorem length_le_of_splitAt? {cs u v : List Char} (h : splitAt? marker cs = some (before, after))
    (hcs : cs = u ++ marker ++ v) : before.length ≤ u.length := by
  induction cs generalizing before u with
  | nil =>
    have hbefore := splitAt?_eq_some h
    simp_all
  | cons c cs ih =>
    rw [splitAt?] at h
    split at h
    · simp only [Option.some.injEq, Prod.mk.injEq] at h
      simp [← h.1]
    · next hmark =>
      obtain ⟨⟨b, a⟩, hrest, heq⟩ := Option.map_eq_some_iff.mp h
      simp only [Prod.mk.injEq] at heq
      obtain ⟨rfl, rfl⟩ := heq
      cases u with
      | nil =>
        rw [hcs] at hmark
        simp at hmark
      | cons d u =>
        rw [List.cons_append, List.cons_append, List.cons.injEq] at hcs
        have hlength := ih hrest hcs.2
        rw [List.length_cons, List.length_cons]
        omega

theorem splitAt?_eq_none_iff {cs : List Char} : splitAt? marker cs = none ↔ ¬ marker <:+: cs := by
  induction cs with
  | nil => simp [splitAt?]
  | cons c cs ih =>
    rw [splitAt?, List.infix_cons_iff, not_or, ← ih, ← List.isPrefixOf_iff_prefix]
    split <;> simp_all

theorem splitAt?_eq_some_iff {cs : List Char} : splitAt? marker cs = some (before, after) ↔
    cs = before ++ marker ++ after ∧ ∀ u v, cs = u ++ marker ++ v → before.length ≤ u.length := by
  refine ⟨fun h => ⟨splitAt?_eq_some h, fun u v => length_le_of_splitAt? h⟩, ?_⟩
  rintro ⟨hcs, hfirst⟩
  cases h : splitAt? marker cs with
  | none => exact absurd ⟨before, after, hcs.symm⟩ (splitAt?_eq_none_iff.mp h)
  | some found =>
    obtain ⟨b, a⟩ := found
    have hfound := splitAt?_eq_some h
    have hlength : b.length = before.length :=
      Nat.le_antisymm (length_le_of_splitAt? h hcs) (hfirst b a hfound)
    rw [hcs, List.append_assoc, List.append_assoc] at hfound
    obtain ⟨rfl, hrest⟩ := List.append_inj hfound hlength.symm
    rw [List.append_cancel_left hrest]

/-- The first occurrence of a marker is found whatever comes after it. -/
theorem splitAt?_append {ds : List Char}
    (h : splitAt? marker (before ++ (marker ++ ds)) = some (before, ds)) (after : List Char) :
    splitAt? marker (before ++ (marker ++ after)) = some (before, after) := by
  induction before with
  | nil => exact splitAt?_self marker after
  | cons c before ih =>
    rw [List.cons_append, splitAt?] at h ⊢
    split at h
    · simp at h
    · next hmark =>
      obtain ⟨⟨b, a⟩, hrest, heq⟩ := Option.map_eq_some_iff.mp h
      simp only [Prod.mk.injEq, List.cons.injEq, true_and] at heq
      obtain ⟨rfl, rfl⟩ := heq
      -- the marker would end before the text that was exchanged
      have hlength : marker.length ≤ (c :: b ++ marker).length := by
        rw [List.length_append]
        omega
      have hsame : marker.isPrefixOf (c :: (b ++ (marker ++ after))) =
          marker.isPrefixOf (c :: (b ++ (marker ++ a))) := by
        have hone := Source.prefix_append_of_length hlength after
        have htwo := Source.prefix_append_of_length hlength a
        simp only [List.append_assoc, List.cons_append] at hone htwo
        exact Source.isPrefixOf_congr (hone.trans htwo.symm)
      rw [hsame, if_neg hmark, ih hrest]
      rfl

/-- A marker whose last character is the only one of its kind does not begin before a text ends that
it stands behind. -/
theorem splitAt?_of_last {front : List Char} {c : Char} (hc : c ∉ front)
    (h : ¬ front ++ [c] <:+: before) (after : List Char) :
    splitAt? (front ++ [c]) (before ++ ((front ++ [c]) ++ after)) = some (before, after) := by
  induction before with
  | nil => exact splitAt?_self (front ++ [c]) after
  | cons d before ih =>
    have hbefore : ¬ front ++ [c] <:+: before := fun hmarked => h (List.infix_cons hmarked)
    have hmark : ¬ front ++ [c] <+: d :: before ++ ((front ++ [c]) ++ after) := by
      intro hbegins
      obtain hlt | hle := Nat.lt_or_ge front.length (d :: before).length
      · have hlength : (front ++ [c]).length ≤ (d :: before).length := by
          rw [List.length_append]
          exact hlt
        exact h ((Source.prefix_append_of_length hlength _).mp hbegins).isInfix
      · -- The part of the marker behind the text would end within the marker behind it.
        have hshort : d :: before <+: front :=
          List.prefix_of_prefix_length_le (List.prefix_append _ _)
            ((List.prefix_append front [c]).trans hbegins) hle
        obtain ⟨more, rfl⟩ := hshort
        rw [List.append_assoc, List.prefix_append_right_inj, List.append_assoc] at hbegins
        have hinside : more ++ [c] <+: d :: before ++ more := by
          refine List.prefix_of_prefix_length_le hbegins ⟨[c] ++ after, by simp⟩ ?_
          simp only [List.length_append, List.length_cons, List.length_nil]
          omega
        exact hc (hinside.subset (by simp))
    rw [List.cons_append, splitAt?, if_neg, ih hbefore]
    · rfl
    · simpa using hmark

/-- A marker of one character is found behind a text without it. -/
theorem splitAt?_singleton {c : Char} (h : c ∉ before) (after : List Char) :
    splitAt? [c] (before ++ c :: after) = some (before, after) := by
  induction before with
  | nil => simp [splitAt?]
  | cons d before ih =>
    obtain ⟨hne, hbefore⟩ := not_or.mp (List.mem_cons.not.mp h)
    simp [splitAt?, hne, ih hbefore]

theorem not_mem_of_splitAt? {c : Char} {cs : List Char}
    (h : splitAt? [c] cs = some (before, after)) : c ∉ before := by
  induction cs generalizing before with
  | nil => simp [splitAt?] at h
  | cons d cs ih =>
    rw [splitAt?] at h
    split at h
    · simp only [Option.some.injEq, Prod.mk.injEq] at h
      simp [← h.1]
    · next hne =>
      obtain ⟨⟨b, a⟩, hrest, heq⟩ := Option.map_eq_some_iff.mp h
      simp only [Prod.mk.injEq] at heq
      obtain ⟨rfl, rfl⟩ := heq
      have hd : c ≠ d := by
        rintro rfl
        simp at hne
      simp [hd, ih hrest]

end Text
end NaturalTemplate
