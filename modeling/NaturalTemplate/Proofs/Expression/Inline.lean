import NaturalTemplate.Expression.Inline
import NaturalTemplate.Proofs.Source.Lookahead

/-!
# Expanding text from left to right

A text could be expanded from left to right: where an expression begins that is closed, its value is
written, and any other character is copied. Expansion does so up to the first opening mark that is
not closed, and copies all from there on. The two come to the same exactly if no expression behind
that mark is closed; one of the other kind may be.
-/
namespace NaturalTemplate.Inline

/-! ## Expressions in a text -/

def opening (escaped : Bool) : List Char := if escaped then ['[', '['] else ['[', '(']

def closing (escaped : Bool) : List Char := if escaped then [']', ']'] else [')', ']']

/-- Which opening mark a text begins with, and what comes behind it. -/
def mark? : List Char → Option (Bool × List Char)
  | '[' :: '[' :: rest => some (true, rest)
  | '[' :: '(' :: rest => some (false, rest)
  | _ => none

/-- An expression that a text begins with. -/
structure Found where
  escaped : Bool
  inside : List Char
  after : List Char
deriving DecidableEq

/-- The expression that a text begins with, up to the first closing mark. -/
def expression? (cs : List Char) : Option Found :=
  (mark? cs).bind fun (escaped, rest) =>
    (Text.splitAt? (closing escaped) rest).map fun (inside, after) => ⟨escaped, inside, after⟩

/-- Whether a text begins with an opening mark that is not closed. -/
def unclosed (cs : List Char) : Bool := (mark? cs).isSome && (expression? cs).isNone

theorem mark?_eq_some_iff {cs rest : List Char} {escaped : Bool} :
    mark? cs = some (escaped, rest) ↔ cs = opening escaped ++ rest := by
  constructor
  · intro h
    unfold mark? at h
    split at h <;> simp_all [opening]
  · rintro rfl
    cases escaped <;> rfl

theorem expression?_eq_some_iff {cs : List Char} {f : Found} : expression? cs = some f ↔
    cs = opening f.escaped ++ (f.inside ++ closing f.escaped ++ f.after) ∧
      ∀ u v, f.inside ++ closing f.escaped ++ f.after = u ++ closing f.escaped ++ v →
        f.inside.length ≤ u.length := by
  obtain ⟨escaped, inside, after⟩ := f
  simp only [expression?, Option.bind_eq_some_iff, Prod.exists, mark?_eq_some_iff,
    Option.map_eq_some_iff, Text.splitAt?_eq_some_iff, Found.mk.injEq]
  constructor
  · rintro ⟨_, rest, rfl, _, _, ⟨hrest, hfirst⟩, rfl, rfl, rfl⟩
    exact ⟨by rw [hrest], hrest ▸ hfirst⟩
  · rintro ⟨rfl, hfirst⟩
    exact ⟨escaped, _, rfl, inside, after, ⟨rfl, hfirst⟩, rfl, rfl, rfl⟩

theorem length_of_expression? {cs : List Char} {f : Found} (h : expression? cs = some f) :
    f.after.length < cs.length := by
  have hcs := congrArg List.length (expression?_eq_some_iff.mp h).1
  have hopening : (opening f.escaped).length = 2 := by cases f.escaped <;> rfl
  simp only [List.length_append] at hcs
  omega

/-! ## The reading from left to right -/

/-- What is written, if nothing fails, and whether an expression was expanded. -/
abbrev Written := Except EngineError (List Char × Bool) × Context

/-- Puts text in front of what is written. -/
def Written.prepend (front : List Char) (expanded : Bool) : Written → Written
  | (.ok (back, any), c) => (.ok (front ++ back, expanded || any), c)
  | (.error e, c) => (.error e, c)

/-- Expands a text from left to right, up to where it is to stop; the rest is copied. -/
def leftToRight (stops : List Char → Bool) (ev : Evaluator) (cs : List Char) (c : Context) :
    Written :=
  match cs with
  | [] => (.ok ([], false), c)
  | k :: ks =>
    if stops (k :: ks) then (.ok (k :: ks, false), c)
    else
      match _ : expression? (k :: ks) with
      | some f =>
        match (Segment.expression f.inside f.escaped).expand ev c with
        | (.ok s, c) => (leftToRight stops ev f.after c).prepend s.toList true
        | (.error e, c) => (.error e, c)
      | none => (leftToRight stops ev ks c).prepend [k] false
termination_by cs.length
decreasing_by
  · exact length_of_expression? ‹_›
  · exact Nat.lt_succ_self _

/-- The outcome for a text, which is none where nothing was expanded. -/
def Written.outcome : Written → Except EngineError (Option String) × Context
  | (.ok (out, any), c) => (.ok (if any then some (String.ofList out) else none), c)
  | (.error e, c) => (.error e, c)

/-- Where expansion stops: what is left from the first opening mark on that is not closed. -/
def unread (cs : List Char) : List Char :=
  match cs with
  | [] => []
  | k :: ks =>
    if unclosed (k :: ks) then k :: ks
    else
      match _ : expression? (k :: ks) with
      | some f => unread f.after
      | none => unread ks
termination_by cs.length
decreasing_by
  · exact length_of_expression? ‹_›
  · exact Nat.lt_succ_self _

section
variable {cs ks : List Char} {k : Char} {f : Found}

theorem mark?_of_unclosed_eq_false (hclosed : unclosed cs = false) (h : expression? cs = none) :
    mark? cs = none := by
  simpa [unclosed, h] using hclosed

theorem segments_expression (h : expression? cs = some f) :
    segments cs = .expression f.inside f.escaped :: segments f.after := by
  obtain ⟨hcs, hfirst⟩ := expression?_eq_some_iff.mp h
  have hfind := Text.splitAt?_eq_some_iff.mpr ⟨rfl, hfirst⟩
  obtain ⟨escaped, inside, after⟩ := f
  cases escaped with
  | true =>
    rw [hcs, opening, if_pos rfl, List.cons_append, List.cons_append, segments]
    split <;> simp_all [closing]
  | false =>
    rw [hcs, opening, if_neg Bool.false_ne_true, List.cons_append, List.cons_append, segments]
    split <;> simp_all [closing]

theorem segments_unclosed (h : unclosed cs = true) : segments cs = [.literal cs] := by
  rw [unclosed, Bool.and_eq_true] at h
  obtain ⟨hmark, hopen⟩ := h
  obtain ⟨⟨escaped, rest⟩, hmark⟩ := Option.isSome_iff_exists.mp hmark
  have hfind : Text.splitAt? (closing escaped) rest = none := by
    simpa [expression?, hmark] using hopen
  rw [mark?_eq_some_iff.mp hmark]
  cases escaped with
  | true =>
    rw [opening, if_pos rfl, List.cons_append, List.cons_append, segments]
    split <;> simp_all [closing]
  | false =>
    rw [opening, if_neg Bool.false_ne_true, List.cons_append, List.cons_append, segments]
    split <;> simp_all [closing]

theorem segments_copy (hclosed : unclosed (k :: ks) = false) (h : expression? (k :: ks) = none) :
    segments (k :: ks) = .literal [k] :: segments ks := by
  have hmark := mark?_of_unclosed_eq_false hclosed h
  rw [segments]
  · rintro rest rfl rfl
    cases hmark
  · rintro rest rfl rfl
    cases hmark

theorem unclosed_of_expression? (h : expression? cs = some f) : unclosed cs = false := by
  simp [unclosed, h]

theorem unread_expression (h : expression? cs = some f) : unread cs = unread f.after := by
  cases cs with
  | nil => cases h
  | cons k ks =>
    rw [unread, if_neg (by simp [unclosed_of_expression? h])]
    split
    · next g hfind => rw [Option.some.inj (h.symm.trans hfind)]
    · next hfind => cases h.symm.trans hfind

theorem unread_copy (hclosed : unclosed (k :: ks) = false) (h : expression? (k :: ks) = none) :
    unread (k :: ks) = unread ks := by
  rw [unread, if_neg (by simp [hclosed])]
  split
  · next g hfind => cases h.symm.trans hfind
  · rfl

variable {stops : List Char → Bool} {ev : Evaluator} {c : Context}

theorem leftToRight_expression (hstops : stops cs = false) (h : expression? cs = some f) :
    leftToRight stops ev cs c =
      match (Segment.expression f.inside f.escaped).expand ev c with
      | (.ok s, c) => (leftToRight stops ev f.after c).prepend s.toList true
      | (.error e, c) => (.error e, c) := by
  cases cs with
  | nil => cases h
  | cons k ks =>
    rw [leftToRight, if_neg (by simp [hstops])]
    split
    · next g hfind => rw [Option.some.inj (h.symm.trans hfind)]
    · next hfind => cases h.symm.trans hfind

theorem leftToRight_copy (hstops : stops (k :: ks) = false) (h : expression? (k :: ks) = none) :
    leftToRight stops ev (k :: ks) c = (leftToRight stops ev ks c).prepend [k] false := by
  rw [leftToRight, if_neg (by simp [hstops])]
  split
  · next g hfind => cases h.symm.trans hfind
  · rfl

end

/-- Expansion is the reading from left to right that stops where an expression is not closed. -/
theorem leftToRight_unclosed (ev : Evaluator) (cs : List Char) (c : Context) :
    leftToRight unclosed ev cs c =
      match expandAll ev (segments cs) c with
      | (.ok s, c) => (.ok (s.toList, (segments cs).any Segment.isExpression), c)
      | (.error e, c) => (.error e, c) := by
  fun_induction leftToRight unclosed ev cs c with
  | case1 c => simp [segments, expandAll]
  | case2 c k ks hopen =>
    rw [segments_unclosed hopen]
    simp [expandAll, Segment.expand, Segment.isExpression]
  | case3 c k ks hclosed f hfind s d hexpand ih =>
    rw [ih, segments_expression hfind, expandAll, hexpand]
    cases hrest : expandAll ev (segments f.after) d with
    | mk r d' => cases r <;> simp [hrest, Written.prepend, Segment.isExpression]
  | case4 c k ks hclosed f hfind e d hexpand =>
    rw [segments_expression hfind, expandAll, hexpand]
  | case5 c k ks hclosed hfind ih =>
    rw [ih, segments_copy (by simpa using hclosed) hfind, expandAll, Segment.expand]
    cases hrest : expandAll ev (segments ks) c with
    | mk r d => cases r <;> simp [hrest, Written.prepend, Segment.isExpression]

/-- Parts without an expression are written as they stand. -/
theorem expandAll_of_literals (ev : Evaluator) {ss : List Segment}
    (h : ss.any Segment.isExpression = false) (c : Context) :
    ∃ s, expandAll ev ss c = (.ok s, c) := by
  induction ss with
  | nil => exact ⟨_, rfl⟩
  | cons s ss ih =>
    rw [List.any_cons, Bool.or_eq_false_iff] at h
    obtain ⟨back, hback⟩ := ih h.2
    cases s with
    | literal text => exact ⟨String.ofList text ++ back, by simp [expandAll, Segment.expand, hback]⟩
    | expression text escaped => cases h.1

theorem outcome_leftToRight (ev : Evaluator) (text : String) (c : Context) :
    (leftToRight unclosed ev text.toList c).outcome = expand? ev text c := by
  rw [leftToRight_unclosed, expand?]
  cases hany : (segments text.toList).any Segment.isExpression with
  | true =>
    rw [if_pos rfl]
    cases expandAll ev (segments text.toList) c with
    | mk r d => cases r <;> simp [Written.outcome]
  | false =>
    obtain ⟨s, hs⟩ := expandAll_of_literals ev hany c
    rw [hs]
    rfl

/-! ## What is left to be expanded -/

/-- Where no expression begins, all is copied. -/
theorem leftToRight_of_none (ev : Evaluator) {cs : List Char}
    (h : ∀ more, more <:+ cs → expression? more = none) (c : Context) :
    leftToRight (fun _ => false) ev cs c = (.ok (cs, false), c) := by
  induction cs with
  | nil => rw [leftToRight]
  | cons k ks ih =>
    have hrest := ih fun more hmore => h more (List.suffix_cons_iff.mpr (.inr hmore))
    rw [leftToRight, if_neg Bool.false_ne_true]
    split
    · next f hfind => cases (h _ List.suffix_rfl).symm.trans hfind
    · rw [hrest]
      rfl

/-- If nothing is left to be expanded where it stopped, expansion did all there was to do. -/
theorem leftToRight_of_unread (ev : Evaluator) {cs : List Char}
    (h : ∀ more, more <:+ unread cs → expression? more = none) (c : Context) :
    leftToRight unclosed ev cs c = leftToRight (fun _ => false) ev cs c := by
  fun_induction leftToRight unclosed ev cs c with
  | case1 c => rw [leftToRight]
  | case2 c k ks hopen =>
    rw [unread, if_pos hopen] at h
    exact (leftToRight_of_none ev h c).symm
  | case3 c k ks hclosed f hfind s d hexpand ih =>
    rw [ih (unread_expression hfind ▸ h), leftToRight_expression rfl hfind, hexpand]
  | case4 c k ks hclosed f hfind e d hexpand =>
    rw [leftToRight_expression rfl hfind, hexpand]
  | case5 c k ks hclosed hfind ih =>
    rw [unread_copy (by simpa using hclosed) hfind] at h
    rw [ih h, leftToRight_copy rfl hfind]

/-- An evaluator to which every expression is the empty text. -/
def silent : Evaluator where
  value _ _ := .ok (.string "")
  reads _ _ := []

theorem expand_silent (text : List Char) (escaped : Bool) (c : Context) :
    (Segment.expression text escaped).expand silent c = (.ok "", c) := by
  cases escaped <;> rfl

/-- With it a text does not grow, and loses the expressions that it has. -/
theorem leftToRight_silent (cs : List Char) (c : Context) :
    ∃ out any, leftToRight (fun _ => false) silent cs c = (.ok (out, any), c) ∧
      out.length ≤ cs.length ∧
      ((∃ more, more <:+ cs ∧ expression? more ≠ none) → any = true ∧ out.length < cs.length) := by
  fun_induction leftToRight (fun _ => false) silent cs c with
  | case1 c => exact ⟨[], false, rfl, le_rfl, by simp [expression?, mark?]⟩
  | case2 => contradiction
  | case3 c k ks hclosed f hfind s d hexpand ih =>
    cases (expand_silent f.inside f.escaped c).symm.trans hexpand
    obtain ⟨out, any, hout, hle, -⟩ := ih
    have hlength := length_of_expression? hfind
    refine ⟨out, true, ?_, by omega, fun _ => ⟨rfl, by omega⟩⟩
    rw [hout]
    rfl
  | case4 c k ks hclosed f hfind e d hexpand =>
    cases (expand_silent f.inside f.escaped c).symm.trans hexpand
  | case5 c k ks hclosed hfind ih =>
    obtain ⟨out, any, hout, hle, hshort⟩ := ih
    refine ⟨k :: out, any, by rw [hout]; rfl, Nat.succ_le_succ hle, ?_⟩
    rintro ⟨more, hmore, hexpression⟩
    obtain rfl | hmore := List.suffix_cons_iff.mp hmore
    · exact absurd hfind hexpression
    · exact (hshort ⟨more, hmore, hexpression⟩).imp_right Nat.succ_lt_succ

/-- An expression that is left where expansion stopped shows, if every expression is empty. -/
theorem leftToRight_silent_ne {cs : List Char}
    (h : ∃ more, more <:+ unread cs ∧ expression? more ≠ none) (c : Context) :
    ∃ out out' any, leftToRight unclosed silent cs c = (.ok (out, any), c) ∧
      leftToRight (fun _ => false) silent cs c = (.ok (out', true), c) ∧
      out'.length < out.length := by
  fun_induction leftToRight unclosed silent cs c with
  | case1 c =>
    obtain ⟨more, hmore, hexpression⟩ := h
    rw [unread, List.suffix_nil] at hmore
    subst hmore
    exact absurd rfl hexpression
  | case2 c k ks hopen =>
    rw [unread, if_pos hopen] at h
    obtain ⟨out, any, hout, -, hshort⟩ := leftToRight_silent (k :: ks) c
    obtain ⟨rfl, hlength⟩ := hshort h
    exact ⟨_, out, false, rfl, hout, hlength⟩
  | case3 c k ks hclosed f hfind s d hexpand ih =>
    cases (expand_silent f.inside f.escaped c).symm.trans hexpand
    obtain ⟨out, out', any, hout, hout', hlength⟩ := ih (unread_expression hfind ▸ h)
    refine ⟨out, out', true, by rw [hout]; rfl, ?_, hlength⟩
    rw [leftToRight_expression rfl hfind, hexpand]
    dsimp only
    rw [hout']
    rfl
  | case4 c k ks hclosed f hfind e d hexpand =>
    cases (expand_silent f.inside f.escaped c).symm.trans hexpand
  | case5 c k ks hclosed hfind ih =>
    rw [unread_copy (by simpa using hclosed) hfind] at h
    obtain ⟨out, out', any, hout, hout', hlength⟩ := ih h
    refine ⟨k :: out, k :: out', any, by rw [hout]; rfl, ?_, Nat.succ_lt_succ hlength⟩
    rw [leftToRight_copy rfl hfind, hout']
    rfl

/-- Expansion writes what the reading from left to right gives that stops at the first opening mark
that is not closed. Whatever expressions are worth, this is all that there is to write exactly if
behind that mark no expression is closed. -/
theorem expand?_eq_leftToRight (text : String) :
    (∀ ev c, expand? ev text c = (leftToRight unclosed ev text.toList c).outcome) ∧
    ((∀ ev c, expand? ev text c = (leftToRight (fun _ => false) ev text.toList c).outcome) ↔
      ∀ more, more <:+ unread text.toList → expression? more = none) := by
  refine ⟨fun ev c => (outcome_leftToRight ev text c).symm, fun hsame => ?_, fun hnone ev c => ?_⟩
  · by_contra! hleft
    obtain ⟨out, out', any, hout, hout', hlength⟩ := leftToRight_silent_ne hleft {}
    have hequal := hsame silent {}
    rw [← outcome_leftToRight, hout, hout'] at hequal
    cases any with
    | false => cases hequal
    | true =>
      have hlists : out = out' := String.ofList_injective (by simpa [Written.outcome] using hequal)
      exact absurd hlength (by rw [hlists]; exact lt_irrefl _)
  · rw [← outcome_leftToRight, leftToRight_of_unread ev hnone]

/-- An opening mark that is not closed hides an expression of the other kind. -/
theorem expand?_hidden :
    let text := "[[ [(${x})]"
    let c : Context := { root := [("x", .value (.string "1"))] }
    (expand? .standard text c).1 = .ok none ∧
      (leftToRight (fun _ => false) .standard text.toList c).outcome.1 = .ok (some "[[ 1") := by
  decide +kernel

end NaturalTemplate.Inline
