import NaturalTemplate.Markup.Parse

/-!
# Building by relaxed rules

Tolerant building differs from strict building in what it does where tags are out of turn, and
nowhere else. From tokens of which strict building makes a document, tolerant building makes the
same one.
-/
namespace NaturalTemplate.Markup

/-- A filter without the check of balance. -/
def Filter.relaxed (f : Filter) : Filter := { f with balance := none }

/-- A tree that goes on by the tolerant rules. -/
def Builder.relaxed (b : Builder) : Builder := { b with mode := .tolerant }

/-! ## The filter -/

namespace Filter

variable {f f' : Filter} {t : Token} {ts : List Token}

/-- The check of balance only lets tokens pass. -/
theorem feed_relaxed (h : f.feed t = .ok (f', ts)) : f.relaxed.feed t = .ok (f'.relaxed, ts) := by
  cases hstages : (feedBlock f.comments f.fold t).2.bind (feedComment f.comments) with
  | none =>
    simp only [feed, hstages] at h
    cases h
    simp only [feed, relaxed, hstages]
  | some k =>
    simp only [feed, hstages] at h
    have hrelaxed : f.relaxed.feed t = .ok ({ f with
        fold := (feedBlock f.comments f.fold t).1
        held := (feedText f.held k).1
        balance := none }, (feedText f.held k).2) := by
      simp only [feed, relaxed, hstages]
    rw [hrelaxed]
    split at h
    · cases h
      rfl
    · split at h
      · cases h
      · cases h
        rfl

theorem finish_relaxed (h : f.finish = .ok ts) : f.relaxed.finish = .ok ts := by
  obtain ⟨comments, fold, held, balance⟩ := f
  cases fold with
  | some fold => cases h
  | none =>
    cases balance with
    | none => exact h
    | some b =>
      simp only [finish] at h
      cases hall : b.feedAll (held.map Held.toToken).toList with
      | error e =>
        rw [hall] at h
        cases h
      | ok b' =>
        rw [hall] at h
        exact h

end Filter

/-! ## The builder -/

namespace Builder

variable {b b' : Builder} {t : Token} {ts : List Token}

theorem relaxed_append (b : Builder) (n : Node) : (b.append n).relaxed = b.relaxed.append n := by
  obtain ⟨mode, roots, opened, starting⟩ := b
  cases opened <;> rfl

theorem relaxed_close (e : EndTag) (b : Builder) : (b.close e).relaxed = b.relaxed.close e := by
  obtain ⟨mode, roots, opened, starting⟩ := b
  cases opened with
  | nil => rfl
  | cons o opened => exact relaxed_append ..

theorem relaxed_closeImplicit (n : Nat) (b : Builder) :
    (b.closeImplicit n).relaxed = b.relaxed.closeImplicit n := by
  induction n generalizing b with
  | zero => rfl
  | succ n ih => exact (relaxed_close _ _).trans (congrArg (close .implicit) (ih b))

/-- An end tag in its turn closes the innermost element by either rules. -/
theorem handleEndTag_relaxed {name raw : String} {l : Location}
    (h : b.handleEndTag name raw l = .ok b') :
    b.relaxed.handleEndTag name raw l = .ok b'.relaxed := by
  obtain ⟨mode, roots, opened, starting⟩ := b
  cases mode with
  | tolerant =>
    have hsame : b'.relaxed = b' := by
      simp only [handleEndTag] at h
      split at h <;> cases h
      · exact relaxed_append ..
      · rw [relaxed_close, relaxed_closeImplicit]
        rfl
    rw [hsame]
    exact h
  | strict =>
    cases opened with
    | nil => cases h
    | cons o opened =>
      simp only [handleEndTag] at h
      split at h
      · next hname =>
        cases h
        have hfirst : (o :: opened).findIdx? (fun o => Text.sameName o.tag.name name) = some 0 := by
          simp [List.findIdx?_cons, hname]
        rw [relaxed_close]
        simp only [handleEndTag, relaxed, hfirst]
        rfl
      · cases h

theorem handle_relaxed (h : b.handle t = .ok b') : b.relaxed.handle t = .ok b'.relaxed := by
  obtain ⟨mode, roots, opened, starting⟩ := b
  unfold handle at h ⊢
  cases hkind : t.kind with
  | tagEnd name =>
    rw [hkind] at h
    exact handleEndTag_relaxed h
  | tagStartEnd trailing selfClosing =>
    rw [hkind] at h
    cases starting with
    | none => cases h
    | some tag =>
      simp only at h
      split at h <;> cases h
      · next hvoid =>
        rw [relaxed_append]
        simp only [relaxed, if_pos hvoid]
      · next hvoid => simp only [relaxed, if_neg hvoid]
  | «attribute» leading name operator value quote =>
    rw [hkind] at h
    cases starting with
    | none => cases h
    | some tag =>
      cases h
      rfl
  | text | comment | cdata | docType | instruction =>
    rw [hkind] at h
    cases h
    exact congrArg Except.ok (relaxed_append _ _).symm
  | _ =>
    rw [hkind] at h
    cases h
    rfl

theorem handleAll_relaxed (h : b.handleAll ts = .ok b') :
    b.relaxed.handleAll ts = .ok b'.relaxed := by
  induction ts generalizing b with
  | nil =>
    cases h
    rfl
  | cons t ts ih =>
    rw [handleAll] at h ⊢
    split at h
    · cases h
    · next b₁ hstep =>
      rw [handle_relaxed hstep]
      exact ih h

/-- At the end strict building leaves no element open, so there is none to close. -/
theorem finish_relaxed {d : Document} (h : b.finish = .ok d) : b.relaxed.finish = .ok d := by
  obtain ⟨mode, roots, opened, starting⟩ := b
  cases starting with
  | some tag => cases h
  | none =>
    cases mode with
    | tolerant => exact h
    | strict =>
      cases opened with
      | nil => exact h
      | cons o opened => cases h

end Builder

/-! ## Documents -/

theorem buildFiltered_relaxed {f f' : Filter} {b b' : Builder} {ts : List Token}
    (h : buildFiltered f b ts = .ok (f', b')) :
    buildFiltered f.relaxed b.relaxed ts = .ok (f'.relaxed, b'.relaxed) := by
  induction ts generalizing f b with
  | nil =>
    cases h
    rfl
  | cons t ts ih =>
    rw [buildFiltered] at h ⊢
    split at h
    · cases h
    · next f₁ filtered hfeed =>
      split at h
      · cases h
      · next b₁ hhandle =>
        rw [Filter.feed_relaxed hfeed]
        simp only [Builder.handleAll_relaxed hhandle]
        exact ih h

/-- The document that is built from tokens. -/
def build (options : Options) (ts : List Token) : Except ParseError Document := do
  let (f, b) ← buildFiltered (.ofOptions options) { mode := options.mode } ts
  let b ← b.handleAll (← f.finish)
  b.finish

theorem parseSource_of_tokens {options : Options} {s : Source} {ts : List Token}
    (h : tokenize options.mode s = ⟨ts, none⟩) : parseSource options s = build options ts := by
  rw [parseSource, h]
  rfl

/-- A document is what is left when all stages have come to their end. -/
theorem build_eq_ok {options : Options} {ts : List Token} {d : Document} :
    build options ts = .ok d ↔ ∃ f b held b',
      buildFiltered (.ofOptions options) { mode := options.mode } ts = .ok (f, b) ∧
        f.finish = .ok held ∧ b.handleAll held = .ok b' ∧ b'.finish = .ok d := by
  constructor
  · intro h
    simp only [build, bind, Except.bind] at h
    split at h
    · cases h
    next r hts =>
    split at h
    · cases h
    next held hheld =>
    split at h
    · cases h
    next b' hb' => exact ⟨r.1, r.2, held, b', hts, hheld, hb', h⟩
  · rintro ⟨f, b, held, b', hts, hheld, hb', hd⟩
    simp only [build, hts, hheld, hb', hd, bind, Except.bind]

/-- Where strict building makes a document, tolerant building makes the same one. -/
theorem build_tolerant {policy : CommentPolicy} {ts : List Token} {d : Document}
    (h : build ⟨.strict, policy⟩ ts = .ok d) : build ⟨.tolerant, policy⟩ ts = .ok d := by
  obtain ⟨f, b, held, b', hts, hheld, hb', hd⟩ := build_eq_ok.mp h
  exact build_eq_ok.mpr ⟨f.relaxed, b.relaxed, held, b'.relaxed, buildFiltered_relaxed hts,
    Filter.finish_relaxed hheld, Builder.handleAll_relaxed hb', Builder.finish_relaxed hd⟩

end NaturalTemplate.Markup
