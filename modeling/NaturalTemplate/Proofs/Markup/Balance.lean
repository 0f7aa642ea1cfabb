import NaturalTemplate.Proofs.Markup.Arrangement

/-!
# Open tags, counted twice

Strict parsing counts the tags that are open twice: as names, behind the filter, and as elements, in
the tree that is being built. Over tokens that come in turn the two counts stay in step: one of them
refuses what the other would refuse, for the same reason and at the same place. The tolerant builder
refuses no token that comes in turn.
-/
namespace NaturalTemplate.Markup

/-- The errors that put the blame on an end tag: there is nothing for it to close, or it has not the
name of the innermost open element. -/
inductive ParseError.BlamesEndTag (t : Token) : ParseError → Prop where
  | stray {name : String} (hkind : t.kind = .tagEnd name) :
    BlamesEndTag t (.malformed (.strayEndTag name) t.location)
  | overlap {name expected : String} (hkind : t.kind = .tagEnd name) (hne : expected ≠ name) :
    BlamesEndTag t (.unbalanced expected (some name) t.location)

/-- No start tag is open before or after a token that is no part of one. -/
theorem Turn.inTag_of_next? {u v : Turn} {k : TokenKind} (h : u.next? k = some v)
    (hk : k.isTagPart = false) : u.inTag = false ∧ v.inTag = false := by
  cases hu : u.inTag <;> cases k <;> simp_all [next?, TokenKind.isTagPart] <;> grind

/-! ## The builder -/

namespace Builder

variable {b b' : Builder} {t : Token} {u v : Turn}

theorem mode_settle (b : Builder) (held : Option Held) : (b.settle held).mode = b.mode := by
  cases held with
  | none => rfl
  | some h => exact mode_append ..

theorem starting_settle (b : Builder) (held : Option Held) :
    (b.settle held).starting = b.starting := by
  cases held with
  | none => rfl
  | some h => exact starting_append ..

theorem mode_closeImplicit (n : Nat) (b : Builder) : (b.closeImplicit n).mode = b.mode := by
  induction n with
  | zero => rfl
  | succ n ih =>
    show ((b.closeImplicit n).close .implicit).mode = b.mode
    rw [mode_close, ih]

theorem mode_handleEndTag {name raw : String} {l : Location}
    (h : b.handleEndTag name raw l = .ok b') : b'.mode = b.mode := by
  unfold handleEndTag at h
  split at h
  · split at h
    · cases h
    · split at h
      · obtain rfl := Except.ok.inj h
        rw [mode_close]
      · cases h
  · split at h
    · obtain rfl := Except.ok.inj h
      rw [mode_append]
    · obtain rfl := Except.ok.inj h
      rw [mode_close, mode_closeImplicit]

/-- A token that was taken in turn leaves the builder in its mode, and in a start tag if one is
open then. -/
theorem of_handle (hb : b.starting.isSome = u.inTag) (hturn : u.next? t.kind = some v)
    (h : b.handle t = .ok b') : b'.mode = b.mode ∧ b'.starting.isSome = v.inTag := by
  unfold handle at h
  cases hkind : t.kind with
  | tagStart name =>
    simp only [hkind, Turn.next?, Option.ite_none_left_eq_some, Option.some.injEq] at h hturn
    obtain rfl := Except.ok.inj h
    obtain ⟨-, rfl⟩ := hturn
    exact ⟨rfl, rfl⟩
  | «attribute» leading name operator value quote =>
    simp only [hkind, Turn.next?, Option.ite_none_right_eq_some, Option.some.injEq] at h hturn
    obtain ⟨htag, rfl⟩ := hturn
    split at h
    · cases h
    · obtain rfl := Except.ok.inj h
      exact ⟨rfl, htag.symm⟩
  | tagStartEnd trailing selfClosing =>
    simp only [hkind, Turn.next?, Option.ite_none_right_eq_some, Option.some.injEq] at h hturn
    obtain ⟨-, rfl⟩ := hturn
    split at h
    · cases h
    · split at h
      · obtain rfl := Except.ok.inj h
        rw [mode_append, starting_append]
        exact ⟨rfl, rfl⟩
      · obtain rfl := Except.ok.inj h
        exact ⟨rfl, rfl⟩
  | tagEnd name =>
    obtain ⟨hu, hv⟩ := Turn.inTag_of_next? hturn (by rw [hkind]; rfl)
    have hnone : b.starting = none := by simpa [hu] using hb
    rw [hkind] at h
    exact ⟨mode_handleEndTag h, by rw [(written_handleEndTag hnone h).2, hv]; rfl⟩
  | documentStart | documentEnd | blockStart | blockEnd =>
    obtain ⟨hu, hv⟩ := Turn.inTag_of_next? hturn (by rw [hkind]; rfl)
    rw [hkind] at h
    obtain rfl := Except.ok.inj h
    exact ⟨rfl, by rw [hb, hu, hv]⟩
  | text | comment | cdata | docType | instruction =>
    obtain ⟨hu, hv⟩ := Turn.inTag_of_next? hturn (by rw [hkind]; rfl)
    rw [hkind] at h
    obtain rfl := Except.ok.inj h
    rw [mode_append, starting_append, hb, hu, hv]
    exact ⟨rfl, rfl⟩

/-- Tolerant building takes every token that comes in turn. -/
theorem exists_handle (hmode : b.mode = .tolerant) (hb : b.starting.isSome = u.inTag)
    (hturn : u.next? t.kind = some v) : ∃ b', b.handle t = .ok b' := by
  unfold handle
  cases hkind : t.kind with
  | «attribute» =>
    simp only [hkind, Turn.next?, Option.ite_none_right_eq_some] at hturn
    obtain ⟨tag, hstarting⟩ := Option.isSome_iff_exists.mp (hb.trans hturn.1)
    simp only [hstarting]
    exact ⟨_, rfl⟩
  | tagStartEnd =>
    simp only [hkind, Turn.next?, Option.ite_none_right_eq_some] at hturn
    obtain ⟨tag, hstarting⟩ := Option.isSome_iff_exists.mp (hb.trans hturn.1)
    simp only [hstarting]
    split <;> exact ⟨_, rfl⟩
  | tagEnd name =>
    simp only [handleEndTag, hmode]
    split <;> exact ⟨_, rfl⟩
  | _ => exact ⟨_, rfl⟩

theorem exists_handleAll {ts : List Token} (hmode : b.mode = .tolerant)
    (hb : b.starting.isSome = u.inTag) (hturn : u.after? (ts.map Token.kind) = some v) :
    ∃ b', b.handleAll ts = .ok b' ∧ b'.mode = .tolerant ∧ b'.starting.isSome = v.inTag := by
  induction ts generalizing b u with
  | nil =>
    obtain rfl := Option.some.inj hturn
    exact ⟨b, rfl, hmode, hb⟩
  | cons t ts ih =>
    obtain ⟨w, hw, hturn⟩ := Option.bind_eq_some_iff.mp hturn
    obtain ⟨b₁, hstep⟩ := exists_handle hmode hb hw
    obtain ⟨hmode₁, hb₁⟩ := of_handle hb hw hstep
    rw [handleAll, hstep]
    exact ih (hmode₁.trans hmode) hb₁ hturn

/-- Outside a start tag the end is refused by strict rules only, and only where an element is
open. -/
theorem exists_finish (hs : b.starting = none) (ho : b.mode = .strict → b.opened = []) :
    ∃ d, b.finish = .ok d := by
  unfold finish
  split
  · next hsome =>
    rw [hs] at hsome
    cases hsome
  · next hstrict hopened =>
    rw [ho hstrict] at hopened
    cases hopened
  · exact ⟨_, rfl⟩

end Builder

/-! ## The two counts -/

/-- Whether the names of the tags that are open are those of the elements that are open in a strict
tree. -/
structure Balance.InStep (bal : Balance) (b : Builder) : Prop where
  mode : b.mode = .strict
  opened : bal.opened = b.openNames
  starting : bal.starting = b.starting.map Tag.name

/-- Whether both counts take some tokens, and are still in step, or both refuse the same end tag
with the same error. -/
inductive SameVerdict (ts : List Token) : Except ParseError Balance → Except ParseError Builder →
    Prop where
  | ok {bal : Balance} {b : Builder} (h : bal.InStep b) : SameVerdict ts (.ok bal) (.ok b)
  | error {t : Token} {e : ParseError} (ht : t ∈ ts) (h : e.BlamesEndTag t) :
    SameVerdict ts (.error e) (.error e)

theorem SameVerdict.mono {ts us : List Token} {x : Except ParseError Balance}
    {y : Except ParseError Builder} (h : SameVerdict ts x y) (hsub : ts ⊆ us) :
    SameVerdict us x y := by
  cases h with
  | ok h => exact .ok h
  | error ht h => exact .error (hsub ht) h

namespace Balance.InStep

variable {bal : Balance} {b : Builder} {t : Token} {ts : List Token} {u v : Turn}

theorem append (h : bal.InStep b) (n : Node) : bal.InStep (b.append n) :=
  ⟨by rw [Builder.mode_append, h.mode], by rw [Builder.openNames_append, h.opened],
    by rw [Builder.starting_append, h.starting]⟩

theorem tagEnd (h : bal.InStep b) {name : String} (hkind : t.kind = .tagEnd name) :
    SameVerdict [t] (bal.feed t) (b.handle t) := by
  have hopened := h.opened
  simp only [Balance.feed, Builder.handle, Builder.handleEndTag, hkind, h.mode]
  cases hb : b.opened with
  | nil =>
    have hnames : bal.opened = [] := by rw [hopened, Builder.openNames, hb]; rfl
    simp only [hnames]
    exact .error (List.mem_singleton_self t) (.stray hkind)
  | cons o opened =>
    have hnames : bal.opened = o.tag.name :: opened.map fun o => o.tag.name := by
      rw [hopened, Builder.openNames, hb]
      rfl
    simp only [hnames]
    by_cases hname : o.tag.name = name
    · simp only [hname, if_true]
      refine .ok ⟨by rw [Builder.mode_close, h.mode], ?_, ?_⟩
      · rw [Builder.openNames_close, ← hopened, hnames]
        rfl
      · rw [Builder.starting_close, h.starting]
    · simp only [hname, if_false]
      exact .error (List.mem_singleton_self t) (.overlap hkind hname)

theorem tagStartEnd (h : bal.InStep b) {trailing : String} {selfClosing : Bool}
    (hkind : t.kind = .tagStartEnd trailing selfClosing) (hb : b.starting.isSome = true) :
    SameVerdict [t] (bal.feed t) (b.handle t) := by
  obtain ⟨tag, hstarting⟩ := Option.isSome_iff_exists.mp hb
  have hname : bal.starting = some tag.name := by rw [h.starting, hstarting]; rfl
  simp only [Balance.feed, Builder.handle, hkind, hstarting, hname]
  by_cases hvoid : (selfClosing || isVoid tag.name) = true
  · simp only [hvoid, if_true]
    have hended : Balance.InStep { bal with starting := none } { b with starting := none } :=
      ⟨h.mode, h.opened, rfl⟩
    exact .ok (hended.append _)
  · simp only [hvoid]
    refine .ok ⟨h.mode, ?_, rfl⟩
    simp [Builder.openNames, h.opened]

/-- Both counts pass the same verdict on a token that comes in turn before the end. -/
theorem feed (h : bal.InStep b) (hb : b.starting.isSome = u.inTag)
    (hturn : u.next? t.kind = some v) (hend : t.kind ≠ .documentEnd) :
    SameVerdict [t] (bal.feed t) (b.handle t) := by
  cases hkind : t.kind with
  | documentEnd => exact absurd hkind hend
  | tagEnd name => exact h.tagEnd hkind
  | tagStartEnd trailing selfClosing =>
    simp only [hkind, Turn.next?, Option.ite_none_right_eq_some] at hturn
    exact h.tagStartEnd hkind (hb.trans hturn.1)
  | «attribute» =>
    simp only [hkind, Turn.next?, Option.ite_none_right_eq_some] at hturn
    obtain ⟨tag, hstarting⟩ := Option.isSome_iff_exists.mp (hb.trans hturn.1)
    simp only [Balance.feed, Builder.handle, hkind, hstarting]
    exact .ok ⟨h.mode, h.opened, by rw [h.starting, hstarting]; rfl⟩
  | tagStart name =>
    simp only [Balance.feed, Builder.handle, hkind]
    exact .ok ⟨h.mode, h.opened, rfl⟩
  | documentStart | blockStart | blockEnd =>
    simp only [Balance.feed, Builder.handle, hkind]
    exact .ok h
  | text | comment | cdata | docType | instruction =>
    simp only [Balance.feed, Builder.handle, hkind]
    exact .ok (h.append _)

/-- Both counts pass the same verdict on tokens that come in turn before the end. -/
theorem feedAll (h : bal.InStep b) (hb : b.starting.isSome = u.inTag)
    (hturn : u.after? (ts.map Token.kind) = some v) (hend : ∀ t ∈ ts, t.kind ≠ .documentEnd) :
    SameVerdict ts (bal.feedAll ts) (b.handleAll ts) := by
  induction ts generalizing bal b u with
  | nil => exact .ok h
  | cons t ts ih =>
    obtain ⟨ht, hts⟩ := List.forall_mem_cons.mp hend
    obtain ⟨w, hw, hturn⟩ := Option.bind_eq_some_iff.mp hturn
    have hstep := h.feed hb hw ht
    rw [Balance.feedAll, Builder.handleAll]
    cases hfeed : bal.feed t <;> cases hhandle : b.handle t <;> rw [hfeed, hhandle] at hstep
    · exact hstep.mono (by simp)
    · cases hstep
    · cases hstep
    · cases hstep with
      | ok h₁ =>
        have hb₁ := (Builder.of_handle hb hw hhandle).2
        exact (ih h₁ hb₁ hturn hts).mono (List.subset_cons_self t ts)

/-- What the count of names takes, the end of the document included, strict building takes. -/
theorem exists_handleAll (h : bal.InStep b) (hb : b.starting.isSome = u.inTag)
    (hturn : u.after? (ts.map Token.kind) = some v) {bal' : Balance}
    (hfeed : bal.feedAll ts = .ok bal') :
    ∃ b', b.handleAll ts = .ok b' ∧ bal'.InStep b' ∧ b'.starting.isSome = v.inTag := by
  induction ts generalizing bal b u with
  | nil =>
    obtain rfl := Except.ok.inj hfeed
    obtain rfl := Option.some.inj hturn
    exact ⟨b, rfl, h, hb⟩
  | cons t ts ih =>
    obtain ⟨w, hw, hturn⟩ := Option.bind_eq_some_iff.mp hturn
    -- The builder has no rule for the end of the document, so `feed` does not cover that token.
    have hstep : ∀ bal₁, bal.feed t = .ok bal₁ → ∃ b₁, b.handle t = .ok b₁ ∧ bal₁.InStep b₁ := by
      intro bal₁ hfeed
      by_cases hend : t.kind = .documentEnd
      · simp only [Balance.feed, hend] at hfeed
        split at hfeed
        · obtain rfl := Except.ok.inj hfeed
          exact ⟨b, by simp only [Builder.handle, hend], h⟩
        · cases hfeed
      · have hsame := h.feed hb hw hend
        rw [hfeed] at hsame
        cases hhandle : b.handle t <;> rw [hhandle] at hsame <;> cases hsame
        exact ⟨_, rfl, ‹_›⟩
    unfold Balance.feedAll at hfeed
    split at hfeed
    · cases hfeed
    · next bal₁ hfeed₁ =>
      obtain ⟨b₁, hhandle, h₁⟩ := hstep bal₁ hfeed₁
      rw [Builder.handleAll, hhandle]
      exact ih h₁ (Builder.of_handle hb hw hhandle).2 hturn hfeed

end Balance.InStep
end NaturalTemplate.Markup
