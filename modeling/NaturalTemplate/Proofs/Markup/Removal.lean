import Mathlib.Data.List.TakeWhile
import NaturalTemplate.Markup.Element
import NaturalTemplate.Proofs.Markup.Built
import NaturalTemplate.Proofs.Markup.Reparse
import NaturalTemplate.Proofs.Markup.Tolerant

/-!
# Removing an attribute

What stands in front of an attribute may have ended only because of the space that the attribute
begins with, or of its first character. When the attribute is removed, the name of the tag or the
attribute in front of it comes to stand before what followed. The start tag is read again with just
the other attributes exactly if it ends there too; if not, it takes something of what follows for
its own.
-/
namespace NaturalTemplate.Markup
open Lexeme

/-- The kinds of the tokens of a start tag. -/
def Tag.kinds (t : Tag) : List TokenKind := t.lexemes.map Lexeme.kind

/-- Whether the gap closes that the first attribute with a name leaves: what stands in front of it,
the name of the tag or another attribute, ends before what follows it. -/
def Tag.ClosesGap (t : Tag) (name : String) : Prop :=
  ∀ front a back, t.attributes = front ++ a :: back → a.isNamed name = true →
    (∀ b ∈ front, b.isNamed name = false) →
    match front.getLast? with
    | none =>
      ∀ c ∈ (rawText (Tag.partLexemes back t.trailing t.selfClosing)).head?, isTagNameChar c = false
    | some previous => previous.Stops (rawText (Tag.partLexemes back t.trailing t.selfClosing))

/-! ## Parts and what follows them -/

/-- Where an attribute ends depends on the white space behind it and one character more. -/
theorem Attribute.Stops.of_append {a : Attribute} {text : List Char}
    (htext : ∃ c ∈ text, Text.isBlank c = false) {rest : List Char} (h : a.Stops (text ++ rest))
    (rest' : List Char) : a.Stops (text ++ rest') := by
  obtain ⟨c, ds, rfl⟩ : ∃ c ds, text = c :: ds := by
    obtain ⟨c, hc, -⟩ := htext
    exact List.exists_cons_of_ne_nil (List.ne_nil_of_mem hc)
  have hdrop : ∃ d es, (c :: ds).dropWhile Text.isBlank = d :: es := by
    apply List.exists_cons_of_ne_nil
    obtain ⟨d, hd, hblank⟩ := htext
    intro hnil
    have hall := List.dropWhile_eq_nil_iff.mp hnil d hd
    rw [hblank] at hall
    contradiction
  obtain ⟨d, es, hdrop⟩ := hdrop
  have hhead (tail : List Char) :
      ((c :: ds ++ tail).dropWhile Text.isBlank).head? = some d := by
    rw [List.dropWhile_append, hdrop]
    rfl
  unfold Attribute.Stops at h ⊢
  cases hquote : a.quote with
  | double | single => trivial
  | unquoted =>
    rw [hquote] at h
    obtain ⟨e, fs, heq, hstop⟩ := h
    obtain rfl : c = e := (List.cons.inj heq).1
    exact ⟨c, ds ++ rest', rfl, hstop⟩
  | none =>
    rw [hquote] at h
    obtain ⟨hname, hequals⟩ := h
    rw [hhead] at hequals
    refine ⟨fun hproper e he => hname hproper e (by simpa using he), ?_⟩
    simpa only [hhead] using hequals

theorem exists_mem_partLexemes (attributes : List Attribute) (trailing : String)
    (selfClosing : Bool) :
    ∃ c ∈ rawText (Tag.partLexemes attributes trailing selfClosing), Text.isBlank c = false := by
  refine ⟨'>', ?_, by decide⟩
  cases selfClosing <;> simp [Tag.partLexemes, rawText_append, Tag.closing]

theorem Tag.PartsStop.of_rest {trailing : String} {selfClosing : Bool} {rest : List Char}
    {attributes : List Attribute} (h : Tag.PartsStop trailing selfClosing rest attributes)
    (rest' : List Char) : Tag.PartsStop trailing selfClosing rest' attributes := by
  induction attributes with
  | nil => exact h
  | cons a attributes ih =>
    obtain ⟨ha, hstops, hattributes⟩ := h
    exact ⟨ha, hstops.of_append (exists_mem_partLexemes ..) rest', ih hattributes⟩

/-- What comes behind a start tag has no part in how it is read. -/
theorem Tag.Stops.of_rest {t : Tag} {rest : List Char} (h : t.Stops rest) (rest' : List Char) :
    t.Stops rest' := by
  obtain ⟨c, hc, -⟩ := exists_mem_partLexemes t.attributes t.trailing t.selfClosing
  obtain ⟨d, ds, htext⟩ := List.exists_cons_of_ne_nil (List.ne_nil_of_mem hc)
  refine ⟨?_, h.parts.of_rest rest'⟩
  have hname := h.name
  rw [htext] at hname ⊢
  simpa using hname

/-! ## Leaving out an attribute -/

section
variable {trailing : String} {selfClosing : Bool} {front back : List Attribute} {a : Attribute}

theorem exists_mem_raw_lexeme (ha : a.IsTolerant) :
    ∃ c ∈ a.lexeme.raw, Text.isBlank c = false := by
  obtain ⟨c, cs, hcs, hblank, -⟩ := exists_cons_own ha
  exact ⟨c, by simp [a.raw_lexeme_own, hcs], hblank⟩

/-- Only the attribute in front of the one that is left out can fail to end in time: each of those
further in front has the same next one as before. -/
theorem partsStop_erase_iff
    (h : Tag.PartsStop trailing selfClosing [] (front ++ a :: back)) :
    Tag.PartsStop trailing selfClosing [] (front ++ back) ↔
      ∀ previous ∈ front.getLast?,
        previous.Stops (rawText (Tag.partLexemes back trailing selfClosing)) := by
  induction front with
  | nil => simpa using h.2.2
  | cons f front ih =>
    obtain ⟨hf, hstops, hfront⟩ := h
    have ih := ih hfront
    cases front with
    | nil =>
      have hback : Tag.PartsStop trailing selfClosing [] back := hfront.2.2
      simp only [List.singleton_append, Tag.PartsStop, List.append_nil, hf, hback, and_true,
        true_and, List.getLast?_singleton, Option.mem_def, Option.some.injEq, forall_eq']
    | cons g front =>
      have hnext : f.Stops (rawText (Tag.partLexemes (g :: front ++ back) trailing selfClosing) ++
          []) := by
        change f.Stops (rawText (Tag.partLexemes (g :: (front ++ a :: back)) trailing
          selfClosing) ++ []) at hstops
        rw [rawText_partLexemes_lexeme, List.append_assoc] at hstops
        rw [List.cons_append, rawText_partLexemes_lexeme, List.append_assoc]
        exact hstops.of_append (exists_mem_raw_lexeme hfront.1) _
      rw [List.getLast?_cons_cons, ← ih]
      exact ⟨fun h => h.2.2, fun h => ⟨hf, hnext, h⟩⟩

/-- A start tag without one of its attributes. -/
theorem Tag.stops_erase_iff {t : Tag} (h : t.Stops [])
    (hattributes : t.attributes = front ++ a :: back) :
    ({ t with attributes := front ++ back } : Tag).Stops [] ↔
      match front.getLast? with
      | none => ∀ c ∈ (rawText (Tag.partLexemes back t.trailing t.selfClosing)).head?,
          isTagNameChar c = false
      | some previous =>
        previous.Stops (rawText (Tag.partLexemes back t.trailing t.selfClosing)) := by
  obtain ⟨hname, hparts⟩ := h
  rw [hattributes] at hname hparts
  have hiff := partsStop_erase_iff hparts
  cases front with
  | nil =>
    simp only [List.nil_append, List.getLast?_nil] at hiff hparts ⊢
    exact ⟨fun h => by simpa using h.name, fun h => ⟨by simpa using h, hparts.2.2⟩⟩
  | cons f front =>
    have hhead : ∀ c ∈ (rawText (Tag.partLexemes (f :: front ++ back) t.trailing t.selfClosing) ++
        []).head?, isTagNameChar c = false := by
      obtain ⟨c, hc, -⟩ := exists_mem_raw_lexeme hparts.1
      obtain ⟨d, ds, hraw⟩ := List.exists_cons_of_ne_nil (List.ne_nil_of_mem hc)
      rw [List.cons_append, rawText_partLexemes_lexeme, hraw] at hname ⊢
      simpa using hname
    obtain ⟨previous, hprevious⟩ : ∃ previous, (f :: front).getLast? = some previous :=
      ⟨_, List.getLast?_eq_some_getLast (List.cons_ne_nil f front)⟩
    simp only [hprevious, Option.mem_def, Option.some.injEq, forall_eq'] at hiff ⊢
    exact ⟨fun h => hiff.mp h.parts, fun h => ⟨hhead, hiff.mpr h⟩⟩

end

/-- There is one first element with a property. -/
theorem eq_of_first {α : Type} {p : α → Bool} {front back front' back' : List α} {a a' : α}
    (h : front ++ a :: back = front' ++ a' :: back') (ha : p a = true) (ha' : p a' = true)
    (hfront : ∀ b ∈ front, p b = false) (hfront' : ∀ b ∈ front', p b = false) :
    front = front' ∧ a = a' ∧ back = back' := by
  have hrun (front back : List α) {a : α} (ha : p a = true) (hfront : ∀ b ∈ front, p b = false) :
      (front ++ a :: back).takeWhile (fun b => !p b) = front := by
    rw [List.takeWhile_append_of_pos (by simpa using hfront)]
    simp [ha]
  obtain rfl : front = front' := by
    rw [← hrun front back ha hfront, h, hrun front' back' ha' hfront']
  exact ⟨rfl, List.cons.inj (List.append_cancel_left h)⟩

/-- The first attribute with a name is removed, if there is one. -/
theorem Tag.stops_remove_iff {t : Tag} (h : t.Stops []) (name : String) :
    ({ t with attributes := Attribute.remove name t.attributes } : Tag).Stops [] ↔
      t.ClosesGap name := by
  unfold Attribute.remove Tag.ClosesGap
  by_cases hnamed : ∃ a ∈ t.attributes, a.isNamed name = true
  · obtain ⟨a, ha, hnamed⟩ := hnamed
    obtain ⟨a, front, back, hfront, hnamed, hattributes, herase⟩ :=
      List.exists_of_eraseP (p := (·.isNamed name)) ha hnamed
    rw [herase, Tag.stops_erase_iff h hattributes]
    constructor
    · intro hgap front' a' back' hattributes' hnamed' hfront'
      obtain ⟨rfl, -, rfl⟩ := eq_of_first (p := (·.isNamed name))
        (hattributes.symm.trans hattributes') hnamed hnamed' (by simpa using hfront) hfront'
      exact hgap
    · intro hgap
      exact hgap front a back hattributes hnamed (by simpa using hfront)
  · push Not at hnamed
    rw [List.eraseP_of_forall_not hnamed]
    refine iff_of_true h fun front a back hattributes hname => ?_
    exact absurd hname (hnamed a (by simp [hattributes]))

/-! ## A start tag by itself -/

def TokenKind.isTagEnd : TokenKind → Bool
  | .tagStartEnd .. => true
  | _ => false

/-- Where the tokens of one start tag end, they end. -/
theorem Tag.kinds_of_append {t u : Tag} {ks ks' : List TokenKind}
    (h : t.kinds ++ ks = u.kinds ++ ks') : t.kinds = u.kinds := by
  have hsplit (v : Tag) (ks : List TokenKind) : v.kinds ++ ks =
      (.tagStart v.name :: v.attributes.map fun a => a.lexeme.kind) ++
        .tagStartEnd v.trailing v.selfClosing :: ks := by
    simp [Tag.kinds, Tag.lexemes, Tag.partLexemes]
  have hfront (v : Tag) : ∀ k ∈ TokenKind.tagStart v.name :: v.attributes.map fun a =>
      a.lexeme.kind, k.isTagEnd = false := by
    simp [TokenKind.isTagEnd, Attribute.lexeme]
  rw [hsplit, hsplit] at h
  obtain ⟨hfronts, hend, -⟩ := eq_of_first (p := TokenKind.isTagEnd) h rfl rfl (hfront t) (hfront u)
  rw [← List.append_nil t.kinds, ← List.append_nil u.kinds, hsplit, hsplit, hfronts, hend]

/-- A start tag is written from the kinds of its tokens. -/
theorem Tag.lexemes_eq_map_kinds (t : Tag) :
    t.lexemes = t.kinds.map fun k => ⟨k, (k.spelling?.getD "").toList⟩ := by
  have hattribute (a : Attribute) : a.lexeme =
      ⟨a.lexeme.kind, (a.lexeme.kind.spelling?.getD "").toList⟩ := rfl
  simp only [Tag.kinds, Tag.lexemes, Tag.partLexemes, List.map_cons, List.map_append, List.map_map,
    List.cons.injEq]
  refine ⟨by simp [TokenKind.spelling?], ?_⟩
  congr 1
  cases t.selfClosing <;> simp [TokenKind.spelling?, Tag.closing]

/-- Whether a text is tokenized as one start tag and nothing else. -/
def Tag.IsAllOf (t : Tag) (mode : Mode) (text : String) : Prop :=
  (tokenize mode (.ofString text)).error = none ∧
    (tokenize mode (.ofString text)).tokens.map Token.kind =
      .documentStart :: (t.kinds ++ [.documentEnd])

instance (t : Tag) (mode : Mode) (text : String) : Decidable (t.IsAllOf mode text) :=
  inferInstanceAs (Decidable (_ ∧ _))

theorem Tokens.read_nil (mode : Mode) (p : Position) (body : Option String) :
    read mode none p none body [] = ⟨[⟨.documentEnd, "", p.location⟩], none⟩ := by
  have hnone : read mode none p none none [] = ⟨[⟨.documentEnd, "", p.location⟩], none⟩ := by
    rw [read]
  cases body with
  | none => exact hnone
  | some name =>
    rw [read]
    split
    · next hrun => cases hrun
    · next hrun =>
      cases hrun
      exact hnone

theorem tokenize_render (t : Tag) : tokenize .tolerant (.ofString t.render) =
    (Tokens.read .tolerant none .start none none (rawText t.lexemes)).prepend
      [⟨.documentStart, "", .start⟩] := by
  rw [rawText_lexemes]
  rfl

theorem scanUnit_lexemes {t : Tag} (hname : IsTagName t.name) :
    scanUnit .tolerant none false (rawText t.lexemes) =
      scanStartTag .tolerant none (rawText t.lexemes) := by
  have hscan := @scanUnit_tag .tolerant t hname false []
  rwa [List.append_nil] at hscan

/-- A start tag that is tokenized from the text of another one is read at its beginning. -/
theorem exists_scanStartTag {t u : Tag} (hname : IsTagName t.name)
    (h : u.IsAllOf .tolerant t.render) :
    IsTagName u.name ∧
      ∃ rest, scanStartTag .tolerant none (rawText t.lexemes) = .ok (u.lexemes, rest) := by
  obtain ⟨herror, hkinds⟩ := h
  rw [tokenize_render] at herror hkinds
  have hne : rawText t.lexemes ≠ [] := by simp [Tag.lexemes]
  obtain ⟨ls, rest, hunit⟩ := Tokens.exists_of_read hne herror
  have hstart := (scanUnit_lexemes hname).symm.trans hunit
  have hopens := opens_tag hname []
  rw [List.append_nil] at hopens
  obtain ⟨v, hv, rfl⟩ := exists_of_scanStartTag hopens.1 hopens.2 hstart
  rw [Tokens.read_next hne hunit] at hkinds
  simp only [Tokens.prepend, List.map_cons, List.map_append, List.cons_append, List.nil_append,
    map_kind_locate, List.cons.injEq, true_and] at hkinds
  have hlexemes : v.lexemes = u.lexemes := by
    rw [Tag.lexemes_eq_map_kinds, Tag.kinds_of_append hkinds, ← Tag.lexemes_eq_map_kinds]
  have hsame : v.name = u.name := by
    simp only [Tag.lexemes, List.cons.injEq, Lexeme.mk.injEq, TokenKind.tagStart.injEq] at hlexemes
    exact hlexemes.1.1
  exact ⟨hsame ▸ hv.name, rest, hlexemes ▸ hstart⟩

theorem tokenize_render_iff {t : Tag} (hname : IsTagName t.name) :
    t.IsAllOf .tolerant t.render ↔ t.Stops [] := by
  have hstops := scanStartTag_tolerant_iff hname []
  rw [List.append_nil] at hstops
  rw [← hstops]
  constructor
  · intro hall
    obtain ⟨-, rest, hstart⟩ := exists_scanStartTag hname hall
    obtain rfl : rest = [] := by simpa using scanStartTag_append hstart
    exact hstart
  · intro hstart
    have hne : rawText t.lexemes ≠ [] := by simp [Tag.lexemes]
    rw [Tag.IsAllOf, tokenize_render,
      Tokens.read_next hne ((scanUnit_lexemes hname).trans hstart)]
    have hblock : blockAfter none Position.start.location t.lexemes = none := rfl
    simp [hblock, Tokens.read_nil, Tokens.prepend, Tag.kinds]

theorem Tag.IsRead.stops {t : Tag} (h : t.IsRead .tolerant) : t.Stops [] := by
  obtain ⟨rest, hscan⟩ := h.scan
  exact ((scanStartTag_tolerant_iff h.name rest).mp hscan).of_rest []

/-! ## An element without an attribute -/

/-- What is written of a start tag from which an attribute was removed is tokenized in tolerant mode
as just that start tag exactly if what stood in front of the attribute ends before what followed. -/
theorem tokenize_removeAttribute_iff {options : Options} (hmode : options.mode = .tolerant)
    {s : Source} {d : Document} (h : parseSource options s = .ok d) {e : Element}
    (he : e ∈ d.elements) (name : String) :
    (e.removeAttribute name).tag.IsAllOf .tolerant (e.removeAttribute name).tag.render ↔
      e.tag.ClosesGap name := by
  have hread := isRead_of_parseSource h he
  rw [hmode] at hread
  rw [← Tag.stops_remove_iff hread.stops name]
  exact tokenize_render_iff hread.name

/-- Each attribute but the first has its own space. -/
theorem tokenize_removeAttribute_spaced : ∃ d e,
    parseSource {} (.ofString "<p title='t' th:if=\"${x}\" class=c>y</p>") = .ok d ∧
      e ∈ d.elements ∧ (e.removeAttribute "th:if").tag.render = "<p title='t' class=c>" ∧
      (e.removeAttribute "th:if").tag.IsAllOf .tolerant (e.removeAttribute "th:if").tag.render ∧
      e.tag.ClosesGap "th:if" := by
  have hcheck : (parseSource {}
      (.ofString "<p title='t' th:if=\"${x}\" class=c>y</p>")).toOption.any
      (fun d => d.elements.any fun e =>
        (e.removeAttribute "th:if").tag.render == "<p title='t' class=c>" &&
          decide ((e.removeAttribute "th:if").tag.IsAllOf .tolerant
            (e.removeAttribute "th:if").tag.render)) = true := by
    decide +kernel
  obtain ⟨d, hparse, hcheck⟩ := exists_of_any_toOption hcheck
  obtain ⟨e, he, hcheck⟩ := List.any_eq_true.mp hcheck
  obtain ⟨hrender, hall⟩ := (Bool.and_eq_true _ _).mp hcheck
  have hall := of_decide_eq_true hall
  exact ⟨d, e, hparse, he, eq_of_beq hrender, hall,
    (tokenize_removeAttribute_iff rfl hparse he "th:if").mp hall⟩

/-- Behind a removed attribute that had a space before it, an attribute without one becomes a part
of the name of the tag. -/
theorem tokenize_removeAttribute_adjacent : ∃ d e,
    parseSource {} (.ofString "<p th:if=\"${x}\"title=\"t\">y</p>") = .ok d ∧
      e ∈ d.elements ∧ e.name = "p" ∧ e.hasAttribute "th:if" = true ∧
      (e.removeAttribute "th:if").attributes.map (fun a => (a.name, a.value)) =
        [("title", some "t")] ∧
      (tokenize .tolerant (.ofString (e.removeAttribute "th:if").tag.render)).tokens.map
          Token.kind =
        [.documentStart, .tagStart "ptitle=\"t\"", .tagStartEnd "" false, .documentEnd] := by
  have hcheck : (parseSource {} (.ofString "<p th:if=\"${x}\"title=\"t\">y</p>")).toOption.any
      (fun d => d.elements.any fun e =>
        decide (e.name = "p" ∧ e.hasAttribute "th:if" = true ∧
          (e.removeAttribute "th:if").attributes.map (fun a => (a.name, a.value)) =
            [("title", some "t")] ∧
          (tokenize .tolerant (.ofString (e.removeAttribute "th:if").tag.render)).tokens.map
              Token.kind =
            [.documentStart, .tagStart "ptitle=\"t\"", .tagStartEnd "" false, .documentEnd])) =
      true := by
    decide +kernel
  obtain ⟨d, hparse, hcheck⟩ := exists_of_any_toOption hcheck
  obtain ⟨e, he, hcheck⟩ := List.any_eq_true.mp hcheck
  exact ⟨d, e, hparse, he, of_decide_eq_true hcheck⟩

end NaturalTemplate.Markup
