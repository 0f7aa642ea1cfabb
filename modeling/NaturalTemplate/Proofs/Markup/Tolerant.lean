import NaturalTemplate.Proofs.Markup.Tags

/-!
# Tolerant start tags

Tolerant reading takes much for an attribute: a name without a value, a value in either quotes or in
none, and a single character that no name can have. Nothing has to stand between two attributes; but
a name or a value without quotes goes on as long as it can, so where one ends depends on what comes
next. Given that, a start tag is read again as it is written, and only then.
-/
namespace NaturalTemplate.Markup

/-- White space and slashes, which may stand between the parts of a start tag. -/
def IsTagSpace (s : String) : Prop := ∀ c ∈ s.toList, Text.isBlank c = true ∨ c = '/'

/-- A name, or one character in the place of a name. -/
def IsTolerantName (name : String) : Prop :=
  IsAttributeName name ∨
    ∃ c, name.toList = [c] ∧ isAttributeNameChar c = false ∧ Text.isBlank c = false ∧ c ≠ '>' ∧
      c ≠ '/'

/-- A character that goes on with a value without quotes. -/
def isUnquotedChar (c : Char) : Bool := !Text.isBlank c && c != '>'

/-- Which values may be written in which quotes. -/
def Quote.Allows (quote : Quote) (value : String) : Prop :=
  match quote with
  | .double => '"' ∉ value.toList
  | .single => '\'' ∉ value.toList
  | .unquoted => (∀ c ∈ value.toList, isUnquotedChar c = true) ∧
      ∀ c ∈ value.toList.head?, c ≠ '"' ∧ c ≠ '\''
  | .none => False

inductive Attribute.TolerantValue (a : Attribute) : Prop where
  | missing (hoperator : a.operator = "") (hvalue : a.value = none) (hquote : a.quote = .none)
  | written {front back value : String} (hfront : IsSpace front) (hback : IsSpace back)
    (hoperator : a.operator = front ++ "=" ++ back) (hvalue : a.value = some value)
    (hquote : a.quote.Allows value)

structure Attribute.IsTolerant (a : Attribute) : Prop where
  leading : IsTagSpace a.leading
  name : IsTolerantName a.name
  value : a.TolerantValue

/-- The text of an attribute behind the space before it, whatever its quotes. -/
def Attribute.own (a : Attribute) : List Char :=
  ({ a with leading := "" } : Attribute).render.toList

/-- Whether an attribute ends where `tail` begins. With a quoted value it always does. A value
without quotes goes on up to white space or the end of the tag. A name without a value goes on while
there are characters of names, and gets a value from an equals sign, if white space is all that
stands between. -/
def Attribute.Stops (a : Attribute) (tail : List Char) : Prop :=
  match a.quote with
  | .double | .single => True
  | .unquoted =>
    ∃ c ds, tail = c :: ds ∧ (c = '>' ∨ Text.isBlank c = true ∧ a.value ≠ some "")
  | .none =>
    (IsAttributeName a.name → ∀ c ∈ tail.head?, isAttributeNameChar c = false) ∧
      (tail.dropWhile Text.isBlank).head? ≠ some '='

theorem Attribute.toList_render (a : Attribute) : a.render.toList = a.leading.toList ++ a.own := by
  simp [own, Attribute.render]

theorem Attribute.raw_lexeme_own (a : Attribute) : a.lexeme.raw = a.leading.toList ++ a.own :=
  a.toList_render

theorem IsTolerantName.exists_cons {name : String} (h : IsTolerantName name) :
    ∃ c cs, name.toList = c :: cs ∧ Text.isBlank c = false ∧ c ≠ '>' ∧ c ≠ '/' := by
  obtain hname | ⟨c, hc, -, hblank, hend, hslash⟩ := h
  · obtain ⟨c, cs, hcs, hc⟩ := hname.exists_cons
    refine ⟨c, cs, hcs, isBlank_of_isAttributeNameChar hc, ?_, ?_⟩ <;> rintro rfl <;>
      revert hc <;> decide
  · exact ⟨c, [], hc, hblank, hend, hslash⟩

namespace Lexeme

/-! ## Names -/

theorem isTolerantName_of_odd {c : Char} (hc : isAttributeNameChar c = false)
    (hblank : Text.isBlank c = false) (hend : c ≠ '>') (hslash : c ≠ '/') :
    IsTolerantName (String.ofList [c]) :=
  .inr ⟨c, String.toList_ofList, hc, hblank, hend, hslash⟩

theorem scanName_sound {c : Char} {cs name tail : List Char} (hblank : Text.isBlank c = false)
    (hend : c ≠ '>') (hslash : c ≠ '/')
    (h : scanName .tolerant none (c :: cs) = .ok (some (name, tail))) :
    IsTolerantName (String.ofList name) ∧
      (IsAttributeName (String.ofList name) →
        ∀ d ∈ tail.head?, isAttributeNameChar d = false) := by
  unfold scanName at h
  rw [Source.readWhile_none] at h
  split at h
  · simp at h
  · next rest hread =>
    simp only [Except.ok.injEq, Prod.mk.injEq] at hread
    obtain ⟨htake, rfl⟩ := hread
    have hc : isAttributeNameChar c = false := by
      by_contra hc
      rw [Bool.not_eq_false] at hc
      simp [hc] at htake
    simp only [List.dropWhile_cons, hc] at h
    simp only [Bool.false_eq_true, if_false, Except.ok.injEq, Option.some.injEq,
      Prod.mk.injEq] at h
    obtain ⟨rfl, rfl⟩ := h
    refine ⟨isTolerantName_of_odd hc hblank hend hslash, fun hname => ?_⟩
    have hmem := hname.2 c (by simp)
    rw [hc] at hmem
    contradiction
  · next hne hread =>
    simp only [Except.ok.injEq, Option.some.injEq, Prod.mk.injEq] at h hread
    obtain ⟨rfl, rfl⟩ := h
    obtain ⟨rfl, rfl⟩ := hread
    refine ⟨.inl ⟨by simpa using hne, fun d hd => ?_⟩, fun _ d hd => ?_⟩
    · rw [String.toList_ofList] at hd
      exact List.all_eq_true.mp List.all_takeWhile d hd
    · have hhead := List.head?_dropWhile_not isAttributeNameChar (c :: cs)
      rw [Option.mem_def.mp hd] at hhead
      simpa using hhead

theorem takeWhile_append_stop {p : Char → Bool} {run tail : List Char}
    (hrun : ∀ c ∈ run, p c = true) (htail : ∀ c ∈ tail.head?, p c = false) :
    (run ++ tail).takeWhile p = run ∧ (run ++ tail).dropWhile p = tail := by
  cases tail with
  | nil =>
    rw [List.takeWhile_append_of_pos hrun, List.dropWhile_append_of_pos hrun]
    simp
  | cons c tail => exact Source.takeWhile_run hrun (htail c rfl) tail

theorem scanName_complete {name : String} (hname : IsTolerantName name) {tail : List Char}
    (htail : IsAttributeName name → ∀ c ∈ tail.head?, isAttributeNameChar c = false) :
    scanName .tolerant none (name.toList ++ tail) = .ok (some (name.toList, tail)) := by
  unfold scanName
  rw [Source.readWhile_none]
  obtain hname | ⟨c, hc, hodd, -⟩ := hname
  · obtain ⟨htake, hdrop⟩ := takeWhile_append_stop hname.2 (htail hname)
    obtain ⟨c, cs, hcs, -⟩ := hname.exists_cons
    rw [htake, hdrop, hcs]
  · simp [hc, hodd]

/-! ## Values -/

theorem scanValue_before {mode : Mode} {failure : Option ReadFailure} {name : String}
    {before cs : List Char} {r : List Char × Quote × List Char × List Char}
    (h : scanValue mode failure name before cs = .ok r) (before' : List Char) :
    scanValue mode failure name before' cs = .ok r := by
  unfold scanValue at h ⊢
  split <;> simp_all
  split <;> simp_all

theorem scanValue_sound {name : String} {before cs value quoted tail : List Char} {quote : Quote}
    (h : scanValue .tolerant none name before cs = .ok (value, quote, quoted, tail)) :
    quote.Allows (String.ofList value) ∧
      (quote = .unquoted → cs = value ++ tail ∧ cs ≠ [] ∧
        ∀ c ∈ tail.head?, isUnquotedChar c = false) := by
  unfold scanValue at h
  split at h
  · simp at h
  · rw [Source.readUntil_none] at h
    split at h
    · simp at h
    · simp at h
    · next hfind =>
      simp only [Except.ok.injEq, Prod.mk.injEq] at h hfind
      obtain ⟨rfl, rfl, rfl, -⟩ := h
      exact ⟨by simpa [Quote.Allows] using Text.not_mem_of_splitAt? hfind, by simp⟩
  · next c rest hdouble =>
    simp only [reduceCtorEq, if_false] at h
    split at h
    · rw [Source.readUntil_none] at h
      split at h
      · simp at h
      · simp at h
      · next hfind =>
        simp only [Except.ok.injEq, Prod.mk.injEq] at h hfind
        obtain ⟨rfl, rfl, rfl, -⟩ := h
        exact ⟨by simpa [Quote.Allows] using Text.not_mem_of_splitAt? hfind, by simp⟩
    · next hsingle =>
      rw [Source.readWhile_none] at h
      simp only [Except.ok.injEq, Prod.mk.injEq] at h
      obtain ⟨rfl, rfl, rfl, rfl⟩ := h
      refine ⟨⟨fun d hd => ?_, fun d hd => ?_⟩, fun _ => ⟨?_, by simp, fun d hd => ?_⟩⟩
      · rw [String.toList_ofList] at hd
        exact List.all_eq_true.mp List.all_takeWhile d hd
      · rw [String.toList_ofList] at hd
        obtain rfl : c = d := by
          rw [List.takeWhile_cons] at hd
          split at hd <;> simp_all
        exact ⟨hdouble, hsingle⟩
      · exact List.takeWhile_append_dropWhile.symm
      · have hhead := List.head?_dropWhile_not isUnquotedChar (c :: rest)
        change d ∈ ((c :: rest).dropWhile isUnquotedChar).head? at hd
        rw [Option.mem_def.mp hd] at hhead
        simpa using hhead

/-- The text of a value in its quotes. -/
def quoted (quote : Quote) (value : List Char) : List Char :=
  match quote with
  | .double => '"' :: value ++ ['"']
  | .single => '\'' :: value ++ ['\'']
  | .unquoted | .none => value

theorem scanValue_complete {quote : Quote} {value : String} (hquote : quote.Allows value)
    {tail : List Char} (htail : quote = .unquoted →
      ∃ c ds, tail = c :: ds ∧ (c = '>' ∨ Text.isBlank c = true ∧ value ≠ ""))
    (name : String) (before : List Char) :
    scanValue .tolerant none name before (quoted quote value.toList ++ tail) =
      .ok (value.toList, quote, quoted quote value.toList, tail) := by
  cases quote with
  | double =>
    have hmark : '"' ∉ value.toList := hquote
    simp [scanValue, quoted, Text.splitAt?_singleton hmark]
  | single =>
    have hmark : '\'' ∉ value.toList := hquote
    simp [scanValue, quoted, Text.splitAt?_singleton hmark]
  | unquoted =>
    obtain ⟨hchars, hhead⟩ := hquote
    obtain ⟨c, ds, rfl, hstop⟩ := htail rfl
    have hc : isUnquotedChar c = false := by
      obtain rfl | ⟨hblank, -⟩ := hstop
      · decide
      · simp [isUnquotedChar, hblank]
    obtain ⟨htake, hdrop⟩ := Source.takeWhile_run hchars hc ds
    -- What comes first is no quote: a character of the value, or the end of the tag.
    obtain ⟨d, es, hds, hdouble, hsingle⟩ :
        ∃ d es, value.toList ++ c :: ds = d :: es ∧ d ≠ '"' ∧ d ≠ '\'' := by
      cases hvalue : value.toList with
      | nil =>
        have hempty : value = "" := String.toList_eq_nil_iff.mp hvalue
        obtain rfl : c = '>' := hstop.resolve_right fun h => h.2 hempty
        exact ⟨'>', ds, rfl, by decide, by decide⟩
      | cons d es => exact ⟨d, es ++ c :: ds, rfl, hhead d (by simp [hvalue])⟩
    have hread : Source.readWhile none (fun c => !Text.isBlank c && c != '>') (d :: es) =
        .ok (value.toList, c :: ds) := by
      change Source.readWhile none isUnquotedChar (d :: es) = _
      rw [← hds, Source.readWhile_none, htake, hdrop]
    rw [quoted, hds]
    unfold scanValue
    split
    · contradiction
    · simp_all
    · next heq =>
      cases heq
      simp only [reduceCtorEq, if_false, if_neg hsingle, hread]
  | none => exact absurd hquote id

/-! ## Attributes -/

theorem scanAttribute_before {mode : Mode} {failure : Option ReadFailure}
    {before leading cs : List Char} {r : Lexeme × List Char}
    (h : scanAttribute mode failure before leading cs = .ok r) (before' : List Char) :
    scanAttribute mode failure before' leading cs = .ok r := by
  unfold scanAttribute at h ⊢
  split
  · simp_all
  · simp_all
  · next name rest hname =>
    simp only [hname] at h
    split
    · simp_all
    · next space afterEquals hspace =>
      simp only [hspace] at h
      split
      · simp_all
      · next moreSpace afterSpace hmore =>
        simp only [hmore] at h
        split at h
        · simp at h
        · next hvalue => simpa [scanValue_before hvalue] using h
    · simp_all

theorem stops_of_value {leading name operator : String} {value tail after : List Char}
    {quote : Quote} (hquote : quote.Allows (String.ofList value)) (htail : tail ≠ [])
    (hunquoted : quote = .unquoted → after.dropWhile Text.isBlank = value ++ tail ∧
      after.dropWhile Text.isBlank ≠ [] ∧ ∀ c ∈ tail.head?, isUnquotedChar c = false) :
    Attribute.Stops ⟨leading, name, operator, some (String.ofList value), quote, {}⟩ tail := by
  cases quote with
  | double | single => trivial
  | unquoted =>
    obtain ⟨hafter, -, hstop⟩ := hunquoted rfl
    obtain ⟨c, ds, rfl⟩ := List.exists_cons_of_ne_nil htail
    refine ⟨c, ds, rfl, ?_⟩
    have hc : Text.isBlank c = true ∨ c = '>' := by
      have hstop := hstop c rfl
      simp only [isUnquotedChar, Bool.and_eq_false_iff, Bool.not_eq_false', bne_eq_false_iff_eq]
        at hstop
      exact hstop
    obtain hblank | rfl := hc
    · refine .inr ⟨hblank, fun hvalue => ?_⟩
      -- White space before the value was read as a part of the operator.
      obtain rfl : value = [] := by simpa using hvalue
      have hhead := List.head?_dropWhile_not Text.isBlank after
      rw [hafter] at hhead
      simp [hblank] at hhead
    · exact .inl rfl
  | none => exact absurd hquote id

theorem scanAttribute_sound {before cs tail : List Char} {leading : String} {c : Char}
    {l : Lexeme} (hleading : IsTagSpace leading) (hblank : Text.isBlank c = false) (hend : c ≠ '>')
    (hslash : c ≠ '/') (htail : tail ≠ [])
    (h : scanAttribute .tolerant none before leading.toList (c :: cs) = .ok (l, tail)) :
    ∃ a : Attribute, a.IsTolerant ∧ l = a.lexeme ∧ a.Stops tail := by
  unfold scanAttribute at h
  simp only [Source.readWhile_none] at h
  split at h
  · simp at h
  · simp at h
  next name afterName hname =>
  obtain ⟨hname, hstops⟩ := scanName_sound hblank hend hslash hname
  split at h
  · simp at h
  · next space afterEquals hspace =>
    split at h
    · simp at h
    next value quote quoted tail' hvalue =>
    simp only [Except.ok.injEq, Prod.mk.injEq] at h hspace
    obtain ⟨rfl, rfl⟩ := h
    obtain ⟨rfl, -⟩ := hspace
    obtain ⟨hquote, hunquoted⟩ := scanValue_sound hvalue
    have hfront := isSpace_takeWhile afterName
    have hback := isSpace_takeWhile afterEquals
    refine ⟨⟨leading, String.ofList name, _, some (String.ofList value), quote, {}⟩,
      ⟨hleading, hname, .written hfront hback rfl rfl hquote⟩, ?_, ?_⟩
    · obtain ⟨rfl, rfl⟩ | ⟨rfl, rfl⟩ | ⟨rfl, rfl⟩ := scanValue_quoted hvalue <;>
        simp [Attribute.lexeme, Attribute.render, ← String.toList_inj]
    · exact stops_of_value hquote htail hunquoted
  · next hequals hspace =>
    cases hspace
    simp only [Except.ok.injEq, Prod.mk.injEq] at h
    obtain ⟨rfl, rfl⟩ := h
    refine ⟨⟨leading, String.ofList name, "", none, .none, {}⟩,
      ⟨hleading, hname, .missing rfl rfl rfl⟩, ?_, hstops, ?_⟩
    · simp [Attribute.lexeme, Attribute.render]
    · intro hhead
      obtain ⟨rest, hrest⟩ := List.head?_eq_some_iff.mp hhead
      exact hequals _ rest (by rw [hrest])

theorem own_missing {a : Attribute} (hvalue : a.value = none) : a.own = a.name.toList := by
  simp [Attribute.own, Attribute.render, hvalue]

theorem own_written {a : Attribute} {front back value : String}
    (hoperator : a.operator = front ++ "=" ++ back) (hvalue : a.value = some value) :
    a.own = a.name.toList ++ (front.toList ++ '=' :: (back.toList ++
      quoted a.quote value.toList)) := by
  cases hquote : a.quote <;>
    simp [Attribute.own, Attribute.render, hoperator, hvalue, hquote, quoted]

/-- A value comes right behind the white space after the equals sign. -/
theorem exists_cons_quoted {a : Attribute} {value : String} (hvalue : a.value = some value)
    (hquote : a.quote.Allows value) {tail : List Char} (htail : a.Stops tail) :
    ∃ c ds, quoted a.quote value.toList ++ tail = c :: ds ∧ Text.isBlank c = false := by
  unfold Attribute.Stops at htail
  cases hq : a.quote with
  | double => exact ⟨'"', _, rfl, by decide⟩
  | single => exact ⟨'\'', _, rfl, by decide⟩
  | unquoted =>
    rw [hq] at hquote htail
    cases hchars : value.toList with
    | nil =>
      obtain ⟨c, ds, rfl, hstop⟩ := htail
      have hempty : value = "" := String.toList_eq_nil_iff.mp hchars
      obtain rfl : c = '>' := hstop.resolve_right fun h => h.2 (by rw [hvalue, hempty])
      exact ⟨'>', ds, rfl, by decide⟩
    | cons c cs =>
      have hc := hquote.1 c (by simp [hchars])
      simp only [isUnquotedChar, Bool.and_eq_true, Bool.not_eq_true'] at hc
      exact ⟨c, cs ++ tail, rfl, hc.1⟩
  | none =>
    rw [hq] at hquote
    exact absurd hquote id

/-- The operator of an attribute ends its name. -/
theorem scanName_operator {name front : String} (hname : IsTolerantName name)
    (hfront : IsSpace front) (rest : List Char) :
    scanName .tolerant none (name.toList ++ (front.toList ++ '=' :: rest)) =
      .ok (some (name.toList, front.toList ++ '=' :: rest)) := by
  refine scanName_complete hname fun _ d hd => ?_
  cases hfs : front.toList with
  | nil =>
    obtain rfl : '=' = d := by simpa [hfs] using hd
    decide
  | cons f fs =>
    obtain rfl : f = d := by simpa [hfs] using hd
    exact isAttributeNameChar_of_isBlank (hfront f (by simp [hfs]))

/-- An attribute is read again where it ends. -/
theorem scanAttribute_complete {a : Attribute} (ha : a.IsTolerant) {tail : List Char}
    (htail : a.Stops tail) (before : List Char) :
    scanAttribute .tolerant none before a.leading.toList (a.own ++ tail) =
      .ok (a.lexeme, tail) := by
  cases ha.value with
  | missing hoperator hvalue hquote =>
    unfold Attribute.Stops at htail
    rw [hquote] at htail
    obtain ⟨hname, hequals⟩ := htail
    have hscan := scanName_complete ha.name hname
    simp only [scanAttribute, own_missing hvalue, hscan, Source.readWhile_none]
    split
    · simp_all
    · next heq =>
      rw [Except.ok.injEq, Prod.mk.injEq] at heq
      simp [heq.2] at hequals
    · simp [Attribute.lexeme, Attribute.render, hoperator, hvalue, hquote]
  | @written front back value hfront hback hoperator hvalue hquote =>
    obtain ⟨c, ds, hcs, hc⟩ := exists_cons_quoted hvalue hquote htail
    have hown : a.own ++ tail = a.name.toList ++ (front.toList ++ '=' ::
        (back.toList ++ c :: ds)) := by
      rw [own_written hoperator hvalue, ← hcs]
      simp
    have hscan := scanName_operator ha.name hfront (back.toList ++ c :: ds)
    have hunquoted : a.quote = .unquoted →
        ∃ c ds, tail = c :: ds ∧ (c = '>' ∨ Text.isBlank c = true ∧ value ≠ "") := by
      intro hunquoted
      unfold Attribute.Stops at htail
      rw [hunquoted] at htail
      simpa [hvalue] using htail
    have hvalued := scanValue_complete hquote hunquoted a.name before
    rw [hcs] at hvalued
    rw [hown]
    have hequals : Text.isBlank '=' = false := by decide
    simp only [scanAttribute, hscan, readWhile_isBlank hfront hequals,
      readWhile_isBlank hback hc, String.ofList_toList, hvalued]
    have hraw := a.raw_lexeme_own
    rw [own_written hoperator hvalue] at hraw
    have hoperator' : String.ofList (front.toList ++ '=' :: back.toList) = a.operator := by
      simp [hoperator, ← String.toList_inj]
    simp only [Except.ok.injEq, Prod.mk.injEq, and_true]
    rw [hoperator', ← hvalue]
    change Lexeme.mk a.lexeme.kind _ = Lexeme.mk a.lexeme.kind a.lexeme.raw
    rw [hraw]
    simp

/-! ## Start tags -/

/-- What stands next in a start tag of a source that does not fail. -/
def tolerantPart : List Char → TagPart
  | [] => .missing
  | '>' :: _ => .close false
  | '/' :: '>' :: _ => .close true
  | '/' :: _ => .slash
  | _ :: _ => .attr

theorem tagPart_tolerant (cs : List Char) :
    tagPart .tolerant none cs = .ok (tolerantPart cs) := by
  unfold tolerantPart
  simp only [tagPart, Source.peek_none, bind, Except.bind, pure, Except.pure]
  cases cs with
  | nil => rfl
  | cons c cs =>
    simp only [List.getElem?_cons_zero]
    split
    · simp_all
    · simp_all
    · next heq =>
      obtain rfl : c = '/' := by simpa using heq
      cases cs with
      | nil => rfl
      | cons d cs =>
        simp only [List.getElem?_cons_succ, List.getElem?_cons_zero]
        by_cases hd : d = '>'
        · subst hd
          rfl
        · simp [hd]
    · simp_all

variable {name : String} {before leading cs tail rest : List Char} {ls : List Lexeme}
  {r : List Lexeme × List Char}

/-- One step through a start tag of a source that does not fail. -/
theorem scanTagRest_tolerant (name : String) (before leading cs : List Char) :
    scanTagRest .tolerant none name before leading cs =
      match cs.dropWhile Text.isBlank with
      | [] => .error (.malformed (.unterminatedStartTag name) [])
      | '>' :: rest =>
        .ok ([⟨.tagStartEnd (String.ofList (leading ++ cs.takeWhile Text.isBlank)) false,
          leading ++ cs.takeWhile Text.isBlank ++ ['>']⟩], rest)
      | '/' :: '>' :: rest =>
        .ok ([⟨.tagStartEnd (String.ofList (leading ++ cs.takeWhile Text.isBlank)) true,
          leading ++ cs.takeWhile Text.isBlank ++ ['/', '>']⟩], rest)
      | '/' :: rest =>
        scanTagRest .tolerant none name before (leading ++ cs.takeWhile Text.isBlank ++ ['/']) rest
      | rest =>
        match scanAttribute .tolerant none (before ++ leading)
            (leading ++ cs.takeWhile Text.isBlank) rest with
        | .error fault => .error fault
        | .ok (l, rest) =>
          match scanTagRest .tolerant none name (before ++ l.raw) [] rest with
          | .error fault => .error fault
          | .ok (ls, rest) => .ok (l :: ls, rest) := by
  have hread := Source.readWhile_none Text.isBlank cs
  have hpart := tagPart_tolerant (cs.dropWhile Text.isBlank)
  unfold tolerantPart at hpart
  rw [scanTagRest]
  split
  · simp_all
  next space rest hspace =>
  cases hread.symm.trans hspace
  clear hread hspace
  generalize cs.dropWhile Text.isBlank = rest at hpart ⊢
  cases rest with
  | nil => split <;> simp_all
  | cons c rest =>
    by_cases hend : c = '>'
    · subst hend
      split <;> simp_all
    by_cases hslash : c = '/'
    · subst hslash
      cases rest with
      | nil => split <;> simp_all
      | cons d rest =>
        by_cases hd : d = '>'
        · subst hd
          split <;> simp_all
        · split <;> simp_all
    · split <;> simp_all
      split
      · next hattr => simp only [hattr]
      · next hattr => exact hattr ▸ rfl

theorem scanTagRest_blank {d : Char} (hd : Text.isBlank d = true)
    (h : scanTagRest .tolerant none name before (leading ++ [d]) cs = .ok r) :
    scanTagRest .tolerant none name before leading (d :: cs) = .ok r := by
  rw [scanTagRest_tolerant] at h ⊢
  simp only [List.takeWhile_cons, List.dropWhile_cons, hd, if_true] at h ⊢
  rw [List.append_assoc, List.singleton_append] at h
  split at h
  · simp_all
  · simp_all
  · simp_all
  · simp_all
  · split at h
    · simp at h
    · next hattr =>
      rw [scanAttribute_before hattr (before ++ leading)]
      exact h

theorem scanTagRest_slash (hcs : cs.head? ≠ some '>')
    (h : scanTagRest .tolerant none name before (leading ++ ['/']) cs = .ok r) :
    scanTagRest .tolerant none name before leading ('/' :: cs) = .ok r := by
  have hslash : Text.isBlank '/' = false := by decide
  rw [scanTagRest_tolerant]
  simp only [List.takeWhile_cons, List.dropWhile_cons, hslash, Bool.false_eq_true, if_false,
    List.append_nil]
  split <;> simp_all

/-- Space that may stand in front of a part: white space and stray slashes, with no slash right
before the character that ends the tag. -/
structure Leads (leading cs : List Char) : Prop where
  space : ∀ c ∈ leading, Text.isBlank c = true ∨ c = '/'
  last : leading.getLast? = some '/' → cs.head? ≠ some '>'

namespace Leads

theorem nil (cs : List Char) : Leads [] cs := ⟨by simp, by simp⟩

theorem isTagSpace (h : Leads leading cs) : IsTagSpace (String.ofList leading) := by
  rw [IsTagSpace, String.toList_ofList]
  exact h.space

/-- White space behind the space that was read already keeps a slash from the end of the tag. -/
theorem skip (h : Leads leading cs) :
    Leads (leading ++ cs.takeWhile Text.isBlank) (cs.dropWhile Text.isBlank) := by
  have hall (c : Char) (hc : c ∈ cs.takeWhile Text.isBlank) : Text.isBlank c = true :=
    List.all_eq_true.mp List.all_takeWhile c hc
  refine ⟨fun c hc => ?_, fun hlast => ?_⟩
  · obtain hc | hc := List.mem_append.mp hc
    · exact h.space c hc
    · exact .inl (hall c hc)
  · cases hspace : cs.takeWhile Text.isBlank with
    | nil =>
      have hcs := List.takeWhile_append_dropWhile (p := Text.isBlank) (l := cs)
      rw [hspace, List.nil_append] at hcs
      rw [hspace, List.append_nil] at hlast
      rw [hcs]
      exact h.last hlast
    | cons d space =>
      rw [hspace, List.getLast?_append_of_ne_nil _ (List.cons_ne_nil d space), ← hspace] at hlast
      exact absurd (hall '/' (List.mem_of_getLast? hlast)) (by decide)

theorem slash (h : Leads leading ('/' :: cs)) (hcs : ∀ rest, cs ≠ '>' :: rest) :
    Leads (leading ++ ['/']) cs := by
  refine ⟨fun c hc => ?_, fun _ hhead => ?_⟩
  · obtain hc | hc := List.mem_append.mp hc
    · exact h.space c hc
    · exact .inr (List.mem_singleton.mp hc)
  · obtain ⟨rest, rfl⟩ := List.head?_eq_some_iff.mp hhead
    exact hcs rest rfl

end Leads

/-- Space in front of a part is read as the part's, unless its last slash ends the tag. -/
theorem scanTagRest_space {space : List Char} (hspace : Leads space cs)
    (h : scanTagRest .tolerant none name before (leading ++ space) cs = .ok r) :
    scanTagRest .tolerant none name before leading (space ++ cs) = .ok r := by
  induction space generalizing leading with
  | nil => simpa using h
  | cons d space ih =>
    obtain ⟨hd, htail⟩ := List.forall_mem_cons.mp hspace.space
    have hrest : scanTagRest .tolerant none name before (leading ++ [d]) (space ++ cs) = .ok r := by
      refine ih ⟨htail, fun hslash => hspace.last ?_⟩ (by simpa using h)
      rw [List.getLast?_cons, hslash]
      rfl
    obtain hblank | rfl := hd
    · exact scanTagRest_blank hblank hrest
    · refine scanTagRest_slash ?_ hrest
      cases space with
      | nil => exact hspace.last rfl
      | cons e space =>
        obtain hblank | rfl := htail e List.mem_cons_self
        · rintro heq
          obtain rfl : e = '>' := by simpa using heq
          revert hblank
          decide
        · simp

/-- An attribute begins with a character that is no space and does not end the tag. -/
theorem exists_cons_own {a : Attribute} (ha : a.IsTolerant) :
    ∃ c cs, a.own = c :: cs ∧ Text.isBlank c = false ∧ c ≠ '>' ∧ c ≠ '/' := by
  obtain ⟨c, cs, hcs, hc⟩ := ha.name.exists_cons
  cases ha.value with
  | missing hoperator hvalue hquote => exact ⟨c, cs, by rw [own_missing hvalue, hcs], hc⟩
  | written hfront hback hoperator hvalue hquote =>
    exact ⟨c, _, by rw [own_written hoperator hvalue, hcs, List.cons_append], hc⟩

theorem scanTagRest_attribute {a : Attribute} (ha : a.IsTolerant) (htail : a.Stops tail)
    (hrest : scanTagRest .tolerant none name (before ++ a.lexeme.raw) [] tail = .ok (ls, rest)) :
    scanTagRest .tolerant none name before [] (a.leading.toList ++ (a.own ++ tail)) =
      .ok (a.lexeme :: ls, rest) := by
  obtain ⟨c, cs, hcs, hblank, hend, hslash⟩ := exists_cons_own ha
  refine scanTagRest_space ⟨ha.leading, fun _ => by simpa [hcs] using hend⟩ ?_
  have hattr := scanAttribute_complete ha htail (before ++ a.leading.toList)
  rw [hcs, List.cons_append] at hattr ⊢
  rw [scanTagRest_tolerant]
  simp only [List.takeWhile_cons, List.dropWhile_cons, hblank, Bool.false_eq_true, if_false,
    List.append_nil, List.nil_append]
  split <;> simp_all

end Lexeme

/-- The parts of a start tag behind its name, each of which ends where the next one begins. -/
def Tag.PartsStop (trailing : String) (selfClosing : Bool) (rest : List Char) :
    List Attribute → Prop
  | [] => IsTagSpace trailing ∧ (selfClosing = false → trailing.toList.getLast? ≠ some '/')
  | a :: attributes =>
    a.IsTolerant ∧
      a.Stops (Lexeme.rawText (Tag.partLexemes attributes trailing selfClosing) ++ rest) ∧
      PartsStop trailing selfClosing rest attributes

namespace Lexeme

variable {name : String} {before leading cs rest : List Char} {ls : List Lexeme}
  {attributes : List Attribute} {trailing : String} {selfClosing : Bool}

theorem rawText_partLexemes_own (a : Attribute) (attributes : List Attribute) (trailing : String)
    (selfClosing : Bool) :
    rawText (Tag.partLexemes (a :: attributes) trailing selfClosing) =
      a.leading.toList ++ (a.own ++
        rawText (Tag.partLexemes attributes trailing selfClosing)) := by
  simp [Tag.partLexemes, a.raw_lexeme_own]

theorem scanTagRest_complete (h : Tag.PartsStop trailing selfClosing rest attributes)
    (name : String) (before : List Char) :
    scanTagRest .tolerant none name before []
        (rawText (Tag.partLexemes attributes trailing selfClosing) ++ rest) =
      .ok (Tag.partLexemes attributes trailing selfClosing, rest) := by
  induction attributes generalizing before with
  | nil =>
    obtain ⟨htrailing, hlast⟩ := h
    rw [rawText_partLexemes_nil, List.append_assoc]
    refine scanTagRest_space ⟨htrailing, fun hslash => ?_⟩ ?_
    · cases selfClosing with
      | false => exact absurd hslash (hlast rfl)
      | true => simp [Tag.closing]
    · have hend : Text.isBlank '>' = false := by decide
      have hslash : Text.isBlank '/' = false := by decide
      rw [scanTagRest_tolerant]
      cases selfClosing <;> simp [Tag.closing, Tag.partLexemes, hend, hslash]
  | cons a attributes ih =>
    obtain ⟨ha, hstops, hattributes⟩ := h
    rw [rawText_partLexemes_own, List.append_assoc, List.append_assoc]
    exact scanTagRest_attribute ha hstops (ih hattributes _)

theorem rawText_partLexemes_ne_nil (attributes : List Attribute) (trailing : String)
    (selfClosing : Bool) (rest : List Char) :
    rawText (Tag.partLexemes attributes trailing selfClosing) ++ rest ≠ [] := by
  cases selfClosing <;> simp [Tag.partLexemes, rawText_append, Tag.closing]

/-- The parts of a start tag that is read end where they are found to end. -/
theorem scanTagRest_sound (hlead : Leads leading cs)
    (h : scanTagRest .tolerant none name before leading cs = .ok (ls, rest)) :
    ∃ attributes trailing selfClosing, ls = Tag.partLexemes attributes trailing selfClosing ∧
      Tag.PartsStop trailing selfClosing rest attributes := by
  induction hlength : cs.length using Nat.strong_induction_on generalizing before leading cs ls with
  | _ n ih =>
    have hskip := hlead.skip
    have hshorter : (cs.dropWhile Text.isBlank).length ≤ n :=
      hlength ▸ (List.dropWhile_sublist _).length_le
    rw [scanTagRest_tolerant] at h
    split at h
    · simp at h
    · next rest' hdrop =>
      simp only [Except.ok.injEq, Prod.mk.injEq] at h
      obtain ⟨rfl, rfl⟩ := h
      refine ⟨[], _, false, by simp [Tag.partLexemes, Tag.closing], hskip.isTagSpace,
        fun _ hslash => ?_⟩
      rw [String.toList_ofList] at hslash
      exact hskip.last hslash (by rw [hdrop]; rfl)
    · next rest' hdrop =>
      simp only [Except.ok.injEq, Prod.mk.injEq] at h
      obtain ⟨rfl, rfl⟩ := h
      exact ⟨[], _, true, by simp [Tag.partLexemes, Tag.closing], hskip.isTagSpace, by simp⟩
    · next rest' hclose hdrop =>
      rw [hdrop] at hskip hshorter
      rw [List.length_cons] at hshorter
      exact ih rest'.length (by omega) (hskip.slash hclose) h rfl
    · next hnil hend hclose hslash =>
      obtain ⟨c, cs', hdrop⟩ := List.exists_cons_of_ne_nil hnil
      rw [hdrop] at h
      split at h
      · simp at h
      next l tail hattr =>
      split at h
      · simp at h
      next ls' rest' hrec =>
      simp only [Except.ok.injEq, Prod.mk.injEq] at h
      obtain ⟨rfl, rfl⟩ := h
      have hshrinks := scanAttribute_length hattr
      rw [← hdrop] at hshrinks
      obtain ⟨attributes, trailing, selfClosing, rfl, hstop⟩ :=
        ih tail.length (by omega) (.nil tail) hrec rfl
      have htail := scanTagRest_append hrec
      rw [List.nil_append] at htail
      have hblank : Text.isBlank c = false := by
        have hhead := List.head?_dropWhile_not Text.isBlank cs
        simpa [hdrop] using hhead
      rw [← String.toList_ofList (l := leading ++ cs.takeWhile Text.isBlank)] at hattr
      obtain ⟨a, ha, rfl, hstops⟩ := scanAttribute_sound hskip.isTagSpace hblank
        (by rintro rfl; exact hend cs' hdrop) (by rintro rfl; exact hslash cs' hdrop)
        (htail ▸ rawText_partLexemes_ne_nil _ _ _ _) hattr
      exact ⟨a :: attributes, trailing, selfClosing, rfl, ha, htail ▸ hstops, hstop⟩

/-- Two attributes with one lexeme differ in their places only. -/
theorem stops_of_lexeme_eq {a b : Attribute} (h : a.lexeme = b.lexeme) :
    (a.IsTolerant → b.IsTolerant) ∧ ∀ tail, a.Stops tail → b.Stops tail := by
  obtain ⟨leading, name, operator, value, quote, l⟩ := a
  obtain ⟨leading', name', operator', value', quote', l'⟩ := b
  simp only [Attribute.lexeme, Lexeme.mk.injEq, TokenKind.attribute.injEq] at h
  obtain ⟨⟨rfl, rfl, rfl, rfl, rfl⟩, -⟩ := h
  refine ⟨?_, fun _ => id⟩
  rintro ⟨hleading, hname, hvalue⟩
  refine ⟨hleading, hname, ?_⟩
  cases hvalue with
  | missing hoperator hvalue hquote => exact .missing hoperator hvalue hquote
  | written hfront hback hoperator hvalue hquote =>
    exact .written hfront hback hoperator hvalue hquote

theorem partsStop_of_partLexemes_eq {attributes' : List Attribute} {trailing' : String}
    {selfClosing' : Bool}
    (heq : Tag.partLexemes attributes trailing selfClosing =
      Tag.partLexemes attributes' trailing' selfClosing')
    (h : Tag.PartsStop trailing selfClosing rest attributes) :
    Tag.PartsStop trailing' selfClosing' rest attributes' := by
  induction attributes generalizing attributes' with
  | nil =>
    cases attributes' with
    | nil =>
      simp only [Tag.partLexemes, List.map_nil, List.nil_append, List.cons.injEq, Lexeme.mk.injEq,
        TokenKind.tagStartEnd.injEq] at heq
      obtain ⟨⟨⟨rfl, rfl⟩, -⟩, -⟩ := heq
      exact h
    | cons b attributes' => simp [Tag.partLexemes, Attribute.lexeme] at heq
  | cons a attributes ih =>
    cases attributes' with
    | nil => simp [Tag.partLexemes, Attribute.lexeme] at heq
    | cons b attributes' =>
      simp only [Tag.partLexemes, List.map_cons, List.cons_append, List.cons.injEq] at heq
      obtain ⟨ha, hstops, hattributes⟩ := h
      obtain ⟨htolerant, hstops'⟩ := stops_of_lexeme_eq heq.1
      have htail : Tag.partLexemes attributes trailing selfClosing =
          Tag.partLexemes attributes' trailing' selfClosing' := heq.2
      exact ⟨htolerant ha, htail ▸ hstops' _ hstops, ih htail hattributes⟩

end Lexeme

/-- Whether the name of a start tag and each of its parts ends where the next part begins. -/
structure Tag.Stops (t : Tag) (rest : List Char) : Prop where
  name : ∀ c ∈ (Lexeme.rawText (Tag.partLexemes t.attributes t.trailing t.selfClosing) ++
    rest).head?, isTagNameChar c = false
  parts : Tag.PartsStop t.trailing t.selfClosing rest t.attributes

namespace Lexeme

theorem rawText_lexemes_parts (t : Tag) : rawText t.lexemes =
    '<' :: (t.name.toList ++
      rawText (Tag.partLexemes t.attributes t.trailing t.selfClosing)) := by
  simp [Tag.lexemes]

/-- A start tag is read again as it is written exactly if all its parts end in time. -/
theorem scanStartTag_tolerant_iff {t : Tag} (hname : IsTagName t.name) (rest : List Char) :
    scanStartTag .tolerant none (rawText t.lexemes ++ rest) = .ok (t.lexemes, rest) ↔
      t.Stops rest := by
  have htext : rawText t.lexemes ++ rest = '<' :: (t.name.toList ++
      (rawText (Tag.partLexemes t.attributes t.trailing t.selfClosing) ++ rest)) := by
    simp [rawText_lexemes_parts]
  constructor
  · intro h
    rw [htext] at h
    simp only [scanStartTag, Source.readWhile_none, List.drop_succ_cons, List.drop_zero] at h
    split at h
    · simp at h
    next ls rest' hrec =>
    simp only [Except.ok.injEq, Prod.mk.injEq, Tag.lexemes, List.cons.injEq, Lexeme.mk.injEq,
      TokenKind.tagStart.injEq] at h
    obtain ⟨⟨⟨hrun, -⟩, rfl⟩, rfl⟩ := h
    generalize htail : rawText (Tag.partLexemes t.attributes t.trailing t.selfClosing) ++ rest' =
      tail at hrun hrec
    have htake := congrArg String.toList hrun
    rw [String.toList_ofList] at htake
    have hsplit := List.takeWhile_append_dropWhile (p := isTagNameChar) (l := t.name.toList ++ tail)
    rw [htake] at hsplit
    have hdrop := List.append_cancel_left hsplit
    obtain ⟨attributes, trailing, selfClosing, heq, hstop⟩ :=
      scanTagRest_sound (.nil _) hrec
    refine ⟨fun c hc => ?_, partsStop_of_partLexemes_eq heq.symm hstop⟩
    have hhead := List.head?_dropWhile_not isTagNameChar (t.name.toList ++ tail)
    rw [hdrop, ← htail, Option.mem_def.mp hc] at hhead
    simpa using hhead
  · rintro ⟨hstop, hparts⟩
    obtain ⟨htake, hdrop⟩ := takeWhile_append_stop hname.chars hstop
    have hscan := scanTagRest_complete hparts t.name ('<' :: t.name.toList)
    rw [htext]
    simp [scanStartTag, Source.readWhile_none, htake, hdrop, hscan, Tag.lexemes]

end Lexeme
end NaturalTemplate.Markup
