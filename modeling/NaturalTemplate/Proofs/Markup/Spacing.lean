import NaturalTemplate.Proofs.Location
import NaturalTemplate.Proofs.Markup.Pieces

/-!
# The space in front of the parts of a start tag

The text of an attribute, and of the end of a start tag, begins with the space in front of it. By
tolerant rules that space may have slashes that close nothing. Every token stands where its text
begins, with one exception: a part of a start tag with such slashes in its space stands behind the
last of them.
-/
namespace NaturalTemplate.Markup
open Lexeme

/-- The space in front of a part of a start tag, with the slashes in it. No other token has any. -/
def TokenKind.spacing : TokenKind → String
  | .attribute leading .. => leading
  | .tagStartEnd trailing _ => trailing
  | _ => ""

/-- A text up to its last slash. -/
def upToSlash (s : String) : String :=
  String.ofList (s.toList.reverse.dropWhile (· != '/')).reverse

/-- The text behind the last slash. -/
def behindSlash (s : String) : String :=
  String.ofList (s.toList.reverse.takeWhile (· != '/')).reverse

theorem upToSlash_append (s : String) : upToSlash s ++ behindSlash s = s := by
  rw [upToSlash, behindSlash, ← String.ofList_append, ← List.reverse_append,
    List.takeWhile_append_dropWhile, List.reverse_reverse, String.ofList_toList]

theorem slash_notMem_behindSlash (s : String) : '/' ∉ (behindSlash s).toList := by
  intro h
  rw [behindSlash, String.toList_ofList, List.mem_reverse] at h
  simpa using List.all_eq_true.mp List.all_takeWhile _ h

theorem getLast?_upToSlash {s : String} (h : upToSlash s ≠ "") :
    (upToSlash s).toList.getLast? = some '/' := by
  rw [upToSlash, String.toList_ofList, List.getLast?_reverse]
  have hne : s.toList.reverse.dropWhile (· != '/') ≠ [] := by simpa [upToSlash] using h
  obtain ⟨c, cs, hcs⟩ := List.exists_cons_of_ne_nil hne
  have hhead := List.head?_dropWhile_not (· != '/') s.toList.reverse
  simpa [hcs] using hhead

theorem upToSlash_eq_empty_iff {s : String} : upToSlash s = "" ↔ '/' ∉ s.toList := by
  refine ⟨fun h => ?_, fun h => ?_⟩
  · have happ := upToSlash_append s
    rw [h, String.empty_append] at happ
    rw [← happ]
    exact slash_notMem_behindSlash s
  · by_contra hne
    have hmem := List.mem_of_getLast? (getLast?_upToSlash hne)
    rw [← upToSlash_append s, String.toList_append] at h
    exact h (List.mem_append_left _ hmem)

/-! ## Where tokens stand -/

/-- Whether tokens that follow each other from a position on stand where their texts begin, or in
these behind the last slash of the space. -/
def Token.Tile (p : Position) : List Token → Prop
  | [] => True
  | t :: ts =>
    t.location = (p.advanceBy (upToSlash t.kind.spacing).toList).location ∧
      Tile (p.advanceBy t.raw.toList) ts

theorem Token.tile_append {p : Position} {ts us : List Token} :
    Tile p (ts ++ us) ↔ Tile p ts ∧ Tile (p.advanceBy (rawText ts).toList) us := by
  induction ts generalizing p with
  | nil => simp [Tile]
  | cons t ts ih =>
    simp only [List.cons_append, Tile, ih, rawText_cons, String.toList_append,
      Position.advanceBy_append, and_assoc]

theorem Lexeme.lead_eq (l : Lexeme) : l.lead = (upToSlash l.kind.spacing).toList := by
  unfold lead TokenKind.spacing upToSlash
  cases l.kind <;> simp

theorem Lexeme.tile_locate (p : Position) (ls : List Lexeme) : Token.Tile p (locate p ls) := by
  induction ls generalizing p with
  | nil => trivial
  | cons l ls ih =>
    rw [locate, Token.Tile, String.toList_ofList]
    exact ⟨by rw [lead_eq], ih _⟩

theorem Tokens.read_tile (mode : Mode) (failure : Option ReadFailure) (p : Position)
    (block : Option Location) (body : Option String) (cs : List Char) :
    Token.Tile p (read mode failure p block body cs).tokens := by
  fun_induction read mode failure p block body cs with
  | case1 | case4 | case5 | case7 => trivial
  | case2 p block name cs text rest hrun after hempty ih =>
    obtain rfl : text = [] := by simpa using hempty
    exact ih
  | case3 p block name cs text rest hrun after hempty ih =>
    refine ⟨rfl, ?_⟩
    rw [Token.text, String.toList_ofList]
    exact ih
  | case6 p => exact ⟨rfl, trivial⟩
  | case8 p block c cs ls rest hunit ih =>
    rw [Tokens.prepend, Token.tile_append, rawText_locate, String.toList_ofList]
    exact ⟨tile_locate p ls, ih⟩

/-- The tokens of a source tile it from its start. -/
theorem tokenize_tile (mode : Mode) (s : Source) : Token.Tile .start (tokenize mode s).tokens :=
  ⟨rfl, Tokens.read_tile ..⟩

/-! ## What the space is -/

/-- The text of a token that is spelled as its kind says begins with the space in front of it. -/
theorem Token.Spelled.exists_raw {t : Token} (h : t.Spelled) :
    ∃ text, t.raw = t.kind.spacing ++ text := by
  cases hkind : t.kind with
  | «attribute» leading name operator value quote =>
    have hraw := h _ (by rw [hkind]; rfl)
    rw [hraw, Attribute.render]
    simp only [TokenKind.spacing, String.append_assoc]
    exact ⟨_, rfl⟩
  | tagStartEnd trailing selfClosing => exact ⟨_, h _ (by rw [hkind]; rfl)⟩
  | _ => exact ⟨t.raw, by simp [TokenKind.spacing]⟩

theorem slash_notMem_of_isSpace {s : String} (h : IsSpace s) : '/' ∉ s.toList := fun hmem =>
  absurd (h _ hmem) (by decide)

theorem Lexeme.spacing_of_isStrict {tag : Tag} (htag : tag.IsStrict) :
    ∀ l ∈ tag.lexemes, '/' ∉ l.kind.spacing.toList := by
  intro l hl
  simp only [Tag.lexemes, Tag.partLexemes, List.mem_cons, List.mem_append, List.mem_map,
    List.not_mem_nil, or_false] at hl
  obtain rfl | ⟨a, ha, rfl⟩ | rfl := hl
  · simp [TokenKind.spacing]
  · exact slash_notMem_of_isSpace (htag.attributes a ha).leading.2
  · exact slash_notMem_of_isSpace htag.trailing

/-- By strict rules no slash is taken for space. -/
theorem Lexeme.spacing_of_scanUnit_strict {inBlock : Bool} {cs rest : List Char} {ls : List Lexeme}
    (h : scanUnit .strict none inBlock cs = .ok (ls, rest)) :
    ∀ l ∈ ls, '/' ∉ l.kind.spacing.toList := by
  cases steps_of_scanUnit h with
  | blockEnd | text => simp [TokenKind.spacing]
  | markup hopens hscan =>
    cases scans_of_scanMarkup hscan with
    | blockStart => simp [TokenKind.spacing]
    | delimited hk _ hscan =>
      obtain ⟨content, hl⟩ := kind_of_scanDelimited hscan
      cases hk <;> simp [hl, TokenKind.spacing]
    | endTag _ hscan =>
      obtain ⟨name, hl⟩ := kind_of_scanEndTag hscan
      simp [hl, TokenKind.spacing]
    | startTag hstart hscan =>
      obtain ⟨tag, htag, rfl⟩ := scanStartTag_strict hopens hstart hscan
      exact spacing_of_isStrict htag

theorem Tokens.spacing_of_read_strict (p : Position) (block : Option Location)
    (body : Option String) (cs : List Char) :
    ∀ t ∈ (read .strict none p block body cs).tokens, '/' ∉ t.kind.spacing.toList := by
  fun_induction read .strict none p block body cs with
  | case1 | case4 | case5 | case7 => simp
  | case2 p block name cs text rest hrun after hempty ih => exact ih
  | case3 p block name cs text rest hrun after hempty ih =>
    exact List.forall_mem_cons.mpr ⟨by simp [Token.text, TokenKind.spacing], ih⟩
  | case6 p => simp [TokenKind.spacing]
  | case8 p block c cs ls rest hunit ih =>
    refine List.forall_mem_append.mpr ⟨?_, ih⟩
    exact forall_kind_locate (q := fun k => '/' ∉ k.spacing.toList)
      (spacing_of_scanUnit_strict hunit) _

/-- In a source that can be read to its end a token stands where its text begins, if no slash is in
the space in front of it, and behind the last such slash otherwise. By strict rules there is
none. -/
theorem location_of_tokenize {mode : Mode} {s : Source} {front back : List Token} {t : Token}
    (herror : (tokenize mode s).error = none)
    (htokens : (tokenize mode s).tokens = front ++ t :: back) :
    String.ofList s.chars = Token.rawText front ++ t.raw ++ Token.rawText back ∧
      ∃ slashed space text, t.kind.spacing = slashed ++ space ∧ t.raw = slashed ++ space ++ text ∧
        '/' ∉ space.toList ∧ (slashed ≠ "" → slashed.toList.getLast? = some '/') ∧
        t.location = .after (Token.rawText front ++ slashed) ∧
        (t.location = .after (Token.rawText front) ↔ '/' ∉ t.kind.spacing.toList) ∧
        (mode = .strict → '/' ∉ t.kind.spacing.toList) := by
  obtain ⟨hspelled, -, htext⟩ := tokenize_faithful mode s
  have htile := tokenize_tile mode s
  have hmem : t ∈ (tokenize mode s).tokens := by simp [htokens]
  have hlocation : t.location = .after (Token.rawText front ++ upToSlash t.kind.spacing) := by
    rw [htokens, Token.tile_append] at htile
    rw [htile.2.1, ← Position.advanceBy_append, ← String.toList_append,
      Position.location_advanceBy_start, String.ofList_toList]
  obtain ⟨text, hraw⟩ := (hspelled t hmem).exists_raw
  refine ⟨?_, upToSlash t.kind.spacing, behindSlash t.kind.spacing, text,
    (upToSlash_append _).symm, ?_, slash_notMem_behindSlash _, getLast?_upToSlash, hlocation, ?_,
    ?_⟩
  · rw [← htext herror, htokens, Token.rawText_append, Token.rawText_cons, String.append_assoc]
  · rw [upToSlash_append, hraw]
  · rw [hlocation, ← upToSlash_eq_empty_iff]
    refine ⟨fun h => ?_, fun h => by rw [h, String.append_empty]⟩
    -- The offsets tell the two places apart.
    have hoffset := congrArg Location.offset h
    simpa [Location.after] using hoffset
  · rintro rfl
    obtain ⟨cs, failure⟩ := s
    cases failure with
    | some f => exact (Tokens.read_error_ne_none _ f _ _ _ _ herror).elim
    | none =>
      obtain hstart | hread := List.mem_cons.mp hmem
      · simp [hstart, TokenKind.spacing]
      · exact Tokens.spacing_of_read_strict _ _ _ _ t hread

/-- The end of this tag has a slash in its space, behind a line end. -/
theorem location_of_tokenize_slash :
    let s := Source.ofString "<p k='ä'\r\n/ />x"
    let front : List Token := [⟨.documentStart, "", .start⟩, ⟨.tagStart "p", "<p", ⟨1, 1, 0⟩⟩,
      ⟨.attribute " " "k" "=" (some "ä") .single, " k='ä'", ⟨1, 3, 2⟩⟩]
    let t : Token := ⟨.tagStartEnd "\r\n/ " true, "\r\n/ />", ⟨2, 2, 12⟩⟩
    let back : List Token := [.text "x" ⟨2, 5, 15⟩, ⟨.documentEnd, "", ⟨2, 6, 16⟩⟩]
    (tokenize .tolerant s).error = none ∧ (tokenize .tolerant s).tokens = front ++ t :: back ∧
      ∃ slashed space text, t.kind.spacing = slashed ++ space ∧ t.raw = slashed ++ space ++ text ∧
        '/' ∉ space.toList ∧ t.location = .after (Token.rawText front ++ slashed) := by
  intro s front t back
  have herror : (tokenize .tolerant s).error = none := by decide +kernel
  have htokens : (tokenize .tolerant s).tokens = front ++ t :: back := by decide +kernel
  obtain ⟨-, slashed, space, text, hspacing, hraw, hspace, -, hlocation, -⟩ :=
    location_of_tokenize herror htokens
  exact ⟨herror, htokens, slashed, space, text, hspacing, hraw, hspace, hlocation⟩

/-- The text of this attribute begins behind the name of the tag, and its place is two characters
further on. -/
theorem tokenize_straySlash :
    let front : List Token := [⟨.documentStart, "", .start⟩, ⟨.tagStart "a", "<a", ⟨1, 1, 0⟩⟩]
    let t : Token := ⟨.attribute " /" "x" "" none .none, " /x", ⟨1, 5, 4⟩⟩
    let back : List Token := [⟨.tagStartEnd "" false, ">", ⟨1, 6, 5⟩⟩,
      ⟨.documentEnd, "", ⟨1, 7, 6⟩⟩]
    (tokenize .tolerant (.ofString "<a /x>")).error = none ∧
      (tokenize .tolerant (.ofString "<a /x>")).tokens = front ++ t :: back ∧
      Location.after (Token.rawText front) = ⟨1, 3, 2⟩ ∧
      t.location ≠ .after (Token.rawText front) := by
  decide +kernel

end NaturalTemplate.Markup
