import NaturalTemplate.Proofs.Location
import NaturalTemplate.Proofs.Markup.Pieces
import NaturalTemplate.Proofs.Markup.Stream

/-!
# Where reading stops

Malformed markup stops the reading of a source. All constructs in front of it come out whole, and
of the one that could not be read nothing does. The place that is blamed lies in the text of this
construct, or it is that of the mark of a block which is open at the end of the source.
-/
namespace NaturalTemplate.Markup
open Lexeme

/-- The construct that a malformation is found in, if it is one that stands by itself. -/
def Malformation.construct? : Malformation → Option Construct
  | unterminatedParserComment => some .parserComment
  | unterminatedComment => some .comment
  | unterminatedCData => some .cdata
  | unterminatedDocType => some .docType
  | unterminatedInstruction => some .instruction
  | nestedBlock => some .block
  | unterminatedEndTag _ | contentInEndTag _ => some .endTag
  | unterminatedStartTag _ | attributesNotSeparated | missingAttributeName
  | unterminatedAttribute _ | unterminatedValue _ | valueNotDoubleQuoted _ => some .startTag
  | unterminatedBlock | strayEndTag _ | attributeOutsideTag | tagEndWithoutStart => none

namespace Lexeme

section
variable {mode : Mode} {failure : Option ReadFailure} {inBlock : Bool} {name : String}
  {before leading place cs : List Char} {cause : Malformation}

/-! ## Inside a construct -/

theorem malformed_of_scanValue
    (h : scanValue mode failure name before cs = .error (.malformed cause place)) :
    cause.construct? = some .startTag ∧ (place = [] ∨ place = before) := by
  unfold scanValue at h
  split at h
  · split at h
    · cases h
      exact ⟨rfl, .inl rfl⟩
    · cases h
  · split at h <;> cases h
    exact ⟨rfl, .inl rfl⟩
  · split at h
    · cases h
      exact ⟨rfl, .inr rfl⟩
    · split at h
      · split at h <;> cases h
        exact ⟨rfl, .inl rfl⟩
      · split at h <;> cases h

theorem malformed_of_scanAttribute
    (h : scanAttribute mode failure before leading cs = .error (.malformed cause place)) :
    cause.construct? = some .startTag ∧ (place = [] ∨ place = before) := by
  unfold scanAttribute at h
  split at h
  · cases h
  · cases h
    exact ⟨rfl, .inr rfl⟩
  · split at h
    · cases h
    · split at h
      · cases h
      · simp only at h
        split at h
        · next hvalue =>
          cases h
          exact malformed_of_scanValue hvalue
        · cases h
    · cases h

theorem ne_nil_of_tagPart_attr (h : tagPart mode failure cs = .ok .attr) : cs ≠ [] := by
  rintro rfl
  cases failure <;>
    simp [tagPart, Source.peek, Source.has, bind, Except.bind, pure, Except.pure] at h

/-- A start tag is blamed at its start, or at a place in front of something that it has. -/
theorem malformed_of_scanTagRest (hbefore : before ≠ [])
    (h : scanTagRest mode failure name before leading cs = .error (.malformed cause place)) :
    cause.construct? = some .startTag ∧
      ∃ behind, behind ≠ [] ∧ before ++ leading ++ cs = place ++ behind := by
  fun_induction scanTagRest mode failure name before leading cs with
  | case1 | case2 | case4 | case5 | case10 => cases h
  | case3 before leading cs =>
    cases h
    exact ⟨rfl, before ++ leading ++ cs, by simp [hbefore], rfl⟩
  | case6 before leading cs space rest hspace lead hpart ih =>
    obtain ⟨hcause, behind, hbehind, happ⟩ := ih hbefore h
    refine ⟨hcause, behind, hbehind, ?_⟩
    rw [← happ, ← Source.readWhile_append hspace]
    simp only [lead, List.append_assoc, List.take_append_drop]
  | case7 before leading cs space rest hspace lead hpart hstrict =>
    cases h
    refine ⟨rfl, leading ++ cs, ?_, by simp⟩
    rw [← Source.readWhile_append hspace]
    simp [ne_nil_of_tagPart_attr hpart]
  | case8 before leading cs space rest hspace lead hpart _ fault hattr =>
    cases h
    obtain ⟨hcause, rfl | rfl⟩ := malformed_of_scanAttribute hattr
    · exact ⟨hcause, before ++ leading ++ cs, by simp [hbefore], rfl⟩
    · refine ⟨hcause, cs, ?_, rfl⟩
      rw [← Source.readWhile_append hspace]
      simp [ne_nil_of_tagPart_attr hpart]
  | case9 before leading cs space rest hspace lead hpart _ l rest₁ hattr fault hrec ih =>
    cases h
    obtain ⟨hcause, behind, hbehind, happ⟩ := ih (by simp [hbefore]) hrec
    refine ⟨hcause, behind, hbehind, ?_⟩
    have hraw := scanAttribute_append hattr
    rw [← happ, ← Source.readWhile_append hspace]
    simp only [lead, List.append_assoc, List.append_nil] at hraw ⊢
    rw [hraw]

theorem malformed_of_scanStartTag (hcs : cs ≠ [])
    (h : scanStartTag mode failure cs = .error (.malformed cause place)) :
    cause.construct? = some .startTag ∧ ∃ behind, behind ≠ [] ∧ cs = place ++ behind := by
  unfold scanStartTag at h
  split at h
  · cases h
  · next name rest hname =>
    simp only at h
    split at h
    · next hrec =>
      cases h
      have hraw : cs.take 1 ++ name ≠ [] := by simp [hcs]
      obtain ⟨hcause, behind, hbehind, happ⟩ := malformed_of_scanTagRest hraw hrec
      refine ⟨hcause, behind, hbehind, ?_⟩
      rw [← happ, List.append_nil, List.append_assoc, Source.readWhile_append hname,
        List.take_append_drop]
    · cases h

theorem malformed_of_scanEndTag
    (h : scanEndTag mode failure cs = .error (.malformed cause place)) :
    cause.construct? = some .endTag ∧ place = [] := by
  unfold scanEndTag at h
  split at h
  · cases h
  · split at h
    · cases h
    · cases h
      exact ⟨rfl, rfl⟩
    · split at h <;> cases h
      exact ⟨rfl, rfl⟩

theorem malformed_of_scanDelimited {k : Construct} {start stop : List Char} {cause' : Malformation}
    {kind : String → TokenKind} (hk : k.Delimits start stop cause' kind)
    (h : scanDelimited failure start stop cause' kind cs = .error (.malformed cause place)) :
    cause.construct? = some k ∧ place = [] := by
  unfold scanDelimited at h
  split at h <;> cases h
  exact ⟨by cases hk <;> rfl, rfl⟩

theorem error_of_map_one {e : Except Fault (Lexeme × List Char)} {fault : Fault}
    (h : e.map one = .error fault) : e = .error fault := by
  cases e with
  | error => exact congrArg _ (Except.error.inj h)
  | ok => cases h

theorem malformed_of_scanMarkup (hcs : cs ≠ [])
    (h : scanMarkup mode failure inBlock cs = .error (.malformed cause place)) :
    ∃ k behind, construct failure cs = .ok k ∧ cause.construct? = some k ∧ behind ≠ [] ∧
      cs = place ++ behind := by
  have hdelimited {k : Construct} {start stop : List Char} {cause' : Malformation}
      {kind : String → TokenKind} (hconstruct : construct failure cs = .ok k)
      (hk : k.Delimits start stop cause' kind) : cause.construct? = some k ∧ place = [] := by
    rw [scanMarkup_of_delimits hk mode inBlock hconstruct] at h
    exact malformed_of_scanDelimited hk (error_of_map_one h)
  cases hconstruct : construct failure cs with
  | error => simp [scanMarkup, hconstruct] at h
  | ok k =>
    suffices hplace : cause.construct? = some k ∧ ∃ behind, behind ≠ [] ∧ cs = place ++ behind by
      obtain ⟨hcause, behind, hbehind, happ⟩ := hplace
      exact ⟨k, behind, rfl, hcause, hbehind, happ⟩
    have hstart (hplace : cause.construct? = some k ∧ place = []) :
        cause.construct? = some k ∧ ∃ behind, behind ≠ [] ∧ cs = place ++ behind := by
      obtain ⟨hcause, rfl⟩ := hplace
      exact ⟨hcause, cs, hcs, rfl⟩
    cases k with
    | block =>
      simp only [scanMarkup, hconstruct] at h
      split at h <;> cases h
      exact hstart ⟨rfl, rfl⟩
    | parserComment => exact hstart (hdelimited hconstruct .parserComment)
    | comment => exact hstart (hdelimited hconstruct .comment)
    | cdata => exact hstart (hdelimited hconstruct .cdata)
    | docType => exact hstart (hdelimited hconstruct .docType)
    | instruction => exact hstart (hdelimited hconstruct .instruction)
    | endTag =>
      rw [scanMarkup, hconstruct] at h
      exact hstart (malformed_of_scanEndTag (error_of_map_one h))
    | startTag =>
      rw [scanMarkup, hconstruct] at h
      exact malformed_of_scanStartTag hcs h

/-- A malformation is found where a construct begins, and it is one of this construct. The place to
blame lies in front of something that is there. -/
theorem malformed_of_scanUnit (hcs : cs ≠ [])
    (h : scanUnit mode failure inBlock cs = .error (.malformed cause place)) :
    opensMarkup failure cs = .ok true ∧ ∃ k behind, construct failure cs = .ok k ∧
      cause.construct? = some k ∧ behind ≠ [] ∧ cs = place ++ behind := by
  unfold scanUnit at h
  split at h
  · cases h
  · cases h
  · split at h
    · cases h
    · next hopens => exact ⟨hopens, malformed_of_scanMarkup hcs h⟩
    · unfold scanText at h
      split at h <;> cases h

end

end Lexeme

/-! ## Open blocks -/

/-- The start of the block that is open behind some tokens. -/
def Token.openBlock (block : Option Location) (ts : List Token) : Option Location :=
  ts.foldl (fun block t => match t.kind with
    | .blockStart => some t.location
    | .blockEnd => none
    | _ => block) block

theorem Token.openBlock_append (block : Option Location) (ts us : List Token) :
    openBlock block (ts ++ us) = openBlock (openBlock block ts) us := by
  rw [openBlock, List.foldl_append]
  rfl

/-- A block that is open was opened by the last mark. -/
theorem Token.exists_of_openBlock {ts : List Token} {start : Location}
    (h : openBlock none ts = some start) :
    ∃ front t back, ts = front ++ t :: back ∧ t.kind = .blockStart ∧ t.location = start ∧
      ∀ u ∈ back, u.kind.isBlockMark = false := by
  induction ts using List.reverseRecOn with
  | nil => cases h
  | append_singleton ts t ih =>
    rw [openBlock_append] at h
    cases hmark : t.kind.isBlockMark with
    | false =>
      have hsame : openBlock (openBlock none ts) [t] = openBlock none ts := by
        cases hkind : t.kind <;> simp_all [openBlock, TokenKind.isBlockMark]
      obtain ⟨front, u, back, rfl, hstart, hlocation, hback⟩ := ih (hsame.symm.trans h)
      refine ⟨front, u, back ++ [t], by simp, hstart, hlocation, ?_⟩
      simpa [or_imp, forall_and] using ⟨hback, hmark⟩
    | true =>
      obtain ⟨hstart, hlocation⟩ : t.kind = .blockStart ∧ t.location = start := by
        cases hkind : t.kind <;> simp_all [openBlock, TokenKind.isBlockMark]
      exact ⟨ts, t, [], rfl, hstart, hlocation, by simp⟩

theorem Token.openBlock_of_forall {ts : List Token} (block : Option Location)
    (h : ∀ t ∈ ts, t.kind.isBlockMark = false) : openBlock block ts = block := by
  induction ts with
  | nil => rfl
  | cons t ts ih =>
    obtain ⟨ht, hts⟩ := List.forall_mem_cons.mp h
    have hsame : openBlock block [t] = block := by
      cases hkind : t.kind <;> simp_all [openBlock, TokenKind.isBlockMark]
    rw [← List.singleton_append, openBlock_append, hsame, ih hts]

theorem Lexeme.openBlock_locate {mode : Mode} {failure : Option ReadFailure} {inBlock : Bool}
    {cs rest : List Char} {ls : List Lexeme} (block : Option Location) (p : Position)
    (h : scanUnit mode failure inBlock cs = .ok (ls, rest)) :
    Token.openBlock block (locate p ls) = blockAfter block p.location ls := by
  cases steps_of_scanUnit h with
  | blockEnd | text => rfl
  | markup _ hscan =>
    cases scans_of_scanMarkup hscan with
    | blockStart => rfl
    | delimited hk _ hscan =>
      obtain ⟨content, hl⟩ := kind_of_scanDelimited hscan
      cases hk <;> simp [locate, Token.openBlock, blockAfter, hl]
    | endTag _ hscan =>
      obtain ⟨name, hl⟩ := kind_of_scanEndTag hscan
      simp [locate, Token.openBlock, blockAfter, hl]
    | startTag _ hscan =>
      cases scansTag_of_scanStartTag hscan with
      | intro _ hparts =>
        obtain ⟨attributes, trailing, selfClosing, rfl⟩ := exists_of_scanTagRest hparts
        refine Token.openBlock_of_forall block
          (forall_kind_locate (q := fun k => k.isBlockMark = false) (fun l hl => ?_) p)
        simp only [Tag.partLexemes, List.mem_cons, List.mem_append, List.mem_map,
          List.not_mem_nil, or_false] at hl
        obtain rfl | ⟨a, -, rfl⟩ | rfl := hl <;> rfl

/-! ## Reading -/

namespace Tokens

/-- How tokens that were read from a position on stop at malformed markup: what they leave to read
begins with a construct that cannot be read, or nothing is left and a block is still open. -/
inductive Breaks (mode : Mode) (failure : Option ReadFailure) (p : Position)
    (block : Option Location) (cs : List Char) (ts : List Token) (cause : Malformation)
    (location : Location) : Prop where
  | construct {rest place : List Char} (htext : cs = (Token.rawText ts).toList ++ rest)
      (hrest : rest ≠ [])
      (hscan : scanUnit mode failure (Token.openBlock block ts).isSome rest =
        .error (.malformed cause place))
      (hlocation : location =
        (p.advanceBy ((Token.rawText ts).toList ++ place)).location)
  | block (htext : cs = (Token.rawText ts).toList) (hcause : cause = .unterminatedBlock)
      (hblock : Token.openBlock block ts = some location)

theorem Breaks.prepend {mode : Mode} {failure : Option ReadFailure} {p : Position}
    {block : Option Location} {cs text : List Char} {ts us : List Token} {cause : Malformation}
    {location : Location}
    (h : Breaks mode failure (p.advanceBy text) (Token.openBlock block ts) cs us cause location)
    (htext : Token.rawText ts = String.ofList text) :
    Breaks mode failure p block (text ++ cs) (ts ++ us) cause location := by
  have hraw : (Token.rawText (ts ++ us)).toList = text ++ (Token.rawText us).toList := by
    rw [Token.rawText_append, htext, String.toList_append, String.toList_ofList]
  cases h with
  | construct hcs hrest hscan hlocation =>
    refine .construct ?_ hrest (by rwa [Token.openBlock_append]) ?_
    · rw [hcs, hraw, List.append_assoc]
    · rw [hlocation, hraw, List.append_assoc, Position.advanceBy_append p]
  | block hcs hcause hblock =>
    exact .block (by rw [hcs, hraw]) hcause (by rwa [Token.openBlock_append])

theorem read_breaks {mode : Mode} {failure : Option ReadFailure} {p : Position}
    {block : Option Location} {body : Option String} {cs : List Char} {cause : Malformation}
    {location : Location}
    (h : (read mode failure p block body cs).error = some (.malformed cause location)) :
    Breaks mode failure p block cs (read mode failure p block body cs).tokens cause location := by
  fun_induction read mode failure p block body cs with
  | case1 | case4 | case6 => cases h
  | case2 p block name cs text rest hrun after hempty ih =>
    obtain rfl : text = [] := by simpa using hempty
    rw [← rawTextRun_append hrun]
    exact ih h
  | case3 p block name cs text rest hrun after hempty ih =>
    rw [← rawTextRun_append hrun]
    have htext : Token.rawText [.text (String.ofList text) p.location] = String.ofList text := by
      simp [Token.text]
    exact Breaks.prepend (ih h) htext
  | case5 p start =>
    cases h
    exact .block rfl rfl rfl
  | case7 p block c cs fault hscan =>
    cases fault with
    | source => cases h
    | malformed cause place =>
      cases h
      exact .construct rfl (List.cons_ne_nil c cs) hscan rfl
  | case8 p block c cs ls rest hscan ih =>
    rw [← scanUnit_append hscan]
    refine Breaks.prepend ?_ (rawText_locate p ls)
    rw [openBlock_locate block p hscan]
    exact ih h

/-- Between constructs no start tag is open. -/
theorem read_turn (mode : Mode) (failure : Option ReadFailure) (p : Position)
    (block : Option Location) (body : Option String) (cs : List Char) :
    (⟨false, block.isSome⟩ : Turn).after?
        ((read mode failure p block body cs).tokens.map Token.kind) =
      some ⟨false, (Token.openBlock block (read mode failure p block body cs).tokens).isSome⟩ := by
  fun_induction read mode failure p block body cs with
  | case1 | case4 | case5 | case6 | case7 => rfl
  | case2 p block name cs text rest hrun after hempty ih => exact ih
  | case3 p block name cs text rest hrun after hempty ih => exact ih
  | case8 p block c cs ls rest hscan ih =>
    rw [prepend, List.map_append, Turn.after?_append, map_kind_locate,
      (isUnit_of_scanUnit hscan).2 p.location, Option.bind_some, Token.openBlock_append,
      openBlock_locate block p hscan]
    exact ih

end Tokens

/-- A stream that comes upon malformed markup has given all tokens in front of it, and gives nothing
behind the error. The construct that cannot be read begins where these tokens end, and the place to
blame is in its text; or the source ends inside a block, and the place is that of its mark. -/
theorem TokenStream.answer_of_malformed {mode : Mode} {s : Source} {n : ℕ} {cause : Malformation}
    {location : Location}
    (h : (ofSource mode s).answer n = some (.error (.malformed cause location))) :
    ∃ ts rest inBlock,
      (∀ m, (ofSource mode s).answer m =
        (ts.map .ok ++ [.error (.malformed cause location)])[m]?) ∧
      String.ofList s.chars = Token.rawText ts ++ String.ofList rest ∧
      ({} : Turn).after? (ts.map Token.kind) = some ⟨false, inBlock⟩ ∧
      ((∃ k place behind, opensMarkup s.failure rest = .ok true ∧
          construct s.failure rest = .ok k ∧ cause.construct? = some k ∧
          scanUnit mode s.failure inBlock rest = .error (.malformed cause place) ∧
          rest = place ++ behind ∧ behind ≠ [] ∧
          location = .after (Token.rawText ts ++ String.ofList place)) ∨
        (cause = .unterminatedBlock ∧ rest = [] ∧
          ∃ front t back, ts = front ++ t :: back ∧ t.kind = .blockStart ∧
            t.location = location ∧ ∀ u ∈ back, u.kind.isBlockMark = false)) := by
  have herror : (tokenize mode s).error = some (.malformed cause location) := by
    rw [answer_ofSource] at h
    obtain hmem | hmem := List.mem_append.mp (List.mem_of_getElem? h)
    · simp at hmem
    · simpa using hmem
  have hitems : (tokenize mode s).items =
      (tokenize mode s).tokens.map .ok ++ [.error (.malformed cause location)] := by
    rw [Tokens.items, herror]
    rfl
  have hturn := Tokens.read_turn mode s.failure .start none none s.chars
  refine ⟨(tokenize mode s).tokens, ?_⟩
  cases Tokens.read_breaks herror with
  | @construct rest place htext hrest hscan hlocation =>
    obtain ⟨hopens, k, behind, hconstruct, hcause, hbehind, happ⟩ :=
      malformed_of_scanUnit hrest hscan
    refine ⟨rest, _, fun m => by rw [answer_ofSource, hitems], ?_, hturn, .inl
      ⟨k, place, behind, hopens, hconstruct, hcause, hscan, happ, hbehind, ?_⟩⟩
    · rw [htext, String.ofList_append, String.ofList_toList]
      simp [tokenize, Tokens.prepend]
    · rw [hlocation, Position.location_advanceBy_start, String.ofList_append, String.ofList_toList]
      simp [tokenize, Tokens.prepend]
  | block htext hcause hblock =>
    refine ⟨[], _, fun m => by rw [answer_ofSource, hitems], ?_, hturn, .inr ⟨hcause, rfl, ?_⟩⟩
    · rw [htext, String.ofList_toList]
      simp [tokenize, Tokens.prepend]
    · have hopen : Token.openBlock none (tokenize mode s).tokens = some location := hblock
      exact Token.exists_of_openBlock hopen

/-- Strict rules want the second value quoted. The place is behind the first attribute, in a tag of
which no token comes out. -/
theorem TokenStream.answer_of_malformed_unquoted :
    let s := Source.ofString "é<!--/*/<a x=\"1\"\r\n y=2>"
    (ofSource .strict s).answer 3 =
        some (.error (.malformed (.valueNotDoubleQuoted "y") ⟨1, 17, 17⟩)) ∧
      ∃ ts rest, (∀ m, (ofSource .strict s).answer m =
          (ts.map .ok ++ [.error (.malformed (.valueNotDoubleQuoted "y") ⟨1, 17, 17⟩)])[m]?) ∧
        String.ofList s.chars = Token.rawText ts ++ String.ofList rest := by
  intro s
  have h : (ofSource .strict s).answer 3 =
      some (.error (.malformed (.valueNotDoubleQuoted "y") ⟨1, 17, 17⟩)) := by
    rw [answer_ofSource]
    decide +kernel
  obtain ⟨ts, rest, inBlock, hanswer, htext, -⟩ := answer_of_malformed h
  exact ⟨h, ts, rest, hanswer, htext⟩

end NaturalTemplate.Markup
