import NaturalTemplate.Markup.Token.Lexer
import NaturalTemplate.Proofs.Source.Lookahead

/-!
# Reading a source that failed

A source that failed is read like one that ends there with all its characters, until a question
needs more of them than there are. Then reading stops with the failure.
-/
namespace NaturalTemplate.Markup

namespace Lexeme

/-! ## Text -/

theorem agrees_opensMarkup (f : ReadFailure) (cs : List Char) :
    Source.Agrees f (opensMarkup (some f) cs) (opensMarkup none cs) := by
  refine (Source.agrees_peek f 0 cs).bind fun c => ?_
  split
  · refine (Source.agrees_peek f 1 cs).bind fun d => ?_
    split
    · refine (Source.agrees_lookingAt f _ cs).bind fun comment => ?_
      split
      · exact .refl _
      · refine (Source.agrees_lookingAt f _ cs).bind fun cdata => ?_
        split
        · exact .refl _
        · exact Source.agrees_lookingAtIgnoringCase f _ cs
    · exact .refl _
    · exact (Source.agrees_peek f 2 cs).bind fun e => .refl _
    · exact .refl _
    · exact .refl _
  · exact .refl _

theorem agrees_endsText (f : ReadFailure) (inBlock : Bool) (cs : List Char) :
    Source.Agrees f (endsText (some f) inBlock cs) (endsText none inBlock cs) := by
  refine (agrees_opensMarkup f cs).bind fun opens => ?_
  split
  · exact .refl _
  · split
    · exact Source.agrees_lookingAt f _ cs
    · exact .refl _

theorem agrees_textRun (f : ReadFailure) (inBlock : Bool) (cs : List Char) :
    Source.Agrees f (textRun (some f) inBlock cs) (textRun none inBlock cs) := by
  induction cs with
  | nil => exact .inl rfl
  | cons c cs ih =>
    refine (agrees_endsText f inBlock (c :: cs)).bind fun ends => ?_
    split
    · exact .refl _
    · exact ih.bind fun run => .refl _

theorem agrees_closesRawText (f : ReadFailure) (close cs : List Char) :
    Source.Agrees f (closesRawText (some f) close cs) (closesRawText none close cs) := by
  refine (Source.agrees_lookingAtIgnoringCase f close cs).bind fun found => ?_
  split
  · exact (Source.agrees_peek f close.length cs).bind fun c => .refl _
  · exact .refl _

theorem agrees_rawTextRun (f : ReadFailure) (close cs : List Char) :
    Source.Agrees f (rawTextRun (some f) close cs) (rawTextRun none close cs) := by
  induction cs with
  | nil => exact .inl rfl
  | cons c cs ih =>
    refine (agrees_closesRawText f close (c :: cs)).bind fun closes => ?_
    split
    · exact .refl _
    · exact ih.bind fun run => .refl _

/-! ## Constructs -/

theorem agrees_construct (f : ReadFailure) (cs : List Char) :
    Source.Agrees f (construct (some f) cs) (construct none cs) := by
  have hask (pattern : List Char) {yes no no' : Except ReadFailure Construct}
      (h : Source.Agrees f no no') :
      Source.Agrees f (do if ← Source.lookingAt (some f) pattern cs then yes else no)
        (do if ← Source.lookingAt none pattern cs then yes else no') := by
    refine (Source.agrees_lookingAt f pattern cs).bind fun found => ?_
    cases found
    · exact h
    · exact .refl _
  refine hask _ (hask _ (hask _ (hask _ ?_)))
  refine (Source.agrees_lookingAtIgnoringCase f _ cs).bind fun found => ?_
  split
  · exact .refl _
  · exact hask _ (hask _ (.refl _))

theorem agrees_scanDelimited (f : ReadFailure) (start stop : List Char) (cause : Malformation)
    (kind : String → TokenKind) (cs : List Char) :
    Source.Agrees (.source f) (scanDelimited (some f) start stop cause kind cs)
      (scanDelimited none start stop cause kind cs) := by
  unfold scanDelimited
  exact (Source.agrees_readUntil f stop _).elim (.inl rfl) (.refl _)

theorem agrees_scanEndTag (mode : Mode) (f : ReadFailure) (cs : List Char) :
    Source.Agrees (.source f) (scanEndTag mode (some f) cs) (scanEndTag mode none cs) := by
  unfold scanEndTag
  refine (Source.agrees_readWhile f isTagNameChar _).elim (.inl rfl) ?_
  split
  · exact .refl _
  · next name rest _ =>
    exact (Source.agrees_readUntil f Mark.tagEnd rest).elim (.inl rfl) (.refl _)

theorem agrees_scanName (mode : Mode) (f : ReadFailure) (cs : List Char) :
    Source.Agrees f (scanName mode (some f) cs) (scanName mode none cs) := by
  unfold scanName
  exact (Source.agrees_readWhile f isAttributeNameChar cs).elim (.inl rfl) (.refl _)

theorem agrees_scanValue (mode : Mode) (f : ReadFailure) (name : String) (before cs : List Char) :
    Source.Agrees (.source f) (scanValue mode (some f) name before cs)
      (scanValue mode none name before cs) := by
  unfold scanValue
  split
  · exact .inl rfl
  · next rest => exact (Source.agrees_readUntil f _ rest).elim (.inl rfl) (.refl _)
  · next c rest _ =>
    split
    · exact .refl _
    · split
      · exact (Source.agrees_readUntil f _ rest).elim (.inl rfl) (.refl _)
      · exact (Source.agrees_readWhile f _ (c :: rest)).elim (.inl rfl) (.refl _)

theorem agrees_scanAttribute (mode : Mode) (f : ReadFailure) (before leading cs : List Char) :
    Source.Agrees (.source f) (scanAttribute mode (some f) before leading cs)
      (scanAttribute mode none before leading cs) := by
  unfold scanAttribute
  refine (agrees_scanName mode f cs).elim (.inl rfl) ?_
  split
  · exact .refl _
  · exact .refl _
  · next name rest _ =>
    refine (Source.agrees_readWhile f Text.isBlank rest).elim (.inl rfl) ?_
    split
    · exact .refl _
    · next space afterEquals _ =>
      refine (Source.agrees_readWhile f Text.isBlank afterEquals).elim (.inl rfl) ?_
      split
      · exact .refl _
      · next moreSpace afterSpace _ =>
        exact (agrees_scanValue mode f _ before afterSpace).elim (.inl rfl) (.refl _)
    · exact .refl _

theorem agrees_tagPart (mode : Mode) (f : ReadFailure) (cs : List Char) :
    Source.Agrees f (tagPart mode (some f) cs) (tagPart mode none cs) := by
  refine (Source.agrees_peek f 0 cs).bind fun c => ?_
  split
  · exact .refl _
  · exact .refl _
  · exact (Source.agrees_peek f 1 cs).bind fun d => .refl _
  · exact .refl _

theorem agrees_scanTagRest (mode : Mode) (f : ReadFailure) (name : String)
    (before leading cs : List Char) :
    Source.Agrees (.source f) (scanTagRest mode (some f) name before leading cs)
      (scanTagRest mode none name before leading cs) := by
  induction hn : cs.length using Nat.strong_induction_on generalizing before leading cs with
  | _ n ih =>
    rw [scanTagRest]
    refine (Source.agrees_readWhile f Text.isBlank cs).elim (.inl rfl) ?_
    rw [scanTagRest]
    split
    · exact .refl _
    · next space rest hspace =>
      have hrest := congrArg List.length (Source.readWhile_append hspace)
      rw [List.length_append] at hrest
      refine (agrees_tagPart mode f rest).elim (.inl rfl) ?_
      split
      · exact .refl _
      · exact .refl _
      · exact .refl _
      · exact .refl _
      · next hpart =>
        have hpos := List.length_pos_iff.mpr (ne_nil_of_tagPart_slash hpart)
        refine ih _ ?_ _ _ _ rfl
        rw [List.length_drop]
        omega
      · dsimp only
        split
        · exact .refl _
        · refine (agrees_scanAttribute mode f _ _ rest).elim (.inl rfl) ?_
          split
          · exact .refl _
          · next l after hattr =>
            have hafter := scanAttribute_length hattr
            exact (ih _ (by omega) _ _ after rfl).elim (.inl rfl) (.refl _)

theorem agrees_scanStartTag (mode : Mode) (f : ReadFailure) (cs : List Char) :
    Source.Agrees (.source f) (scanStartTag mode (some f) cs) (scanStartTag mode none cs) := by
  unfold scanStartTag
  refine (Source.agrees_readWhile f isTagNameChar _).elim (.inl rfl) ?_
  split
  · exact .refl _
  · next name rest _ =>
    dsimp only
    exact (agrees_scanTagRest mode f _ _ [] rest).elim (.inl rfl) (.refl _)

theorem agrees_scanMarkup (mode : Mode) (f : ReadFailure) (inBlock : Bool) (cs : List Char) :
    Source.Agrees (.source f) (scanMarkup mode (some f) inBlock cs)
      (scanMarkup mode none inBlock cs) := by
  unfold scanMarkup
  refine (agrees_construct f cs).elim (.inl rfl) ?_
  split
  · exact .refl _
  · exact .refl _
  · exact (agrees_scanDelimited f _ _ _ _ cs).map one
  · exact (agrees_scanDelimited f _ _ _ _ cs).map one
  · exact (agrees_scanDelimited f _ _ _ _ cs).map one
  · exact (agrees_scanDelimited f _ _ _ _ cs).map one
  · exact (agrees_scanDelimited f _ _ _ _ cs).map one
  · exact (agrees_scanEndTag mode f cs).map one
  · exact agrees_scanStartTag mode f cs

theorem agrees_blockMark (f : ReadFailure) (inBlock : Bool) (cs : List Char) :
    Source.Agrees f (if inBlock then Source.lookingAt (some f) Mark.blockEnd cs else .ok false)
      (if inBlock then Source.lookingAt none Mark.blockEnd cs else .ok false) := by
  cases inBlock
  · exact .refl _
  · exact Source.agrees_lookingAt f _ cs

theorem agrees_scanUnit (mode : Mode) (f : ReadFailure) (inBlock : Bool) (cs : List Char) :
    Source.Agrees (.source f) (scanUnit mode (some f) inBlock cs)
      (scanUnit mode none inBlock cs) := by
  unfold scanUnit
  refine (agrees_blockMark f inBlock cs).elim (.inl rfl) ?_
  split
  · exact .refl _
  · exact .refl _
  · refine (agrees_opensMarkup f cs).elim (.inl rfl) ?_
    split
    · exact .refl _
    · exact agrees_scanMarkup mode f inBlock cs
    · unfold scanText
      exact (agrees_textRun f inBlock _).elim (.inl rfl) (.refl _)

end Lexeme

/-! ## Tokens -/

namespace Tokens

/-- Whether tokens are the ones that would be read without a failure, or the first of them up to
where it came. -/
def Agrees (f : ReadFailure) (failed full : Tokens) : Prop :=
  failed = full ∨ failed.error = some (.source f) ∧ failed.tokens <+: full.tokens

namespace Agrees

variable {f : ReadFailure} {failed full : Tokens}

theorem refl (ts : Tokens) : Agrees f ts ts := .inl rfl

theorem of_failed (full : Tokens) : Agrees f ⟨[], some (.source f)⟩ full :=
  .inr ⟨rfl, List.nil_prefix⟩

theorem prepend (h : Agrees f failed full) (ts : List Token) :
    Agrees f (failed.prepend ts) (full.prepend ts) := by
  obtain rfl | ⟨herror, hprefix⟩ := h
  · exact .inl rfl
  · exact .inr ⟨herror, (List.prefix_append_right_inj ts).mpr hprefix⟩

end Agrees

theorem agrees_read (mode : Mode) (f : ReadFailure) (p : Position) (block : Option Location)
    (body : Option String) (cs : List Char) :
    Agrees f (read mode (some f) p block body cs) (read mode none p block body cs) := by
  induction hn : 2 * cs.length + body.isSome.toNat using Nat.strong_induction_on
    generalizing p block body cs with
  | _ n ih =>
    rw [read.eq_def mode (some f), read.eq_def mode none]
    split
    · next name =>
      refine (Lexeme.agrees_rawTextRun f _ cs).elim (.of_failed _) ?_
      split
      · exact .refl _
      · next text rest hrun =>
        have hlength := congrArg List.length (Lexeme.rawTextRun_append hrun)
        rw [List.length_append] at hlength
        have hrest := ih _ (by simp at hn ⊢; omega) (p.advanceBy text) block none rest rfl
        dsimp only
        split
        · exact hrest
        · exact hrest.prepend _
    · split
      · exact .of_failed _
      · next c cs =>
        refine (Lexeme.agrees_scanUnit mode f _ (c :: cs)).elim (.of_failed _) ?_
        split
        · exact .refl _
        · next ls rest hscan =>
          have hlength := Lexeme.scanUnit_length (List.cons_ne_nil c cs) hscan
          have hbody := Bool.toNat_le (Lexeme.rawTextAfter mode ls).isSome
          exact (ih _ (by simp at hn hlength ⊢; omega) _ _ _ rest rfl).prepend _

/-- Reading gives the first of the tokens that there would be without a failure, and all of them
unless it stopped with the failure. -/
theorem tokens_read (mode : Mode) (failure : Option ReadFailure) (p : Position)
    (block : Option Location) (body : Option String) (cs : List Char) :
    (read mode failure p block body cs).tokens <+: (read mode none p block body cs).tokens ∧
      ((read mode failure p block body cs).tokens = (read mode none p block body cs).tokens ∨
        ∃ f, failure = some f ∧
          (read mode failure p block body cs).error = some (.source f)) := by
  cases failure with
  | none => exact ⟨List.prefix_rfl, .inl rfl⟩
  | some f =>
    obtain hsame | ⟨herror, hbegin⟩ := agrees_read mode f p block body cs
    · rw [hsame]
      exact ⟨List.prefix_rfl, .inl rfl⟩
    · exact ⟨hbegin, .inr ⟨f, rfl, herror⟩⟩

end Tokens
end NaturalTemplate.Markup
