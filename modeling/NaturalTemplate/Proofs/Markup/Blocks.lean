import NaturalTemplate.Proofs.Markup.RoundTrip
import NaturalTemplate.Proofs.Markup.Units

/-!
# What strict reading leaves to build

Strict reading goes on from construct to construct. A block that it has read it reads again
wherever the text of the block stands, so that a block which was folded into one comment stays one
comment. To the builder, a source that was read is a sequence of tags, texts and such leaves.
-/
namespace NaturalTemplate.Markup

namespace Lexeme

theorem locate_append (p : Position) (ls ms : List Lexeme) :
    locate p (ls ++ ms) = locate p ls ++ locate (p.advanceBy (rawText ls)) ms := by
  induction ls generalizing p with
  | nil => rfl
  | cons l ls ih => simp [locate, ih, Position.advanceBy_append]

theorem Shape.closed {ls : List Lexeme} (h : Shape true ls) : Closed ls := by
  cases h with
  | tag _ ht => exact closed_tag ht
  | endTag _ hname hspace => exact closed_endTag hname hspace
  | leaf _ _ hclosed => exact hclosed

theorem Shape.blockAfter_eq {ls : List Lexeme} (h : Shape true ls) (block : Option Location)
    (l : Location) : blockAfter block l ls = block := by
  cases h with
  | tag _ ht => rfl
  | endTag _ hname hspace => rfl
  | @leaf _ k hkind _ =>
    unfold blockAfter
    split <;> simp_all [TokenKind.isLeaf]

theorem endsText_none (inBlock : Bool) (cs : List Char) :
    ∃ ends, endsText none inBlock cs = .ok ends := by
  obtain ⟨opens, hopens⟩ : ∃ opens, opensMarkup none cs = .ok opens := ⟨_, opensMarkup_none cs⟩
  cases opens <;> cases inBlock <;>
    simp [endsText, hopens, bind, Except.bind, pure, Except.pure]

/-- Text ends where nothing is left, or where it is said to end. -/
theorem ends_of_textRun {inBlock : Bool} {cs text rest : List Char}
    (h : textRun none inBlock cs = .ok (text, rest)) :
    rest = [] ∨ endsText none inBlock rest = .ok true := by
  induction text generalizing cs with
  | nil =>
    cases cs with
    | nil =>
      simp only [textRun, Except.ok.injEq, Prod.mk.injEq, true_and] at h
      exact .inl h.symm
    | cons c cs =>
      obtain ⟨ends, hends⟩ := endsText_none inBlock (c :: cs)
      cases ends with
      | true =>
        cases (textRun_of_ends hends).symm.trans h
        exact .inr hends
      | false =>
        rw [textRun_cons hends] at h
        cases hrun : textRun none inBlock cs <;> simp [hrun, Except.map] at h
  | cons c text ih =>
    obtain ⟨ds, -, -, hrun⟩ := textRun_eq_cons h
    exact ih hrun

end Lexeme

namespace Tokens
open Lexeme

theorem prepend_prepend (t : Tokens) (ts us : List Token) :
    (t.prepend us).prepend ts = t.prepend (ts ++ us) := by
  simp [prepend]

/-- One step of reading. -/
theorem read_next {mode : Mode} {failure : Option ReadFailure} {p : Position}
    {block : Option Location} {cs rest : List Char} {ls : List Lexeme} (hcs : cs ≠ [])
    (h : scanUnit mode failure block.isSome cs = .ok (ls, rest)) :
    read mode failure p block none cs =
      (read mode failure (p.advanceBy (rawText ls)) (blockAfter block p.location ls)
        (rawTextAfter mode ls) rest).prepend (locate p ls) := by
  obtain ⟨c, ds, rfl⟩ := List.exists_cons_of_ne_nil hcs
  rw [read]
  split
  · simp_all
  · next hscan => cases h.symm.trans hscan; rfl

/-- One step of strict reading. -/
theorem read_of_scanUnit {p : Position} {block : Option Location} {cs rest : List Char}
    {ls : List Lexeme} (hcs : cs ≠ [])
    (h : scanUnit .strict none block.isSome cs = .ok (ls, rest)) :
    read .strict none p block none cs =
      (read .strict none (p.advanceBy (rawText ls)) (blockAfter block p.location ls) none
        rest).prepend (locate p ls) := by
  rw [read_next hcs h]
  simp [rawTextAfter]

/-- What could be read to its end began with something. -/
theorem exists_of_read {mode : Mode} {p : Position} {block : Option Location} {cs : List Char}
    (hcs : cs ≠ []) (h : (read mode none p block none cs).error = none) :
    ∃ ls rest, scanUnit mode none block.isSome cs = .ok (ls, rest) := by
  obtain ⟨c, ds, rfl⟩ := List.exists_cons_of_ne_nil hcs
  rw [read] at h
  split at h
  · simp at h
  · next ls rest hscan => exact ⟨ls, rest, hscan⟩

/-- What strict reading does where nothing goes wrong. -/
theorem cases_of_read {p : Position} {block : Option Location} {cs : List Char}
    (h : (read .strict none p block none cs).error = none) :
    (cs = [] ∧ block = none) ∨ ∃ ls rest, cs ≠ [] ∧ rest.length < cs.length ∧
      scanUnit .strict none block.isSome cs = .ok (ls, rest) ∧
      (read .strict none (p.advanceBy (rawText ls)) (blockAfter block p.location ls) none
        rest).error = none := by
  by_cases hcs : cs = []
  · subst hcs
    cases block with
    | none => exact .inl ⟨rfl, rfl⟩
    | some start => simp [read] at h
  · obtain ⟨ls, rest, hscan⟩ := exists_of_read hcs h
    rw [read_of_scanUnit hcs hscan] at h
    exact .inr ⟨ls, rest, hcs, scanUnit_length hcs hscan, hscan, h⟩

theorem read_closed {ls : List Lexeme} (hclosed : Closed ls) {p : Position}
    {block : Option Location} (hblock : blockAfter block p.location ls = block)
    (rest : List Char) :
    read .strict none p block none (rawText ls ++ rest) =
      (read .strict none (p.advanceBy (rawText ls)) block none rest).prepend (locate p ls) := by
  have hne : rawText ls ++ rest ≠ [] := by
    obtain ⟨ds, hds⟩ := opensMarkup_mark (hclosed.opens rest)
    simp [← hds]
  rw [read_of_scanUnit hne (hclosed.scanUnit block.isSome rest), hblock]

theorem read_text (mode : Mode) (p : Position) {block : Option Location}
    {cs text rest : List Char} (hne : text ≠ [])
    (h : textRun none block.isSome cs = .ok (text, rest)) :
    read mode none p block none cs =
      (read mode none (p.advanceBy text) block none rest).prepend (locate p [ofText text]) := by
  have hcs : cs ≠ [] := by
    rw [← textRun_append h]
    simp [hne]
  have hraw : rawTextAfter mode [ofText text] = none := by cases mode <;> rfl
  rw [read_next hcs (scanUnit_of_textRun mode hne h), hraw]
  simp [ofText, blockAfter]

theorem read_blockEnd {mode : Mode} {p : Position} {start : Location} (rest : List Char) :
    read mode none p (some start) none (Mark.blockEnd ++ rest) =
      (read mode none (p.advanceBy Mark.blockEnd) none none rest).prepend
        (locate p [⟨.blockEnd, Mark.blockEnd⟩]) := by
  have hscan : scanUnit mode none (some start).isSome (Mark.blockEnd ++ rest) =
      .ok ([⟨.blockEnd, Mark.blockEnd⟩], rest) := by
    have hmark : Mark.blockEnd.isPrefixOf (Mark.blockEnd ++ rest) = true := by simp
    simp [scanUnit, hmark]
  rw [read_next (by simp [Mark.blockEnd]) hscan]
  simp [blockAfter, rawTextAfter]

/-- What a block can have inside. -/
def Inner (ls : List Lexeme) : Prop :=
  Shape true ls ∨ ∃ text, text ≠ [] ∧ ls = [ofText text]

/-- Whether the text of constructs and of the mark behind them is read as these, wherever it
stands in a block. -/
def EndsBlock (units : List (List Lexeme)) : Prop :=
  ∀ (p : Position) (start : Location) (rest : List Char),
    read .strict none p (some start) none (rawText units.flatten ++ Mark.blockEnd ++ rest) =
      (read .strict none (p.advanceBy (rawText units.flatten ++ Mark.blockEnd)) none none
        rest).prepend (locate p (units.flatten ++ [⟨.blockEnd, Mark.blockEnd⟩]))

theorem EndsBlock.cons {ls : List Lexeme} {units : List (List Lexeme)} (h : EndsBlock units)
    (hread : ∀ (p : Position) (start : Location) (rest : List Char),
      read .strict none p (some start) none
          (rawText ls ++ (rawText units.flatten ++ Mark.blockEnd ++ rest)) =
        (read .strict none (p.advanceBy (rawText ls)) (some start) none
          (rawText units.flatten ++ Mark.blockEnd ++ rest)).prepend (locate p ls)) :
    EndsBlock (ls :: units) := by
  intro p start rest
  have htext : rawText (ls :: units).flatten ++ Mark.blockEnd ++ rest =
      rawText ls ++ (rawText units.flatten ++ Mark.blockEnd ++ rest) := by
    simp [rawText_append]
  rw [htext, hread, h, prepend_prepend]
  simp only [List.flatten_cons, rawText_append, List.append_assoc, locate_append,
    Position.advanceBy_append]

/-- A block that strict reading has begun to read is read to its end. -/
theorem exists_block {p : Position} {start : Location} {cs : List Char}
    (h : (read .strict none p (some start) none cs).error = none) :
    ∃ units rest, cs = rawText (List.flatten units) ++ Mark.blockEnd ++ rest ∧
      (∀ ls ∈ units, Inner ls) ∧ EndsBlock units ∧
      (endsText none true cs = .ok true → Stops (rawText units.flatten ++ Mark.blockEnd)) := by
  induction hn : cs.length using Nat.strong_induction_on generalizing p cs with
  | _ n ih =>
    obtain ⟨-, hnone⟩ | ⟨ls, rest, hcs, hlength, hscan, herror⟩ := cases_of_read h
    · simp at hnone
    have happ := scanUnit_append hscan
    obtain ⟨-, rfl⟩ | hshape | ⟨text, hne, rfl, hrun⟩ := cases_of_scanUnit hcs hscan
    · refine ⟨[], rest, ?_, by simp, fun p start rest => ?_, fun _ => ?_⟩
      · simpa using happ.symm
      · simpa using read_blockEnd rest
      · simpa using stops_blockEnd
    · rw [hshape.blockAfter_eq] at herror
      obtain ⟨units, more, rfl, hinner, hread, -⟩ := ih _ (hn ▸ hlength) herror rfl
      refine ⟨ls :: units, more, ?_, List.forall_mem_cons.mpr ⟨.inl hshape, hinner⟩, ?_, ?_⟩
      · rw [← happ]
        simp [rawText_append]
      · exact hread.cons fun p start rest => read_closed hshape.closed (hshape.blockAfter_eq ..) _
      · intro _
        rw [List.flatten_cons, rawText_append, List.append_assoc]
        refine hshape.closed.stops ?_
        rw [List.length_append]
        exact Nat.le_add_left ..
    · have hafter : blockAfter (some start) p.location [ofText text] = some start := rfl
      rw [hafter] at herror
      obtain ⟨units, more, rfl, hinner, hread, hstops⟩ := ih _ (hn ▸ hlength) herror rfl
      have hstops := hstops ((ends_of_textRun hrun).resolve_left (by simp [Mark.blockEnd]))
      refine ⟨[ofText text] :: units, more, ?_,
        List.forall_mem_cons.mpr ⟨.inr ⟨text, hne, rfl⟩, hinner⟩, ?_, ?_⟩
      · rw [← happ]
        simp
      · refine hread.cons fun p start rest => ?_
        have hagain := textRun_append_stops hstops (textRun_append hrun ▸ hrun) rest
        have hread := @read_text .strict p (some start) _ _ _ hne hagain
        simpa [ofText] using hread
      · intro hends
        obtain ⟨c, text, rfl⟩ := List.exists_cons_of_ne_nil hne
        obtain ⟨ds, rfl, hfalse, -⟩ := textRun_eq_cons hrun
        cases hfalse.symm.trans hends

end Tokens
end NaturalTemplate.Markup
