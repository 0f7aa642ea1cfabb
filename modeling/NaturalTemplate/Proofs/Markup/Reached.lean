import NaturalTemplate.Proofs.Markup.Breaks
import NaturalTemplate.Proofs.Markup.Places

/-!
# Where reading comes to

A token that is a construct by itself was read where the tokens in front of it end, and what is
behind it was read from where it ends. A stream that has given some tokens stands where these and
the ones that it keeps end.
-/
namespace NaturalTemplate.Markup
open Lexeme

/-! ## Where tokens were read -/

namespace Lexeme

/-- A construct is one lexeme, or a start tag. -/
theorem single_or_isTagPart {mode : Mode} {failure : Option ReadFailure} {inBlock : Bool}
    {cs rest : List Char} {ls : List Lexeme}
    (h : scanUnit mode failure inBlock cs = .ok (ls, rest)) :
    (∃ l, ls = [l]) ∨ ∀ l ∈ ls, l.kind.isTagPart = true := by
  cases steps_of_scanUnit h with
  | blockEnd | text => exact .inl ⟨_, rfl⟩
  | markup _ hscan =>
    cases scans_of_scanMarkup hscan with
    | blockStart | delimited | endTag => exact .inl ⟨_, rfl⟩
    | startTag _ hscan =>
      cases scansTag_of_scanStartTag hscan with
      | intro _ hparts =>
        obtain ⟨attributes, trailing, selfClosing, rfl⟩ := exists_of_scanTagRest hparts
        refine .inr fun l hl => ?_
        simp only [Tag.partLexemes, List.mem_cons, List.mem_append, List.mem_map,
          List.not_mem_nil, or_false] at hl
        obtain rfl | ⟨a, -, rfl⟩ | rfl := hl <;> rfl

theorem lead_of_isTagPart_eq_false {l : Lexeme} (h : l.kind.isTagPart = false) : l.lead = [] := by
  unfold lead
  split <;> simp_all [TokenKind.isTagPart]

theorem rawTextAfter_singleton (mode : Mode) (l : Lexeme) : rawTextAfter mode [l] = none := by
  unfold rawTextAfter
  split
  · next hhead hlast => simp_all
  · rfl

end Lexeme

namespace Tokens

/-- How a token was read, behind others from a position on: with the unit that begins where some of
these end, and whose tokens are the rest of them, this one and some more. What is behind it are
these and what is read from where the unit ends. -/
inductive ReadIn (mode : Mode) (failure : Option ReadFailure) (p : Position)
    (block : Option Location) (cs : List Char) (front : List Token) (t : Token) (after : Tokens) :
    Prop where
  | intro {before inside more : List Token} {ls : List Lexeme} {here rest : List Char}
      (hfront : front = before ++ inside) (htext : cs = (Token.rawText before).toList ++ here)
      (hhere : here ≠ [])
      (hscan : scanUnit mode failure (Token.openBlock block before).isSome here = .ok (ls, rest))
      (hunit : locate (p.advanceBy (Token.rawText before).toList) ls = inside ++ t :: more)
      (hafter : after = prepend more
        (read mode failure (p.advanceBy ((Token.rawText before).toList ++ rawText ls))
          (blockAfter (Token.openBlock block before)
            (p.advanceBy (Token.rawText before).toList).location ls) (rawTextAfter mode ls) rest))

section
variable {mode : Mode} {failure : Option ReadFailure} {p : Position} {block : Option Location}
  {body : Option String} {cs text : List Char} {front back ts : List Token} {t : Token}
  {after : Tokens}

theorem ReadIn.prepend
    (h : ReadIn mode failure (p.advanceBy text) (Token.openBlock block ts) cs front t after)
    (htext : Token.rawText ts = String.ofList text) :
    ReadIn mode failure p block (text ++ cs) (ts ++ front) t after := by
  have hraw (us : List Token) :
      (Token.rawText (ts ++ us)).toList = text ++ (Token.rawText us).toList := by
    rw [Token.rawText_append, htext, String.toList_append, String.toList_ofList]
  cases h with
  | @intro before inside more ls here rest hfront hcs hhere hscan hunit hafter =>
    rw [← Token.openBlock_append] at hscan
    have hfront' : ts ++ front = ts ++ before ++ inside := by rw [hfront, List.append_assoc]
    have hunit' : locate (p.advanceBy (Token.rawText (ts ++ before)).toList) ls =
        inside ++ t :: more := by
      rwa [hraw, Position.advanceBy_append]
    refine .intro hfront' ?_ hhere hscan hunit' ?_
    · rw [hcs, hraw, List.append_assoc]
    · rw [hafter, hraw, List.append_assoc, Position.advanceBy_append p text,
        Position.advanceBy_append p text, Token.openBlock_append]

/-- A token that is no text and no end of the document was read with a unit. -/
theorem readIn_of_read (htext : t.isText = false) (hend : t.kind ≠ .documentEnd)
    (h : (read mode failure p block body cs).tokens = front ++ t :: back) :
    ReadIn mode failure p block cs front t
      ⟨back, (read mode failure p block body cs).error⟩ := by
  fun_induction read mode failure p block body cs generalizing front with
  | case1 | case4 | case5 | case7 => simp at h
  | case2 p block cs name text rest hrun after hempty =>
    rename_i ih
    obtain rfl : text = [] := by simpa using hempty
    rw [← rawTextRun_append hrun]
    exact ih h
  | case3 p block cs name text rest hrun after hempty =>
    rename_i ih
    have h : Token.text (String.ofList text) p.location :: after.tokens = front ++ t :: back := h
    cases front with
    | nil =>
      obtain ⟨rfl, -⟩ := List.cons.inj h
      cases htext
    | cons u front =>
      obtain ⟨rfl, hrest⟩ := List.cons.inj h
      have hraw : Token.rawText [.text (String.ofList text) p.location] = String.ofList text := by
        simp [Token.text]
      rw [← rawTextRun_append hrun]
      exact ReadIn.prepend (ih hrest) hraw
  | case6 p =>
    cases front with
    | nil =>
      obtain ⟨rfl, -⟩ := List.cons.inj h
      exact absurd rfl hend
    | cons u front =>
      obtain ⟨-, h⟩ := List.cons.inj h
      simp at h
  | case8 p block c cs ls rest hscan =>
    rename_i ih
    have hlater {more : List Token}
        (hmore : (read mode failure (p.advanceBy (rawText ls)) (blockAfter block p.location ls)
          (rawTextAfter mode ls) rest).tokens = more ++ t :: back) :
        ReadIn mode failure p block (c :: cs) (locate p ls ++ more) t
          ⟨back, (read mode failure (p.advanceBy (rawText ls)) (blockAfter block p.location ls)
            (rawTextAfter mode ls) rest).error⟩ := by
      rw [← scanUnit_append hscan]
      refine ReadIn.prepend ?_ (rawText_locate p ls)
      rw [openBlock_locate block p hscan]
      exact ih hmore
    obtain ⟨more, rfl, hmore⟩ | ⟨more, hfront, hback⟩ := List.append_eq_append_iff.mp h
    · exact hlater hmore
    · cases more with
      | nil =>
        rw [List.append_nil] at hfront
        rw [← hfront, ← List.append_nil (locate p ls)]
        exact hlater hback.symm
      | cons u more =>
        obtain ⟨rfl, rfl⟩ := List.cons.inj hback
        have hunit : locate (p.advanceBy (Token.rawText []).toList) ls = front ++ t :: more :=
          hfront
        exact .intro (List.nil_append front).symm rfl (List.cons_ne_nil c cs) hscan hunit rfl

end

/-- How a token that is a construct by itself was read, behind others from a position on: where
these end, and what is behind it from where it ends. -/
inductive WasRead (mode : Mode) (failure : Option ReadFailure) (p : Position)
    (block : Option Location) (cs : List Char) (front : List Token) (t : Token) (after : Tokens) :
    Prop where
  | intro {l : Lexeme} {here rest : List Char}
      (htext : cs = (Token.rawText front).toList ++ here) (hhere : here ≠ [])
      (hscan : scanUnit mode failure (Token.openBlock block front).isSome here = .ok ([l], rest))
      (htoken : t =
        ⟨l.kind, String.ofList l.raw, (p.advanceBy (Token.rawText front).toList).location⟩)
      (hafter : after = read mode failure (p.advanceBy (Token.rawText (front ++ [t])).toList)
        (Token.openBlock block (front ++ [t])) none rest)

/-- A token that is no text, no part of a start tag and no end of the document was read by itself.
-/
theorem wasRead_of_read {mode : Mode} {failure : Option ReadFailure} {p : Position}
    {block : Option Location} {body : Option String} {cs : List Char} {front back : List Token}
    {t : Token} (htext : t.isText = false) (hpart : t.kind.isTagPart = false)
    (hend : t.kind ≠ .documentEnd)
    (h : (read mode failure p block body cs).tokens = front ++ t :: back) :
    WasRead mode failure p block cs front t
      ⟨back, (read mode failure p block body cs).error⟩ := by
  cases readIn_of_read htext hend h with
  | @intro before inside more ls here rest hfront hcs hhere hscan hunit hafter =>
    obtain ⟨l, rfl⟩ | hparts := single_or_isTagPart hscan
    · have hone : [⟨l.kind, String.ofList l.raw, ((p.advanceBy
          (Token.rawText before).toList).advanceBy l.lead).location⟩] = inside ++ t :: more := hunit
      obtain ⟨rfl, hone⟩ | ⟨-, hnil⟩ : inside = [] ∧ _ ∨ _ :=
        List.append_eq_singleton_iff.mp hone.symm
      · obtain ⟨rfl, rfl⟩ := List.cons.inj hone
        obtain rfl : front = before := by rw [hfront, List.append_nil]
        rw [rawTextAfter_singleton, ← openBlock_locate _ _ hscan, ← Token.openBlock_append]
          at hafter
        rw [hafter]
        refine .intro hcs hhere hscan ?_ ?_
        · rw [lead_of_isTagPart_eq_false hpart]
          rfl
        · simp [prepend, locate, Token.rawText_append]
      · cases hnil
    · have ht : t ∈ locate (p.advanceBy (Token.rawText before).toList) ls := by simp [hunit]
      have htag := forall_kind_locate (q := fun k => k.isTagPart = true) hparts _ t ht
      rw [hpart] at htag
      cases htag

/-- The texts of tokens are where the text begins that they were read from. -/
theorem rawText_read_prefix (mode : Mode) (failure : Option ReadFailure) (p : Position)
    (block : Option Location) (body : Option String) (cs : List Char) :
    (Token.rawText (read mode failure p block body cs).tokens).toList <+: cs := by
  fun_induction read mode failure p block body cs with
  | case1 | case4 | case5 | case6 | case7 => simp
  | case2 p block cs name text rest hrun after hempty ih =>
    obtain rfl : text = [] := by simpa using hempty
    rw [← rawTextRun_append hrun]
    exact ih
  | case3 p block cs name text rest hrun after hempty ih =>
    rw [← rawTextRun_append hrun]
    simpa [prepend, Token.text] using (List.prefix_append_right_inj text).mpr ih
  | case8 p block c cs ls rest hscan ih =>
    rw [← scanUnit_append hscan]
    simpa [prepend] using (List.prefix_append_right_inj (rawText ls)).mpr ih

/-- What was read between constructs does not begin inside a start tag. -/
theorem isInner_of_head?_read {mode : Mode} {failure : Option ReadFailure} {p : Position}
    {block : Option Location} {body : Option String} {cs : List Char} {t : Token}
    (h : t ∈ (read mode failure p block body cs).tokens.head?) : t.kind.isInner = false := by
  have hturn := read_turn mode failure p block body cs
  obtain ⟨ts, hts⟩ := List.head?_eq_some_iff.mp h
  rw [hts, List.map_cons, Turn.after?_cons] at hturn
  obtain ⟨u, hu, -⟩ := Option.bind_eq_some_iff.mp hturn
  cases hkind : t.kind <;> simp_all [TokenKind.isInner, Turn.next?]

end Tokens

/-! ## Where a stream stands -/

namespace TokenStream

/-- A stream that was asked so many times. -/
def asked (t : TokenStream) : Nat → TokenStream
  | 0 => t
  | n + 1 => t.next.2.asked n

/-- How the stream of a source stands when it has given some tokens: what is not read yet follows
the texts of these and of the ones that are kept, and the tokens of it follow the tokens. -/
structure Follows (mode : Mode) (s : Source) (given : List Token) (t : TokenStream) : Prop where
  sameMode : t.mode = mode
  sameFailure : t.failure = s.failure
  text : s.chars = (Token.rawText (given ++ t.pending)).toList ++ t.rest
  position : t.position = Position.start.advanceBy (Token.rawText (given ++ t.pending)).toList
  left : t.stage ≠ .done → tokenize mode s = t.left.prepend given

variable {mode : Mode} {s : Source} {given : List Token} {t t' : TokenStream}

theorem follows_ofSource (mode : Mode) (s : Source) : Follows mode s [] (ofSource mode s) :=
  ⟨rfl, rfl, rfl, rfl, fun _ => rfl⟩

theorem Follows.scan (h : Follows mode s given t) (hpending : t.pending = [])
    (hstage : t.stage = .running) (hscan : t.scan = .ok t') : Follows mode s given t' := by
  have hleft : tokenize mode s = t'.left.prepend given := by
    rw [h.left (by simp [hstage]), TokenStream.left, hpending, hstage]
    simp only [unread_eq t hstage, hscan]
    rfl
  -- What was read is what the new tokens are spelled as.
  have hmoved (text rest : List Char) (pending : List Token)
      (htext : t.rest = text ++ rest) (hraw : Token.rawText pending = String.ofList text) :
      s.chars = (Token.rawText (given ++ pending)).toList ++ rest ∧
        t.position.advanceBy text =
          Position.start.advanceBy (Token.rawText (given ++ pending)).toList := by
    have hchars := h.text
    have hposition := h.position
    rw [hpending, List.append_nil] at hchars hposition
    simp [hchars, hposition, htext, hraw, Position.advanceBy_append]
  unfold TokenStream.scan at hscan
  split at hscan
  · split at hscan
    · cases hscan
    · next text rest hrun =>
      have hraw : Token.rawText (if text.isEmpty then [] else
          [.text (String.ofList text) t.position.location]) = String.ofList text := by
        cases text <;> simp [Token.text]
      obtain ⟨hchars, hposition⟩ := hmoved _ _ _ (rawTextRun_append hrun).symm hraw
      cases hscan
      exact ⟨h.sameMode, h.sameFailure, hchars, hposition, fun _ => hleft⟩
  · split at hscan
    · next hrest =>
      split at hscan <;> cases hscan
      obtain ⟨hchars, hposition⟩ := hmoved [] []
        [⟨.documentEnd, "", t.position.location⟩] hrest rfl
      exact ⟨h.sameMode, h.sameFailure, by rw [hrest]; exact hchars, hposition, fun _ => hleft⟩
    · next c cs hrest =>
      split at hscan
      · cases hscan
      · next ls rest hunit =>
        have htext := scanUnit_append hunit
        obtain ⟨hchars, hposition⟩ := hmoved _ _ _ (hrest.trans htext.symm)
          (rawText_locate t.position ls)
        cases hscan
        exact ⟨h.sameMode, h.sameFailure, hchars, hposition, fun _ => hleft⟩

theorem Follows.next (h : Follows mode s given t) :
    ∃ more, Follows mode s (given ++ more) t.next.2 := by
  fun_induction TokenStream.next t with
  | case1 t token pending hpending =>
    have htokens : given ++ t.pending = given ++ [token] ++ pending := by simp [hpending]
    refine ⟨[token], h.sameMode, h.sameFailure, ?_, ?_, fun hstage => ?_⟩
    · rw [← htokens]
      exact h.text
    · rw [← htokens]
      exact h.position
    · rw [h.left hstage, TokenStream.left, hpending]
      simp [TokenStream.left, Tokens.prepend, unread]
  | case2 t hpending hstage => exact ⟨[], by simpa using h⟩
  | case3 t hstage hpending =>
    refine ⟨[⟨.documentStart, "", .start⟩], h.sameMode, h.sameFailure, ?_, ?_, fun _ => ?_⟩
    · simpa [hpending] using h.text
    · simpa [hpending] using h.position
    · rw [h.left (by simp [hstage]), TokenStream.left, hpending, hstage]
      simp [TokenStream.left, Tokens.prepend, unread]
  | case4 t hstage hpending e hscan =>
    exact ⟨[], h.sameMode, h.sameFailure, by simpa using h.text, by simpa using h.position,
      fun hdone => absurd rfl hdone⟩
  | case5 t hstage hpending t' hscan ih => exact ih (h.scan hpending hstage hscan)

theorem Follows.asked (h : Follows mode s given t) (n : Nat) :
    ∃ more, Follows mode s (given ++ more) (t.asked n) := by
  induction n generalizing given t with
  | zero => exact ⟨[], by rwa [List.append_nil]⟩
  | succ n ih =>
    obtain ⟨more, hnext⟩ := h.next
    obtain ⟨others, hasked⟩ := ih hnext
    exact ⟨more ++ others, by rwa [← List.append_assoc]⟩

end TokenStream
end NaturalTemplate.Markup
