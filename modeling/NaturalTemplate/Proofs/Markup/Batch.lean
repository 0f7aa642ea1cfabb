import Mathlib.Data.List.SplitBy
import Mathlib.Data.List.TakeWhile
import NaturalTemplate.Proofs.Markup.Pieces

/-!
# Filtering a whole list of tokens

Tolerant filtering takes tokens one by one and holds some of them back. All that comes out of it can
be told from the list as a whole, whatever the tokens are: blocks are folded or their marks dropped,
parser-level comments become ordinary ones or are dropped, and after that each run of texts becomes
one text. It never refuses a token, and fails at its end only where a block is still open.
-/
namespace NaturalTemplate.Markup

/-! ## Lists as a whole -/

namespace Token

/-- The content of a text. -/
def content (t : Token) : String :=
  match t.kind with
  | .text content => content
  | _ => ""

/-- A run of texts as one text, which stands where the first one stood. -/
def joined : List Token → List Token
  | [] => []
  | t :: ts =>
    if t.isText then
      [⟨.text (String.join ((t :: ts).map content)), rawText (t :: ts), t.location⟩]
    else t :: ts

/-- Makes one text of each run of texts that cannot be made longer. -/
def mergeTexts (ts : List Token) : List Token :=
  (ts.splitBy fun t u => t.isText && u.isText).flatMap joined

/-- The content of a comment with the given text: the text without the marks at its ends. -/
def withoutMarks (raw : String) : String :=
  let rest := (raw.toList.dropPrefix? Mark.commentStart).getD raw.toList
  String.ofList ((rest.dropSuffix? Mark.commentEnd).getD rest)

/-- A block, with its marks, as one comment that stands where its opening mark stood. -/
def foldedBlock (start : Token) (rest : List Token) : Token :=
  let raw := rawText (start :: rest)
  ⟨.comment .normal (withoutMarks raw), raw, start.location⟩

/-- A parser-level comment as an ordinary one; other tokens are as they were. -/
def ordinary (t : Token) : Token :=
  match t.kind with
  | .comment .parserLevel content => { t with kind := .comment .normal ("/*" ++ content ++ "*/") }
  | _ => t

def isBlockEnd (t : Token) : Bool := t.kind == .blockEnd

/-- Makes one comment of each block, from an opening mark to the closing mark that comes next, and
ordinary comments of the parser-level ones between blocks. -/
def foldBlocks : List Token → Except ParseError (List Token)
  | [] => .ok []
  | t :: ts =>
    if t.kind = .blockStart then
      match _h : ts.dropWhile (!·.isBlockEnd) with
      | [] => .error (.malformed .unterminatedBlock t.location)
      | stop :: rest =>
        (foldBlocks rest).map (foldedBlock t (ts.takeWhile (!·.isBlockEnd) ++ [stop]) :: ·)
    else (foldBlocks ts).map (t.ordinary :: ·)
  termination_by ts => ts.length
  decreasing_by
    · have hlength := (List.dropWhile_suffix (!·.isBlockEnd) (l := ts)).length_le
      rw [_h] at hlength
      simp only [List.length_cons] at hlength ⊢
      omega
    · simp

/-- What becomes of a list of tokens. -/
def filtered (policy : CommentPolicy) (ts : List Token) : Except ParseError (List Token) :=
  match policy with
  | .discard => .ok (mergeTexts (ts.filter (!·.isParserOnly)))
  | .keep => (foldBlocks ts).map mergeTexts

/-- Whether the text of a token is the mark, if the token is the mark of a block. -/
def HasMark (t : Token) : Prop :=
  (t.kind = .blockStart → t.raw = "<!--/*/") ∧ (t.kind = .blockEnd → t.raw = "/*/-->")

instance (t : Token) : Decidable t.HasMark := inferInstanceAs (Decidable (_ ∧ _))

/-! ## Runs of texts -/

section Runs

variable {t : Token} {run ts : List Token}

theorem mergeTexts_run (h : ∀ t ∈ run, t.isText = true) : mergeTexts run = joined run := by
  cases run with
  | nil => rfl
  | cons t ts =>
    have hchain : (t :: ts).IsChain fun t u => (t.isText && u.isText) = true := by
      refine (List.pairwise_of_forall_mem_list fun u hu v hv => ?_).isChain
      rw [h u hu, h v hv, Bool.and_self]
    rw [mergeTexts, List.splitBy_of_isChain (List.cons_ne_nil t ts) hchain, List.flatMap_cons,
      List.flatMap_nil, List.append_nil]

/-- What is no text parts the texts before it from those behind it. -/
theorem mergeTexts_append_cons (ht : t.isText = false) (run ts : List Token) :
    mergeTexts (run ++ t :: ts) = mergeTexts run ++ t :: mergeTexts ts := by
  have hsplit : (run ++ ([t] ++ ts)).splitBy (fun t u => t.isText && u.isText) =
      run.splitBy (fun t u => t.isText && u.isText) ++
        ([[t]] ++ ts.splitBy (fun t u => t.isText && u.isText)) := by
    rw [List.splitBy_append (by simp [ht]), List.splitBy_append (by simp [ht])]
    rfl
  have hjoined : joined [t] = [t] := by simp [joined, ht]
  rw [mergeTexts, ← List.singleton_append, hsplit, List.flatMap_append, List.flatMap_append,
    List.flatMap_singleton, hjoined]
  rfl

end Runs
end Token

/-- The text that is held back after a run of texts. -/
def Held.ofRun : List Token → Option Held
  | [] => none
  | t :: ts =>
    some ⟨String.join ((t :: ts).map Token.content), Token.rawText (t :: ts), t.location⟩

namespace Held

theorem tokens_ofRun {run : List Token} (h : ∀ t ∈ run, t.isText = true) :
    tokens (ofRun run) = Token.mergeTexts run := by
  rw [Token.mergeTexts_run h]
  cases run with
  | nil => rfl
  | cons t ts =>
    rw [Token.joined, if_pos (h t List.mem_cons_self)]
    rfl

theorem more_ofRun {t : Token} {content : String} (ht : t.kind = .text content)
    (run : List Token) : some (more (ofRun run) content t) = ofRun (run ++ [t]) := by
  have hcontent : t.content = content := by rw [Token.content, ht]
  cases run with
  | nil => simp [ofRun, more, hcontent]
  | cons u us =>
    simp [ofRun, more, hcontent, String.join_append, String.append_assoc]

end Held

/-! ## Feeding one token after the other -/

namespace Token

theorem withoutMarks_mark (s : String) : withoutMarks ("<!--" ++ s ++ "-->") = s := by
  have hraw : ("<!--" ++ s ++ "-->").toList =
      Mark.commentStart ++ (s.toList ++ Mark.commentEnd) := by
    simp [Mark.commentStart, Mark.commentEnd]
  have hstart : (Mark.commentStart ++ (s.toList ++ Mark.commentEnd)).dropPrefix?
      Mark.commentStart = some (s.toList ++ Mark.commentEnd) :=
    List.dropPrefix?_append_of_beq _ (beq_self_eq_true _)
  have hend : (s.toList ++ Mark.commentEnd).dropSuffix? Mark.commentEnd = some s.toList :=
    List.dropSuffix?_eq_some_iff.mpr ⟨_, rfl, beq_self_eq_true _⟩
  rw [withoutMarks, hraw, hstart, Option.getD_some, hend, Option.getD_some, String.ofList_toList]

end Token

namespace Filter

variable {policy : CommentPolicy} {fold fold' : Option Fold} {t k : Token} {ts : List Token}

/-- Whether a filter takes all of some tokens, and what comes out of it in all, its end included. -/
def Yields (f : Filter) (ts : List Token) (result : Except ParseError (List Token)) : Prop :=
  ∃ f' out, Feeds f ts f' out ∧ f'.finish.map (out ++ ·) = result

theorem Yields.cons {f f₁ : Filter} {out : List Token} {result : Except ParseError (List Token)}
    (hfeed : f.feed t = .ok (f₁, out)) (h : f₁.Yields ts result) :
    f.Yields (t :: ts) (result.map (out ++ ·)) := by
  obtain ⟨f', outs, hfeeds, rfl⟩ := h
  refine ⟨f', out ++ outs, .cons hfeed hfeeds, ?_⟩
  cases f'.finish with
  | error e => rfl
  | ok last => exact congrArg Except.ok (List.append_assoc out outs last)

/-- Whether tolerant filtering makes of some tokens, after a run of texts that it holds back, what
merging the texts makes of the run and of some other tokens. -/
def Merges (policy : CommentPolicy) (fold : Option Fold) (ts : List Token)
    (result : Except ParseError (List Token)) : Prop :=
  ∀ run : List Token, (∀ t ∈ run, t.isText = true) →
    Yields ⟨policy, fold, Held.ofRun run, none⟩ ts
      (result.map fun us => Token.mergeTexts (run ++ us))

namespace Merges

theorem nil : Merges policy none [] (.ok []) := by
  intro run hrun
  refine ⟨_, [], .nil _, ?_⟩
  rw [Except.map, List.append_nil, ← Held.tokens_ofRun hrun]
  rfl

theorem unclosed (f : Fold) :
    Merges policy (some f) [] (.error (.malformed .unterminatedBlock f.location)) :=
  fun _ _ => ⟨_, [], .nil _, rfl⟩

/-- A token that the first stages keep back. -/
theorem hidden {result : Except ParseError (List Token)}
    (hfold : (feedBlock policy fold t).1 = fold')
    (hnone : (feedBlock policy fold t).2.bind (feedComment policy) = none)
    (h : Merges policy fold' ts result) : Merges policy fold (t :: ts) result := by
  intro run hrun
  have hfeed : feed ⟨policy, fold, Held.ofRun run, none⟩ t =
      .ok (⟨policy, fold', Held.ofRun run, none⟩, []) := by
    simp only [feed, hnone, hfold]
  have hcons := (h run hrun).cons hfeed
  cases result <;> exact hcons

/-- A token that comes through the first stages. -/
theorem shown {result : Except ParseError (List Token)}
    (hfold : (feedBlock policy fold t).1 = fold')
    (hsome : (feedBlock policy fold t).2.bind (feedComment policy) = some k)
    (h : Merges policy fold' ts result) :
    Merges policy fold (t :: ts) (result.map (k :: ·)) := by
  intro run hrun
  by_cases htext : k.isText = true
  · obtain ⟨content, hkind⟩ := Token.exists_of_isText htext
    have hfeed : feed ⟨policy, fold, Held.ofRun run, none⟩ t =
        .ok (⟨policy, fold', Held.ofRun (run ++ [k]), none⟩, []) := by
      simp only [feed, hsome, hfold, feedText_text _ hkind, Held.more_ofRun hkind]
    have hmore : ∀ u ∈ run ++ [k], u.isText = true :=
      List.forall_mem_append.mpr ⟨hrun, by simp [htext]⟩
    have hcons := (h (run ++ [k]) hmore).cons hfeed
    cases result with
    | error e => exact hcons
    | ok us => simpa [Except.map] using hcons
  · rw [Bool.not_eq_true] at htext
    have hfeed : feed ⟨policy, fold, Held.ofRun run, none⟩ t =
        .ok (⟨policy, fold', Held.ofRun [], none⟩, Token.mergeTexts run ++ [k]) := by
      simp only [feed, hsome, hfold, feedText_of_not _ htext, Held.tokens_ofRun hrun]
      rfl
    have hcons := (h [] (by simp)).cons hfeed
    cases result with
    | error e => exact hcons
    | ok us => simpa [Except.map, Token.mergeTexts_append_cons htext] using hcons

end Merges

theorem merges_discard (ts : List Token) :
    Merges .discard none ts (.ok (ts.filter (!·.isParserOnly))) := by
  induction ts with
  | nil => exact .nil
  | cons t ts ih =>
    have hblock := feedBlock_discard none t
    cases honly : t.isParserOnly with
    | true =>
      have hdropped : (t :: ts).filter (!·.isParserOnly) = ts.filter (!·.isParserOnly) := by
        simp [honly]
      rw [hdropped]
      refine .hidden (by rw [hblock]) ?_ ih
      rw [hblock]
      cases hmark : t.kind.isBlockMark with
      | true => rfl
      | false =>
        rw [Token.isParserOnly, hmark, Bool.or_false] at honly
        obtain ⟨content, hkind⟩ := TokenKind.eq_of_isParserComment honly
        simp [feedComment, hkind]
    | false =>
      have hkept : (t :: ts).filter (!·.isParserOnly) = t :: ts.filter (!·.isParserOnly) := by
        simp [honly]
      rw [Token.isParserOnly, Bool.or_eq_false_iff] at honly
      rw [hkept]
      refine .shown (by rw [hblock]) ?_ ih
      rw [hblock, honly.2]
      exact feedComment_of_not honly.1

/-- Tokens inside a block, up to its closing mark, are held back. -/
theorem merges_inner {inner : List Token} {result : Except ParseError (List Token)}
    (hinner : ∀ t ∈ inner, t.isBlockEnd = false) (f : Fold)
    (h : Merges .keep (some { f with raw := f.raw ++ Token.rawText inner }) ts result) :
    Merges .keep (some f) (inner ++ ts) result := by
  induction inner generalizing f with
  | nil => simpa using h
  | cons t inner ih =>
    obtain ⟨ht, hinner⟩ := List.forall_mem_cons.mp hinner
    have hblock := feedBlock_keep_some f (t := t) (by simpa [Token.isBlockEnd] using ht)
    refine .hidden (by rw [hblock]) (by rw [hblock]; rfl) (ih hinner _ ?_)
    simpa [String.append_assoc] using h

theorem merges_ordinary {result : Except ParseError (List Token)} (ht : t.kind ≠ .blockStart)
    (h : Merges .keep none ts result) :
    Merges .keep none (t :: ts) (result.map (t.ordinary :: ·)) := by
  have hblock := feedBlock_keep_none ht
  refine .shown (by rw [hblock]) ?_ h
  rw [hblock, Option.bind_some]
  by_cases hc : t.kind.isParserComment = true
  · obtain ⟨content, hkind⟩ := TokenKind.eq_of_isParserComment hc
    simp [feedComment, hkind, Token.ordinary]
  · rw [feedComment_of_not (by simpa using hc), Token.ordinary]
    unfold TokenKind.isParserComment at hc
    split at hc
    · simp at hc
    · simp_all

theorem toComment_mark (l : Location) (s : String) :
    Fold.toComment ⟨l, "<!--" ++ s ++ "-->"⟩ = ⟨.comment .normal s, "<!--" ++ s ++ "-->", l⟩ := by
  have hcontent : (("<!--" ++ s ++ "-->").toList.drop 4).take
      (("<!--" ++ s ++ "-->").toList.length - 7) = s.toList := by
    simp
  simp only [Fold.toComment, hcontent, String.ofList_toList]

/-- A block that was folded is the comment that its tokens make, its marks being what they are. -/
theorem toComment_eq {start stop : Token} {inner : List Token} (hstart : start.raw = "<!--/*/")
    (hstop : stop.raw = "/*/-->") :
    Fold.toComment ⟨start.location, start.raw ++ Token.rawText inner ++ stop.raw⟩ =
      Token.foldedBlock start (inner ++ [stop]) := by
  have hraw : start.raw ++ Token.rawText inner ++ stop.raw =
      "<!--" ++ ("/*/" ++ Token.rawText inner ++ "/*/") ++ "-->" := by
    rw [hstart, hstop, ← String.toList_inj]
    simp
  have hblock : Token.rawText (start :: (inner ++ [stop])) =
      start.raw ++ Token.rawText inner ++ stop.raw := by
    simp [String.append_assoc]
  rw [Token.foldedBlock, hblock, hraw, Token.withoutMarks_mark, toComment_mark]

theorem merges_keep {ts : List Token} (h : ∀ t ∈ ts, t.HasMark) :
    Merges .keep none ts (Token.foldBlocks ts) := by
  fun_induction Token.foldBlocks ts with
  | case1 => exact .nil
  | case2 t ts hstart hnone =>
    have hinner : ∀ u ∈ ts, u.isBlockEnd = false := by
      simpa using List.dropWhile_eq_nil_iff.mp hnone
    have hopened : Merges .keep (some ⟨t.location, t.raw⟩) (ts ++ [])
        (.error (.malformed .unterminatedBlock t.location)) := merges_inner hinner _ (.unclosed _)
    rw [List.append_nil] at hopened
    exact .hidden (by simp [feedBlock, hstart]) (by simp [feedBlock, hstart]) hopened
  | case3 t ts hstart stop rest hstop ih =>
    have hsplit := List.takeWhile_append_dropWhile (p := (!·.isBlockEnd)) (l := ts)
    rw [hstop] at hsplit
    have hend : stop.kind = .blockEnd := by
      have hhead := List.head_dropWhile_not (!·.isBlockEnd) (l := ts) (by simp [hstop])
      simp only [hstop, List.head_cons] at hhead
      simpa [Token.isBlockEnd] using hhead
    have hinner : ∀ u ∈ ts.takeWhile (!·.isBlockEnd), u.isBlockEnd = false :=
      fun u hu => by simpa using List.mem_takeWhile_imp hu
    generalize ts.takeWhile (!·.isBlockEnd) = inner at hsplit hinner ⊢
    subst hsplit
    obtain ⟨hmark, hrest⟩ := List.forall_mem_cons.mp h
    obtain ⟨-, hmark', hrest⟩ :=
      (List.forall_mem_append.mp hrest).imp_right List.forall_mem_cons.mp
    rw [← toComment_eq (hmark.1 hstart) (hmark'.2 hend)]
    refine .hidden (by simp [feedBlock, hstart]) (by simp [feedBlock, hstart])
      (merges_inner hinner ⟨t.location, t.raw⟩ ?_)
    exact .shown (by simp [feedBlock, hend])
      (by simp [feedBlock, hend, feedComment, Fold.toComment]) (ih hrest)
  | case4 t ts hstart ih =>
    exact merges_ordinary hstart (ih (List.forall_mem_cons.mp h).2)

/-- Tolerant filtering takes every token of any list, and what comes out of it, one token after the
other and then at its end, is what becomes of the list as a whole. Where comments are kept, the
marks of blocks have to have the text that they are written with. -/
theorem feeds_filtered (policy : CommentPolicy) (ts : List Token)
    (h : policy = .keep → ∀ t ∈ ts, t.HasMark) :
    ∃ f' out, Feeds (.ofOptions ⟨.tolerant, policy⟩) ts f' out ∧
      f'.finish.map (out ++ ·) = Token.filtered policy ts := by
  cases policy with
  | discard => exact merges_discard ts [] (by simp)
  | keep => exact merges_keep (h rfl) [] (by simp)

/-- A block with a parser-level comment in it, a closing mark out of place, and two texts. -/
def blockTokens : List Token :=
  [⟨.blockStart, "<!--/*/", ⟨1, 1, 0⟩⟩, ⟨.text "a", "a", ⟨1, 8, 7⟩⟩,
    ⟨.comment .parserLevel "b", "<!--/*b*/-->", ⟨1, 9, 8⟩⟩, ⟨.blockEnd, "/*/-->", ⟨1, 21, 20⟩⟩,
    ⟨.blockEnd, "/*/-->", ⟨1, 27, 26⟩⟩, ⟨.text "c", "c", ⟨1, 33, 32⟩⟩,
    ⟨.text "d", "&#100;", ⟨1, 34, 33⟩⟩]

theorem feeds_filtered_blockTokens :
    (∀ t ∈ blockTokens, t.HasMark) ∧
      ∃ f' out, Feeds (.ofOptions ⟨.tolerant, .keep⟩) blockTokens f' out ∧
        f'.finish.map (out ++ ·) = .ok
          [⟨.comment .normal "/*/a<!--/*b*/-->/*/", "<!--/*/a<!--/*b*/-->/*/-->", ⟨1, 1, 0⟩⟩,
            ⟨.blockEnd, "/*/-->", ⟨1, 27, 26⟩⟩, ⟨.text "cd", "c&#100;", ⟨1, 33, 32⟩⟩] := by
  have hmarks : ∀ t ∈ blockTokens, t.HasMark := by decide
  obtain ⟨f', out, hfeeds, hout⟩ := feeds_filtered .keep blockTokens fun _ => hmarks
  refine ⟨hmarks, f', out, hfeeds, hout.trans ?_⟩
  decide +kernel

end Filter

end NaturalTemplate.Markup
