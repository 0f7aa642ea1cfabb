import NaturalTemplate.Proofs.Markup.Relaxing
import NaturalTemplate.Proofs.Markup.Strict

/-!
# Trees are parsed again

A tree whose tags and leaves are read wherever they stand is parsed again from what is written of
it, as each element is built around what its children build. What is written of a strict tree whose
texts have no bracket is parsed to the same tree by the strict rules, but for places, empty texts
and texts that stand side by side.
-/
namespace NaturalTemplate.Markup
open Lexeme

/-- Whether a node has no bracket in its own text. -/
def Node.HasNoBracket : Node → Prop
  | text content _ => '<' ∉ content.toList
  | _ => True

/-- What holds of a node that is written so that it can be parsed again. -/
structure Node.IsLegible (policy : CommentPolicy) (n : Node) : Prop where
  strict : n.IsStrict policy
  text : n.HasNoBracket

/-! ## Reading -/

/-- Whether text can end where other text begins. -/
def Opens (rest : List Char) : Prop := rest = [] ∨ opensMarkup none rest = .ok true

theorem opensMarkup_of_ne {c : Char} (hc : c ≠ '<') (cs : List Char) :
    opensMarkup none (c :: cs) = .ok false := by
  rw [opensMarkup_none]
  split <;> simp_all

theorem textRun_of_opens {text rest : List Char} (htext : '<' ∉ text) (hrest : Opens rest) :
    textRun none false (text ++ rest) = .ok (text, rest) := by
  induction text with
  | nil =>
    obtain rfl | hopens := hrest
    · rfl
    · have hends : endsText none false rest = .ok true := by
        simp [endsText, hopens, bind, Except.bind, pure, Except.pure]
      obtain ⟨ds, rfl⟩ := opensMarkup_mark hopens
      exact textRun_of_ends hends
  | cons c text ih =>
    obtain ⟨hc, htext⟩ := List.ne_and_not_mem_of_not_mem_cons htext
    have hgoes : endsText none false (c :: (text ++ rest)) = .ok false :=
      endsText_eq_false_iff.mpr ⟨opensMarkup_of_ne (Ne.symm hc) _, rfl⟩
    rw [List.cons_append, textRun_cons hgoes, ih htext]
    rfl

/-- Whether reading takes `cs`, which stands before `rest`, as some tokens. -/
def Reads (mode : Mode) (p : Position) (cs rest : List Char) (ts : List Token) : Prop :=
  Tokens.read mode none p none none (cs ++ rest) =
    (Tokens.read mode none (p.advanceBy cs) none none rest).prepend ts

namespace Reads

variable {mode : Mode} {p : Position} {cs ds rest : List Char} {ts us : List Token}
  {ls : List Lexeme}

theorem nil (p : Position) (rest : List Char) : Reads mode p [] rest [] := rfl

theorem append (h : Reads mode p cs (ds ++ rest) ts)
    (h' : Reads mode (p.advanceBy cs) ds rest us) : Reads mode p (cs ++ ds) rest (ts ++ us) := by
  unfold Reads at h h' ⊢
  rw [List.append_assoc, h, h', Tokens.prepend_prepend, Position.advanceBy_append]

/-- A construct that leaves no block and no raw text open. -/
theorem of_scanMarkup (hopens : opensMarkup none (rawText ls ++ rest) = .ok true)
    (hscan : scanMarkup mode none false (rawText ls ++ rest) = .ok (ls, rest))
    (hblock : ∀ l, blockAfter none l ls = none) (hraw : rawTextAfter mode ls = none)
    (p : Position) : Reads mode p (rawText ls) rest (locate p ls) := by
  have hne : rawText ls ++ rest ≠ [] := by
    obtain ⟨ds, hds⟩ := opensMarkup_mark hopens
    simp [← hds]
  rw [← scanUnit_of_opens false hopens] at hscan
  rw [Reads, Tokens.read_next hne hscan, hblock, hraw]

theorem of_closed (h : Shape true ls) (p : Position) (rest : List Char) :
    Reads .strict p (rawText ls) rest (locate p ls) :=
  Tokens.read_closed h.closed (h.blockAfter_eq none p.location) rest

theorem endTag (mode : Mode) {name space : String} (hname : IsTagName name)
    (hspace : IsSpace space) (p : Position) (rest : List Char) :
    Reads mode p (rawText [endTagLexeme name space]) rest
      (locate p [endTagLexeme name space]) := by
  refine of_scanMarkup (opens_endTag hname space rest)
    (scanMarkup_endTag mode hname hspace false rest) (fun _ => rfl) ?_ p
  cases mode <;> rfl

end Reads

theorem rawText_lexemes (t : Tag) : rawText t.lexemes = t.render.toList := by
  have hattributes : ∀ attributes : List Attribute,
      rawText (attributes.map Attribute.lexeme) =
        (String.join (attributes.map Attribute.render)).toList := by
    intro attributes
    induction attributes with
    | nil => rfl
    | cons a attributes ih => simp [ih, Attribute.lexeme]
  rw [Tag.lexemes, rawText_cons, Tag.partLexemes, rawText_append, hattributes]
  cases h : t.selfClosing <;> simp [Tag.render, Tag.closing, h]

theorem toList_endTagText (name space : String) :
    (endTagText name space).toList = rawText [endTagLexeme name space] := by
  simp [← raw_endTagLexeme]

/-! ## Building -/

/-- Adds nodes one after the other. -/
def Builder.appendAll (b : Builder) (ns : List Node) : Builder := ns.foldl Builder.append b

theorem Builder.openNames_appendAll (b : Builder) (ns : List Node) :
    (b.appendAll ns).openNames = b.openNames := by
  induction ns generalizing b with
  | nil => rfl
  | cons n ns ih => exact (ih (b.append n)).trans (openNames_append b n)

/-- Closing an element puts it into what it was opened in. -/
theorem Builder.close_appendAll (b : Builder) (o : OpenElement) (ns : List Node) (e : EndTag) :
    ({ b with opened := o :: b.opened }.appendAll ns).close e =
      b.append (.element o.tag (o.children.reverse ++ ns) e) := by
  induction ns generalizing o with
  | nil =>
    rw [List.append_nil]
    rfl
  | cons n ns ih =>
    have hstep := ih { o with children := n :: o.children }
    rw [List.reverse_cons, List.append_assoc, List.singleton_append] at hstep
    exact hstep

theorem Builder.appendAll_of_root {b : Builder} (hb : b.opened = []) (ns : List Node) :
    b.appendAll ns = { b with roots := ns.reverse ++ b.roots } := by
  induction ns generalizing b with
  | nil => rfl
  | cons n ns ih =>
    have hstep : b.append n = { b with roots := n :: b.roots } := by
      unfold append
      rw [hb]
    have htail := ih (b := { b with roots := n :: b.roots }) hb
    rw [appendAll, List.foldl_cons, hstep]
    refine htail.trans ?_
    simp

/-- Whether tokens build a node wherever they come. Text must not come behind text. -/
def Builds (policy : CommentPolicy) (n : Node) (ts : List Token) : Prop :=
  ∀ (b : Builder) (held : Option Held), b.IsReady → (n.isText = true → held = none) →
    ∀ us, ∃ m b' held', m.unplaced = n.unplaced ∧ b'.IsReady ∧
      b'.settle held' = (b.settle held).append m ∧ (n.isText = false → held' = none) ∧
      buildFiltered (b.filter policy held) b (ts ++ us) =
        buildFiltered (b'.filter policy held') b' us

def BuildsAll (policy : CommentPolicy) (ns : List Node) (ts : List Token) : Prop :=
  ∀ (b : Builder) (held : Option Held), b.IsReady →
    (∀ n ∈ ns.head?, n.isText = true → held = none) →
    ∀ us, ∃ ms b' held', Node.unplacedAll ms = Node.unplacedAll ns ∧ b'.IsReady ∧
      b'.settle held' = (b.settle held).appendAll ms ∧
      buildFiltered (b.filter policy held) b (ts ++ us) =
        buildFiltered (b'.filter policy held') b' us

section
variable {policy : CommentPolicy} {n : Node} {ns : List Node} {ts us : List Token}

theorem BuildsAll.nil : BuildsAll policy [] [] := by
  intro b held hb _ us
  exact ⟨[], b, held, rfl, hb, rfl, rfl⟩

theorem BuildsAll.cons (hn : Builds policy n ts) (hns : BuildsAll policy ns us)
    (hnext : n.isText = true → ∀ m ∈ ns.head?, m.isText = false) :
    BuildsAll policy (n :: ns) (ts ++ us) := by
  intro b held hb hheld vs
  have hfirst : n.isText = true → held = none := hheld n (by simp)
  obtain ⟨m, b', held', hm, hb', hsettle, hnone, hbuild⟩ := hn b held hb hfirst (us ++ vs)
  have hheld' : ∀ m ∈ ns.head?, m.isText = true → held' = none := by
    intro k hk htext
    by_cases hn : n.isText = true
    · rw [hnext hn k hk] at htext
      contradiction
    · exact hnone (by simpa using hn)
  obtain ⟨ms, b'', held'', hms, hb'', hsettle', hbuild'⟩ := hns b' held' hb' hheld' vs
  refine ⟨m :: ms, b'', held'', ?_, hb'', ?_, ?_⟩
  · rw [Node.unplacedAll, hm, hms, Node.unplacedAll]
  · rw [hsettle', hsettle]
    rfl
  · rw [List.append_assoc, hbuild, hbuild']

/-- A single text is held back. -/
theorem builds_text (content : String) (l : Location) (t : Token) (ht : t.kind = .text content) :
    Builds policy (.text content l) [t] := by
  intro b held hb hheld us
  obtain rfl := hheld rfl
  refine ⟨.text content t.location, b, some ⟨content, t.raw, t.location⟩, rfl, hb, rfl, ?_, ?_⟩
  · simp [Node.isText]
  · exact buildFiltered_text policy b none ht us

theorem builds_leaf {t : Token} {m : Node} (halike : ∀ us, Alike policy (ts ++ us) (t :: us))
    (honly : t.isParserOnly = false) (hm : t.leaf? = some m) (heq : m.unplaced = n.unplaced) :
    Builds policy n ts := by
  intro b held hb _ us
  refine ⟨m, (b.settle held).append m, none, heq, (hb.settle held).append m, rfl, fun _ => rfl, ?_⟩
  rw [halike us _ _ rfl rfl, buildFiltered_leaf hm honly]

/-- An element that closes itself. -/
theorem builds_void {tag : Tag} (hvoid : (tag.selfClosing || isVoid tag.name) = true)
    (p : Position) : Builds policy (.element tag [] .void) (locate p tag.lexemes) := by
  intro b held hb _ us
  obtain ⟨placed, hplaced, hbuild⟩ := buildFiltered_tag policy held hb tag p us
  have henter : (b.settle held).enter placed =
      (b.settle held).append (.element placed [] .void) := by
    rw [Builder.enter, Tag.closesItself_of_unplaced hplaced, if_pos hvoid]
  refine ⟨.element placed [] .void, _, none, ?_, (hb.settle held).append _, rfl, fun _ => rfl, ?_⟩
  · rw [Node.unplaced, hplaced, Node.unplaced]
  · exact hbuild _ henter.symm

/-- An element with an end tag is built around what its children build. -/
theorem builds_element {tag : Tag} (hstays : (tag.selfClosing || isVoid tag.name) = false)
    (hns : BuildsAll policy ns ts) (space : String) (p q : Position) :
    Builds policy (.element tag ns (.explicit (endTagText tag.name space)))
      (locate p tag.lexemes ++ (ts ++ locate q [endTagLexeme tag.name space])) := by
  intro b held hb _ us
  obtain ⟨placed, hplaced, hopen⟩ := buildFiltered_tag policy held hb tag p
    (ts ++ (locate q [endTagLexeme tag.name space] ++ us))
  let inner : Builder :=
    { b.settle held with opened := { tag := placed } :: (b.settle held).opened }
  have henter : (b.settle held).enter placed = inner := by
    rw [Builder.enter, Tag.closesItself_of_unplaced hplaced, hstays]
    rfl
  have hinner : inner.IsReady := henter ▸ (hb.settle held).enter placed
  obtain ⟨ms, b', held', hms, hb', hsettle, hbuild⟩ := hns inner none hinner (fun _ _ _ => rfl)
    (locate q [endTagLexeme tag.name space] ++ us)
  have hname : placed.unplaced.name = tag.unplaced.name := by rw [hplaced]
  have hnames : b'.openNames = tag.name :: (b.settle held).openNames := by
    rw [← Builder.openNames_settle b' held', hsettle]
    refine (Builder.openNames_appendAll inner ms).trans ?_
    exact congrArg (· :: (b.settle held).openNames) hname
  let e : EndTag := .explicit (endTagText tag.name space)
  have hclose : (b'.settle held').close e = (b.settle held).append (.element placed ms e) := by
    rw [hsettle]
    exact Builder.close_appendAll (b.settle held) { tag := placed } ms e
  refine ⟨.element placed ms e, _, none, ?_, (hb.settle held).append _, rfl, fun _ => rfl, ?_⟩
  · rw [Node.unplaced, hplaced, hms, Node.unplaced]
  · rw [List.append_assoc, List.append_assoc, hopen _ henter.symm, hbuild]
    exact buildFiltered_endTag hb' hnames space q us hclose.symm

end

/-! ## Stable trees -/

/-- Whether a node is read and built where some text follows it. -/
def Rebuilds (mode : Mode) (policy : CommentPolicy) (rest : List Char) (n : Node) : Prop :=
  ∀ p : Position, ∃ ts, Reads mode p n.render.toList rest ts ∧ Builds policy n ts

def RebuildsAll (mode : Mode) (policy : CommentPolicy) (rest : List Char) (ns : List Node) :
    Prop :=
  ∀ p : Position, ∃ ts, Reads mode p (Node.renderAll ns).toList rest ts ∧ BuildsAll policy ns ts

/-- Whether a start tag is read as it is, wherever it stands. -/
structure Tag.IsStable (mode : Mode) (t : Tag) : Prop where
  name : IsTagName t.name
  reads : ∀ p rest, Reads mode p (rawText t.lexemes) rest (locate p t.lexemes)

/-- Whether a node that is neither element nor text is read and built, wherever it stands. -/
structure Node.IsStableLeaf (mode : Mode) (policy : CommentPolicy) (n : Node) : Prop where
  opens : ∀ rest, opensMarkup none (n.render.toList ++ rest) = .ok true
  rebuilds : ∀ rest, Rebuilds mode policy rest n

/-- What each node of a tree needs so that the tree is parsed again from what is written of it. -/
def Node.IsStable (mode : Mode) (policy : CommentPolicy) : Node → Prop
  | element tag children endTag => tag.IsStable mode ∧ Closes tag children endTag ∧ Joined children
  | text content _ => '<' ∉ content.toList
  | n => n.IsStableLeaf mode policy

variable {mode : Mode} {policy : CommentPolicy}

theorem Node.opens_of_isStable {n : Node} (h : n.IsStable mode policy) (hn : n.isText = false)
    (rest : List Char) : opensMarkup none (n.render.toList ++ rest) = .ok true := by
  cases n with
  | element tag children endTag =>
    simp only [render, String.toList_append, ← rawText_lexemes, List.append_assoc]
    exact (opens_tag h.1.name _).1
  | text => simp [isText] at hn
  | _ => exact IsStableLeaf.opens h rest

theorem Node.opens_of_joined {ns : List Node} (hns : EverywhereIn (IsStable mode policy) ns)
    (hnext : ∀ n ∈ ns.head?, n.isText = false) {rest : List Char} (hrest : Opens rest) :
    Opens ((renderAll ns).toList ++ rest) := by
  cases ns with
  | nil => exact hrest
  | cons n ns =>
    have hn : n.isText = false := hnext n (by simp)
    refine .inr ?_
    rw [renderAll, String.toList_append, List.append_assoc]
    exact opens_of_isStable (hns n (by simp)).here hn _

theorem rebuilds_text {content : String} (l : Location) {rest : List Char} (hne : content ≠ "")
    (htext : '<' ∉ content.toList) (hrest : Opens rest) :
    Rebuilds mode policy rest (.text content l) := by
  intro p
  have hne' : content.toList ≠ [] := by simpa using hne
  have hread := @Tokens.read_text mode p none _ _ _ hne' (textRun_of_opens htext hrest)
  exact ⟨_, hread, builds_text content l _ (by simp [ofText])⟩

theorem rebuilds_element {tag : Tag} {ns : List Node} {e : EndTag} (htag : tag.IsStable mode)
    (hcloses : Closes tag ns e) (hns : ∀ rest, Opens rest → RebuildsAll mode policy rest ns)
    (rest : List Char) : Rebuilds mode policy rest (.element tag ns e) := by
  intro p
  cases hcloses with
  | void hvoid hchildren hend =>
    subst hchildren hend
    have hread := htag.reads p rest
    have htext : (Node.element tag [] .void).render.toList = rawText tag.lexemes := by
      simp [Node.render, Node.renderAll, EndTag.render, rawText_lexemes]
    rw [← htext] at hread
    exact ⟨_, hread, builds_void hvoid p⟩
  | @explicit space hstays hspace hend =>
    subst hend
    let stop := rawText [endTagLexeme tag.name space]
    have hopens : Opens (stop ++ rest) := .inr (opens_endTag htag.name space rest)
    obtain ⟨ts, hread, hbuild⟩ := hns _ hopens (p.advanceBy (rawText tag.lexemes))
    let q := (p.advanceBy (rawText tag.lexemes)).advanceBy (Node.renderAll ns).toList
    have hreadEnd := Reads.endTag mode htag.name hspace q rest
    have hreadTag := htag.reads p ((Node.renderAll ns).toList ++ stop ++ rest)
    have htext : (Node.element tag ns (.explicit (endTagText tag.name space))).render.toList =
        rawText tag.lexemes ++ ((Node.renderAll ns).toList ++ stop) := by
      simp only [Node.render, EndTag.render, String.toList_append, rawText_lexemes,
        toList_endTagText, List.append_assoc, stop]
    refine ⟨_, ?_, builds_element hstays hbuild space p q⟩
    rw [htext]
    exact hreadTag.append (hread.append hreadEnd)

mutual

theorem rebuilds (n : Node) (hn : n.Everywhere (Node.IsStable mode policy)) {rest : List Char}
    (htext : n.isText = true → Opens rest ∧ n.render ≠ "") : Rebuilds mode policy rest n := by
  have hstable := hn.here
  cases n with
  | element tag ns e =>
    have hns : ∀ rest, Opens rest → RebuildsAll mode policy rest ns := fun rest hrest =>
      rebuildsAll ns hn.inside hstable.2.2 hrest
    exact rebuilds_element hstable.1 hstable.2.1 hns rest
  | text content l =>
    obtain ⟨hrest, hne⟩ := htext rfl
    exact rebuilds_text l hne hstable hrest
  | _ => exact Node.IsStableLeaf.rebuilds hstable rest

theorem rebuildsAll (ns : List Node) (hns : Node.EverywhereIn (Node.IsStable mode policy) ns)
    (hjoined : Node.Joined ns) {rest : List Char} (hrest : Opens rest) :
    RebuildsAll mode policy rest ns := by
  cases ns with
  | nil => exact fun p => ⟨[], Reads.nil p rest, .nil⟩
  | cons n ns =>
    obtain ⟨hn, hns⟩ := List.forall_mem_cons.mp hns
    obtain ⟨htext, hjoined⟩ := hjoined.of_cons
    have hfirst : n.isText = true → Opens ((Node.renderAll ns).toList ++ rest) ∧ n.render ≠ "" := by
      intro h
      obtain ⟨hne, hnext⟩ := htext h
      exact ⟨Node.opens_of_joined hns hnext hrest, hne⟩
    intro p
    obtain ⟨ts, hread, hbuild⟩ := rebuilds n hn hfirst p
    obtain ⟨us, hreadAll, hbuildAll⟩ := rebuildsAll ns hns hjoined hrest
      (p.advanceBy n.render.toList)
    refine ⟨ts ++ us, ?_, .cons hbuild hbuildAll fun h => (htext h).2⟩
    rw [Node.renderAll, String.toList_append]
    exact hread.append hreadAll

end

/-- Nodes that tokens build are a document by the strict rules. -/
theorem BuildsAll.build {ns : List Node} {ts : List Token} (h : BuildsAll policy ns ts)
    (l : Location) :
    ∃ d, build ⟨.strict, policy⟩
        (⟨.documentStart, "", Position.start.location⟩ :: (ts ++ [⟨.documentEnd, "", l⟩])) = .ok d ∧
      Node.unplacedAll d.nodes = Node.unplacedAll ns := by
  have hready : Builder.IsReady { mode := .strict } := ⟨rfl, rfl⟩
  obtain ⟨ms, b, held, hms, hb, hsettle, hrun⟩ := h _ none hready (fun _ _ _ => rfl)
    [⟨.documentEnd, "", l⟩]
  have hnames : b.openNames = [] := by
    rw [← Builder.openNames_settle b held, hsettle]
    exact Builder.openNames_appendAll _ ms
  have hroots : (b.settle held).roots.reverse = ms := by
    rw [hsettle, Builder.settle, Builder.appendAll_of_root rfl]
    simp
  have hfinish := Builder.finish_of_isReady (hb.settle held)
    (by rw [Builder.openNames_settle, hnames])
  rw [hroots] at hfinish
  let f := (b.settle held).filter policy none
  refine ⟨⟨ms⟩, build_eq_ok.mpr ⟨f, _, [], b.settle held, ?_, rfl, rfl, hfinish⟩, hms⟩
  have hstart := @buildFiltered_inside policy { mode := .strict }
    ⟨.documentStart, "", Position.start.location⟩ {} {} rfl rfl rfl _ rfl
    (ts ++ [⟨.documentEnd, "", l⟩])
  exact hstart.trans (hrun.trans (buildFiltered_documentEnd hnames l))

/-- A stable tree is parsed again. What is built of it by the strict rules is built by the others
too. -/
theorem parse_render_of_isStable {ns : List Node}
    (hns : Node.EverywhereIn (Node.IsStable mode policy) ns) (hjoined : Node.Joined ns) :
    ∃ d, parse ⟨mode, policy⟩ (Document.mk ns).render = .ok d ∧
      Node.unplacedAll d.nodes = Node.unplacedAll ns := by
  obtain ⟨ts, hread, hbuild⟩ := rebuildsAll ns hns hjoined (.inl rfl) .start
  let stop : Position := Position.start.advanceBy (Node.renderAll ns).toList
  have htokens : tokenize mode (.ofString (Document.mk ns).render) =
      ⟨⟨.documentStart, "", Position.start.location⟩ ::
        (ts ++ [⟨.documentEnd, "", stop.location⟩]), none⟩ := by
    unfold Reads at hread
    rw [List.append_nil] at hread
    simp only [tokenize, Source.ofString, Document.render, hread, Tokens.read]
    rfl
  obtain ⟨d, hd, hnodes⟩ := hbuild.build stop.location
  refine ⟨d, ?_, hnodes⟩
  rw [parse, parseSource_of_tokens htokens]
  cases mode with
  | strict => exact hd
  | tolerant => exact build_tolerant hd

/-! ## Strict trees -/

/-- Whether a tree is in the form that parsing leaves. -/
structure Node.IsSettled (policy : CommentPolicy) (n : Node) : Prop where
  legible : n.IsLegible policy
  children : Joined n.children

theorem Tag.IsStrict.isStable {t : Tag} (h : t.IsStrict) : t.IsStable .strict :=
  ⟨h.name, Reads.of_closed (.tag true h)⟩

theorem Readable.isStableLeaf {n : Node} (h : Readable policy n) :
    n.IsStableLeaf .strict policy := by
  refine ⟨h.opens, fun rest p => ?_⟩
  obtain ⟨ts, t, m, hread, halike, honly, hm, heq⟩ := h.read p rest
  exact ⟨ts, hread, builds_leaf halike honly hm heq⟩

theorem Node.IsSettled.isStable {n : Node} (h : n.IsSettled policy) :
    n.IsStable .strict policy := by
  have hstrict := h.legible.strict
  cases n with
  | element tag children endTag => exact ⟨hstrict.1.isStable, hstrict.2, h.children⟩
  | text => exact h.legible.text
  | _ => exact Readable.isStableLeaf hstrict

/-- A tree that is in the form that parsing leaves is parsed again. -/
theorem parse_render_of_isSettled {ns : List Node}
    (hns : Node.EverywhereIn (Node.IsSettled policy) ns) (hjoined : Node.Joined ns) :
    ∃ d, parse { mode := .strict, comments := policy } (Document.mk ns).render = .ok d ∧
      Node.unplacedAll d.nodes = Node.unplacedAll ns :=
  parse_render_of_isStable (fun n hn => (hns n hn).mono fun _ => Node.IsSettled.isStable) hjoined

/-! ## Trees that a program made -/

namespace Node

theorem isSettled_text {content : String} (h : '<' ∉ content.toList) (l : Location) :
    Everywhere (IsSettled policy) (.text content l) :=
  .of_leaf rfl ⟨⟨trivial, h⟩, .nil⟩

theorem everywhereIn_joinText {content : String} (h : '<' ∉ content.toList) (l : Location)
    {ns : List Node} (hns : EverywhereIn (IsSettled policy) ns) :
    EverywhereIn (IsSettled policy) (joinText content l ns) := by
  unfold joinText
  split
  · next more _ ns =>
    obtain ⟨hmore, hns⟩ := List.forall_mem_cons.mp hns
    have htext : '<' ∉ (content ++ more).toList := by
      rw [String.toList_append, List.mem_append, not_or]
      exact ⟨h, hmore.here.legible.text⟩
    exact List.forall_mem_cons.mpr ⟨isSettled_text htext l, hns⟩
  · exact List.forall_mem_cons.mpr ⟨isSettled_text h l, hns⟩

theorem everywhereIn_join {n : Node} (h : n.Everywhere (IsSettled policy)) {ns : List Node}
    (hns : EverywhereIn (IsSettled policy) ns) : EverywhereIn (IsSettled policy) (join n ns) := by
  cases n with
  | text content l =>
    simp only [join]
    split
    · exact hns
    · exact everywhereIn_joinText h.here.legible.text l hns
  | _ => exact List.forall_mem_cons.mpr ⟨h, hns⟩

mutual

theorem isSettled_joined (n : Node) (h : n.Everywhere (IsLegible policy)) :
    n.joined.Everywhere (IsSettled policy) := by
  cases n with
  | element tag children e =>
    have hchildren := isSettled_joinedAll children h.inside
    obtain ⟨htag, hcloses⟩ := h.here.strict
    have hcloses' : Closes tag (joinedAll children) e := by
      cases hcloses with
      | void hvoid hnil hend => exact .void hvoid (by rw [hnil]; rfl) hend
      | explicit hstays hspace hend => exact .explicit hstays hspace hend
    exact .intro ⟨⟨⟨htag, hcloses'⟩, trivial⟩, joined_joinedAll children⟩ hchildren
  | _ => exact .of_leaf rfl ⟨h.here, .nil⟩

theorem isSettled_joinedAll (ns : List Node) (h : EverywhereIn (IsLegible policy) ns) :
    EverywhereIn (IsSettled policy) (joinedAll ns) := by
  cases ns with
  | nil => exact List.forall_mem_nil _
  | cons n ns =>
    obtain ⟨hn, hns⟩ := List.forall_mem_cons.mp h
    exact everywhereIn_join (isSettled_joined n hn) (isSettled_joinedAll ns hns)

end

/-- What is written of a legible tree is parsed to the tree with its texts joined. -/
theorem parse_render {ns : List Node} (h : EverywhereIn (IsLegible policy) ns) :
    ∃ d, parse { mode := .strict, comments := policy } (Document.mk ns).render = .ok d ∧
      unplacedAll d.nodes = unplacedAll (joinedAll ns) := by
  have hparse := parse_render_of_isSettled (isSettled_joinedAll ns h) (joined_joinedAll ns)
  rw [Document.render, renderAll_joinedAll] at hparse
  exact hparse

end Node
end NaturalTemplate.Markup
