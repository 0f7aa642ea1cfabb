import NaturalTemplate.Proofs.Markup.Balance
import NaturalTemplate.Proofs.Markup.Places

/-!
# Where nodes stand

The nodes of a document that was parsed stand in the source in document order: an element begins
before the nodes inside it, and these before the nodes after it. Where comments are kept, the text
of each node is found in the source at the place of the node, and the next sibling follows without a
gap.
-/
namespace NaturalTemplate.Markup

namespace Node

/-! ## Document order -/

mutual

/-- A node and the nodes in it, in document order. -/
def preorder : Node → List Node
  | element tag children endTag => element tag children endTag :: preorderAll children
  | n => [n]

/-- Some nodes and the nodes in them, in document order. -/
def preorderAll : List Node → List Node
  | [] => []
  | n :: ns => n.preorder ++ preorderAll ns

end

theorem preorderAll_append (ns ms : List Node) :
    preorderAll (ns ++ ms) = preorderAll ns ++ preorderAll ms := by
  induction ns with
  | nil => rfl
  | cons n ns ih => simp only [List.cons_append, preorderAll, ih, List.append_assoc]

theorem preorderAll_concat (ns : List Node) (n : Node) :
    preorderAll (ns ++ [n]) = preorderAll ns ++ n.preorder := by
  rw [preorderAll_append, preorderAll, preorderAll, List.append_nil]

theorem preorder_leaf {n : Node} (h : n.element? = none) : n.preorder = [n] := by
  cases n with
  | element tag children endTag => cases h
  | _ => simp [preorder]

/-! ## Nodes in a text -/

mutual

/-- Whether a node that is written at a position has its place there, and so have the nodes in
it. -/
def IsAt (p : Position) : Node → Prop
  | element tag children _ =>
    tag.location = p.location ∧ AllAt (p.advanceBy tag.render.toList) children
  | n => n.location = p.location

/-- Whether nodes that are written one behind the other from a position on have their places
there. -/
def AllAt (p : Position) : List Node → Prop
  | [] => True
  | n :: ns => n.IsAt p ∧ AllAt (p.advanceBy n.render.toList) ns

end

theorem allAt_append {p : Position} {ns ms : List Node} :
    AllAt p (ns ++ ms) ↔ AllAt p ns ∧ AllAt (p.advanceBy (renderAll ns).toList) ms := by
  induction ns generalizing p with
  | nil => simp [AllAt, renderAll]
  | cons n ns ih =>
    simp only [List.cons_append, AllAt, ih, renderAll, String.toList_append,
      Position.advanceBy_append, and_assoc]

theorem IsAt.location {p : Position} {n : Node} (h : n.IsAt p) : n.location = p.location := by
  cases n with
  | element tag children endTag =>
    rw [IsAt] at h
    exact h.1
  | _ =>
    rw [IsAt] at h
    · exact h
    · rintro tag children endTag ⟨⟩

theorem isAt_of_leaf {p : Position} {n : Node} (hn : n.element? = none)
    (h : n.location = p.location) : n.IsAt p := by
  cases n with
  | element tag children endTag => cases hn
  | _ =>
    rw [IsAt]
    · exact h
    · rintro tag children endTag ⟨⟩

mutual

/-- A node of a tree is written inside the tree, and has its place there. -/
theorem IsAt.exists_of_mem {p : Position} {n m : Node} (h : n.IsAt p) (hm : m ∈ n.preorder) :
    ∃ before after,
      n.render = before ++ m.render ++ after ∧ m.IsAt (p.advanceBy before.toList) := by
  cases n with
  | element tag children endTag =>
    rw [preorder, List.mem_cons] at hm
    obtain rfl | hm := hm
    · exact ⟨"", "", by simp, h⟩
    · rw [IsAt] at h
      obtain ⟨before, after, htext, hat⟩ := AllAt.exists_of_mem h.2 hm
      refine ⟨tag.render ++ before, after ++ endTag.render, ?_, ?_⟩
      · simp only [render, htext, String.append_assoc]
      · rwa [String.toList_append, Position.advanceBy_append]
  | _ =>
    rw [preorder] at hm
    · obtain rfl := List.mem_singleton.mp hm
      exact ⟨"", "", by simp, h⟩
    · rintro tag children endTag ⟨⟩

theorem AllAt.exists_of_mem {p : Position} {ns : List Node} {m : Node} (h : AllAt p ns)
    (hm : m ∈ preorderAll ns) :
    ∃ before after, renderAll ns = before ++ m.render ++ after ∧
      m.IsAt (p.advanceBy before.toList) := by
  cases ns with
  | nil => simp [preorderAll] at hm
  | cons n ns =>
    rw [preorderAll, List.mem_append] at hm
    rw [AllAt] at h
    obtain hm | hm := hm
    · obtain ⟨before, after, htext, hat⟩ := IsAt.exists_of_mem h.1 hm
      exact ⟨before, after ++ renderAll ns, by simp only [renderAll, htext, String.append_assoc],
        hat⟩
    · obtain ⟨before, after, htext, hat⟩ := AllAt.exists_of_mem h.2 hm
      refine ⟨n.render ++ before, after, ?_, ?_⟩
      · simp only [renderAll, htext, String.append_assoc]
      · rwa [String.toList_append, Position.advanceBy_append]

end

end Node

/-- An open element as if it had come to its end. -/
def OpenElement.node (o : OpenElement) : Node := .element o.tag o.children.reverse .implicit

/-! ## What a token does to a tree -/

namespace Builder

/-- What the builder can do with a token that comes in turn. -/
inductive Step (b : Builder) (t : Token) : Builder → Prop where
  | nothing : Step b t b
  | leaf {n : Node} (hs : b.starting = none) (hn : n.element? = none)
    (hplaced : t.kind.isPlaced = true) (hl : n.location = t.location) : Step b t (b.append n)
  | opening {tag : Tag} (hs : b.starting = none) (hplaced : t.kind.isPlaced = true)
    (hl : tag.location = t.location) : Step b t { b with starting := some tag }
  | attribute {tag tag' : Tag} (hs : b.starting = some tag) (hl : tag'.location = tag.location) :
    Step b t { b with starting := some tag' }
  | entering {tag tag' : Tag} (hs : b.starting = some tag) (hl : tag'.location = tag.location) :
    Step b t ({ b with starting := none }.enter tag')
  | closing (hs : b.starting = none) (n : Nat) (e : EndTag) :
    Step b t ((b.closeImplicit n).close e)

variable {b b' : Builder} {t : Token} {u v : Turn}

theorem step_of_handleEndTag {name : String} (hs : b.starting = none)
    (hkind : t.kind = .tagEnd name) (h : b.handleEndTag name t.raw t.location = .ok b') :
    b.Step t b' := by
  unfold handleEndTag at h
  split at h
  · split at h
    · cases h
    · split at h
      · obtain rfl := Except.ok.inj h
        exact .closing hs 0 _
      · cases h
  · split at h
    · obtain rfl := Except.ok.inj h
      exact .leaf hs rfl (by rw [hkind]; rfl) rfl
    · obtain rfl := Except.ok.inj h
      exact .closing hs _ _

theorem step_of_handle (hb : b.starting.isSome = u.inTag) (hturn : u.next? t.kind = some v)
    (h : b.handle t = .ok b') : b.Step t b' := by
  have hnone (hpart : t.kind.isTagPart = false) : b.starting = none := by
    simpa [(Turn.inTag_of_next? hturn hpart).1] using hb
  unfold handle at h
  cases hkind : t.kind with
  | tagStart name =>
    simp only [hkind, Turn.next?, Option.ite_none_left_eq_some] at h hturn
    obtain rfl := Except.ok.inj h
    exact .opening (by simpa [hturn.1] using hb) (by rw [hkind]; rfl) rfl
  | «attribute» leading name operator value quote =>
    simp only [hkind] at h
    split at h
    · cases h
    · next tag hs =>
      obtain rfl := Except.ok.inj h
      exact .attribute hs rfl
  | tagStartEnd trailing selfClosing =>
    simp only [hkind] at h
    split at h
    · cases h
    · next tag hs =>
      have henter : b' = { b with starting := none }.enter { tag with trailing, selfClosing } := by
        unfold enter
        split at h <;> simp_all
      rw [henter]
      exact .entering hs rfl
  | tagEnd name =>
    rw [hkind] at h
    exact step_of_handleEndTag (hnone (by rw [hkind]; rfl)) hkind h
  | documentStart | documentEnd | blockStart | blockEnd =>
    rw [hkind] at h
    obtain rfl := Except.ok.inj h
    exact .nothing
  | text | comment | cdata | docType | instruction =>
    rw [hkind] at h
    obtain rfl := Except.ok.inj h
    exact .leaf (hnone (by rw [hkind]; rfl)) rfl (by rw [hkind]; rfl) rfl

/-! ## The order of places -/

/-- The places of nodes, in document order. -/
def placesOf (ns : List Node) : List Location := (Node.preorderAll ns).map Node.location

/-- The places of a tree that is being built: those of what is closed, of what is open, the
outermost element first, and of the start tag that is being read. -/
def places (b : Builder) : List Location :=
  placesOf (b.roots.reverse ++ b.opened.reverse.map OpenElement.node) ++
    (b.starting.map Tag.location).toList

theorem placesOf_concat (ns : List Node) (n : Node) :
    placesOf (ns ++ [n]) = placesOf ns ++ n.preorder.map Node.location := by
  rw [placesOf, Node.preorderAll_concat, List.map_append]
  rfl

theorem places_opened (mode : Mode) (roots : List Node) (o : OpenElement)
    (opened : List OpenElement) : places ⟨mode, roots, o :: opened, none⟩ =
      places ⟨mode, roots, opened, none⟩ ++ o.tag.location :: placesOf o.children.reverse := by
  simp only [places, List.reverse_cons, List.map_append, List.map_cons, List.map_nil,
    ← List.append_assoc, placesOf_concat, Option.map_none, Option.toList_none, List.append_nil]
  rfl

theorem places_append (hs : b.starting = none) (n : Node) :
    (b.append n).places = b.places ++ n.preorder.map Node.location := by
  obtain ⟨mode, roots, opened, starting⟩ := b
  obtain rfl : starting = none := hs
  cases opened with
  | nil => simp [append, places, placesOf_concat]
  | cons o opened => simp [append, places_opened, placesOf_concat]

theorem places_close (hs : b.starting = none) (e : EndTag) : (b.close e).places = b.places := by
  obtain ⟨mode, roots, opened, starting⟩ := b
  obtain rfl : starting = none := hs
  cases opened with
  | nil => rfl
  | cons o opened =>
    rw [close, places_append rfl, places_opened]
    rfl

theorem places_closeImplicit (hs : b.starting = none) (n : Nat) :
    (b.closeImplicit n).places = b.places := by
  induction n with
  | zero => rfl
  | succ n ih =>
    show ((b.closeImplicit n).close .implicit).places = b.places
    rw [places_close (written_closeImplicit n hs).2, ih]

theorem places_enter (hs : b.starting = none) (tag : Tag) :
    (b.enter tag).places = b.places ++ [tag.location] := by
  obtain ⟨mode, roots, opened, starting⟩ := b
  obtain rfl : starting = none := hs
  unfold enter
  split
  · rw [places_append rfl]
    rfl
  · rw [places_opened]
    rfl

/-- A token adds its place to those of a tree, or none. -/
theorem Step.places (h : b.Step t b') :
    b'.places.Sublist (b.places ++ Token.places [t]) := by
  cases h with
  | nothing => exact List.sublist_append_left _ _
  | leaf hs hn hplaced hl =>
    rw [places_append hs, Node.preorder_leaf hn, Token.places_cons [] hplaced, ← hl]
    exact .refl _
  | opening hs hplaced hl =>
    rw [Token.places_cons [] hplaced, ← hl]
    simp [Builder.places, hs]
  | «attribute» hs hl => simp [Builder.places, hs, hl]
  | entering hs hl =>
    rw [places_enter rfl, hl]
    simp [Builder.places, hs]
  | closing hs n e =>
    rw [places_close (written_closeImplicit n hs).2, places_closeImplicit hs]
    exact List.sublist_append_left _ _

theorem places_handleAll {ts : List Token} (hb : b.starting.isSome = u.inTag)
    (hturn : u.after? (ts.map Token.kind) = some v) (h : b.handleAll ts = .ok b') :
    b'.places.Sublist (b.places ++ Token.places ts) := by
  induction ts generalizing b u with
  | nil =>
    obtain rfl := Except.ok.inj h
    exact List.sublist_append_left _ _
  | cons t ts ih =>
    obtain ⟨w, hw, hturn⟩ := Option.bind_eq_some_iff.mp hturn
    unfold handleAll at h
    split at h
    · cases h
    · next b₁ hstep =>
      rw [Token.places_cons_append t, ← List.append_assoc]
      exact (ih (of_handle hb hw hstep).2 hturn h).trans
        ((step_of_handle hb hw hstep).places.append_right _)

theorem nodes_of_finish {d : Document} (h : b.finish = .ok d) :
    b.starting = none ∧ d.nodes = (b.closeImplicit b.opened.length).roots.reverse ∧
      (b.closeImplicit b.opened.length).opened = [] := by
  unfold finish at h
  split at h
  · cases h
  · cases h
  · next hs _ =>
    obtain rfl := Except.ok.inj h
    refine ⟨hs, rfl, List.eq_nil_of_length_eq_zero ?_⟩
    rw [length_opened_closeImplicit]
    omega

theorem places_finish {d : Document} (h : b.finish = .ok d) : placesOf d.nodes = b.places := by
  obtain ⟨hs, hnodes, hopened⟩ := nodes_of_finish h
  rw [← places_closeImplicit hs b.opened.length, places, hopened,
    (written_closeImplicit _ hs).2, hnodes]
  simp

/-! ## The text at each place -/

/-- The text of what is closed and what is open, but for a start tag that is being read. -/
def textOf (roots : List Node) (opened : List OpenElement) : String :=
  Node.renderAll roots.reverse ++ String.join (opened.reverse.map OpenElement.written)

/-- The position behind the text of what is closed and what is open. -/
def behind (roots : List Node) (opened : List OpenElement) : Position :=
  Position.start.advanceBy (textOf roots opened).toList

/-- Whether nodes and open elements have their places where they are written. -/
def OpenedAt (roots : List Node) : List OpenElement → Prop
  | [] => Node.AllAt .start roots.reverse
  | o :: opened => o.node.IsAt (behind roots opened) ∧ OpenedAt roots opened

/-- Whether all of a tree that is being built has its place where it is written. -/
structure IsAt (b : Builder) : Prop where
  opened : OpenedAt b.roots b.opened
  starting : ∀ tag ∈ b.starting, tag.location = (behind b.roots b.opened).location

theorem behind_eq (hs : b.starting = none) :
    behind b.roots b.opened = Position.start.advanceBy b.written.toList := by
  rw [behind, written, hs, textOf]
  simp

theorem behind_cons (roots : List Node) (o : OpenElement) (opened : List OpenElement) :
    behind roots (o :: opened) = ((behind roots opened).advanceBy o.tag.render.toList).advanceBy
      (Node.renderAll o.children.reverse).toList := by
  rw [behind, behind, ← Position.advanceBy_append, ← Position.advanceBy_append]
  simp [textOf, OpenElement.written, String.join_append]

theorem IsAt.append (h : b.IsAt) (hs : b.starting = none) {n : Node}
    (hn : n.IsAt (behind b.roots b.opened)) : (b.append n).IsAt := by
  obtain ⟨mode, roots, opened, starting⟩ := b
  obtain rfl : starting = none := hs
  refine ⟨?_, by rw [starting_append]; rintro tag ⟨⟩⟩
  cases opened with
  | nil =>
    simp only [Builder.append, OpenedAt, List.reverse_cons]
    refine Node.allAt_append.mpr ⟨h.opened, ?_, trivial⟩
    simpa [behind, textOf] using hn
  | cons o opened =>
    obtain ⟨ho, hopened⟩ := h.opened
    rw [OpenElement.node, Node.IsAt] at ho
    simp only [Builder.append, OpenedAt, OpenElement.node, Node.IsAt, List.reverse_cons]
    refine ⟨⟨ho.1, Node.allAt_append.mpr ⟨ho.2, ?_, trivial⟩⟩, hopened⟩
    rw [← behind_cons]
    exact hn

theorem IsAt.close (h : b.IsAt) (hs : b.starting = none) (e : EndTag) : (b.close e).IsAt := by
  obtain ⟨mode, roots, opened, starting⟩ := b
  obtain rfl : starting = none := hs
  cases opened with
  | nil => exact h
  | cons o opened =>
    obtain ⟨ho, hopened⟩ := h.opened
    have hrest : IsAt ⟨mode, roots, opened, none⟩ := ⟨hopened, by rintro tag ⟨⟩⟩
    refine hrest.append rfl ?_
    rw [OpenElement.node, Node.IsAt] at ho
    rw [Node.IsAt]
    exact ho

theorem IsAt.closeImplicit (h : b.IsAt) (hs : b.starting = none) (n : Nat) :
    (b.closeImplicit n).IsAt := by
  induction n with
  | zero => exact h
  | succ n ih => exact ih.close (written_closeImplicit n hs).2 .implicit

theorem IsAt.enter (h : b.IsAt) (hs : b.starting = none) {tag : Tag}
    (htag : tag.location = (behind b.roots b.opened).location) : (b.enter tag).IsAt := by
  unfold Builder.enter
  split
  · refine h.append hs ?_
    rw [Node.IsAt]
    exact ⟨htag, trivial⟩
  · refine ⟨⟨?_, h.opened⟩, by rw [hs]; rintro tag ⟨⟩⟩
    rw [OpenElement.node, Node.IsAt]
    exact ⟨htag, trivial⟩

/-- A token that stands behind all that is written so far becomes a node at its place. -/
theorem IsAt.step (h : b.IsAt) (hstep : b.Step t b')
    (ht : t.kind.isPlaced = true →
      t.location = (Position.start.advanceBy b.written.toList).location) : b'.IsAt := by
  cases hstep with
  | nothing => exact h
  | leaf hs hn hplaced hl =>
    refine h.append hs (Node.isAt_of_leaf hn ?_)
    rw [hl, ht hplaced, behind_eq hs]
  | opening hs hplaced hl =>
    refine ⟨h.opened, ?_⟩
    rintro _ ⟨⟩
    rw [hl, ht hplaced, behind_eq hs]
  | «attribute» hs hl =>
    refine ⟨h.opened, ?_⟩
    rintro _ ⟨⟩
    rw [hl]
    exact h.starting _ hs
  | @entering tag tag' hs hl =>
    have hrest : IsAt { b with starting := none } := ⟨h.opened, by rintro tag ⟨⟩⟩
    exact hrest.enter rfl (hl.trans (h.starting tag hs))
  | closing hs n e => exact (h.closeImplicit hs n).close (written_closeImplicit n hs).2 e

theorem IsAt.handleAll {ts : List Token} (h : b.IsAt) (hb : b.starting.isSome = u.inTag)
    (hwritable : ∀ t ∈ ts, t.Writable) (hturn : u.after? (ts.map Token.kind) = some v)
    (hts : Token.StandFrom (Position.start.advanceBy b.written.toList) ts)
    (hall : b.handleAll ts = .ok b') : b'.IsAt := by
  induction ts generalizing b u with
  | nil =>
    obtain rfl := Except.ok.inj hall
    exact h
  | cons t ts ih =>
    obtain ⟨ht, hwritable⟩ := List.forall_mem_cons.mp hwritable
    obtain ⟨w, hw, hturn⟩ := Option.bind_eq_some_iff.mp hturn
    unfold Builder.handleAll at hall
    split at hall
    · cases hall
    · next b₁ hhandle =>
      obtain ⟨hwritten, hb₁⟩ := written_handle hb ht hw hhandle
      have h₁ := h.step (step_of_handle hb hw hhandle)
        fun hplaced => hts.1 (TokenKind.isInner_of_isPlaced hplaced)
      refine ih h₁ hb₁ hwritable hturn ?_ hall
      rw [hwritten, String.toList_append, Position.advanceBy_append]
      exact hts.2

theorem IsAt.finish (h : b.IsAt) {d : Document} (hd : b.finish = .ok d) :
    Node.AllAt .start d.nodes := by
  obtain ⟨hs, hnodes, hopened⟩ := nodes_of_finish hd
  have hclosed := (h.closeImplicit hs b.opened.length).opened
  rw [hopened] at hclosed
  rw [hnodes]
  exact hclosed

end Builder

/-! ## Documents -/

/-- The tree of a document is built from tokens that stand at places of the source, in their order;
and where comments are kept, each where its text begins. -/
theorem exists_placed_of_parseSource {options : Options} {s : Source} {d : Document}
    (h : parseSource options s = .ok d) :
    ∃ ts b, Builder.handleAll { mode := options.mode } ts = .ok b ∧ b.finish = .ok d ∧
      (∀ t ∈ ts, t.Writable) ∧ ({} : Turn).after? (ts.map Token.kind) = some {} ∧
      (Token.places ts).Sublist (Token.places (tokenize options.mode s).tokens) ∧
      (options.comments = .keep → Token.StandFrom .start ts) := by
  obtain ⟨hspelled, ⟨v, hturn, hend⟩, -⟩ := tokenize_faithful options.mode s
  obtain ⟨herror, f, b, ts, b', hbuild, hfinish, hhandle, hdone⟩ := parseSource_eq_ok h
  obtain rfl := hend herror
  obtain ⟨out, hfeeds, hb⟩ := Filter.exists_of_buildFiltered hbuild
  have hstart := Filter.ofOptions_sound options
  obtain ⟨hsound, hwritable⟩ := hfeeds.writable hstart hspelled hturn
  obtain ⟨hfold, hheld, hlast, -⟩ := Filter.finish_sound hsound hfinish
  obtain rfl := Filter.finish_eq_ok hfinish
  have hout : ({} : Turn).after? (out.map Token.kind) = some {} := by
    have hout := hfeeds.turn hstart hspelled hturn
    rw [Filter.outTurn, hfold] at hout
    exact hout
  refine ⟨out ++ Held.tokens f.held, b', ?_, hdone, ?_, ?_, ?_, fun hkeep => ?_⟩
  · rw [Builder.handleAll_append, hb]
    exact hhandle
  · exact fun t ht => (List.mem_append.mp ht).elim (hwritable t) (hheld t)
  · rw [List.map_append, Turn.after?_append, hout]
    exact hlast
  · have hplaces := hfeeds.places fun _ => rfl
    rw [Token.places_append, Filter.places_tokens]
    exact ((List.sublist_append_left _ _).append_left _).trans hplaces
  · refine hfeeds.standFrom hkeep ⟨?_, ?_⟩ hstart hspelled hturn (tokenize_standFrom options.mode s)
    · rintro h ⟨⟩
    · rintro g ⟨⟩

/-- Whether some nodes are all those at the top level of a document, or all children of a node. -/
def Document.HasRow (d : Document) (ns : List Node) : Prop :=
  ns = d.nodes ∨ ∃ tag endTag, .element tag ns endTag ∈ Node.preorderAll d.nodes

theorem Document.HasRow.exists_allAt {d : Document} {ns : List Node} (h : d.HasRow ns)
    {p : Position} (hd : Node.AllAt p d.nodes) :
    ∃ before after, d.render = before ++ Node.renderAll ns ++ after ∧
      Node.AllAt (p.advanceBy before.toList) ns := by
  obtain rfl | ⟨tag, endTag, hmem⟩ := h
  · exact ⟨"", "", by simp [Document.render], hd⟩
  · obtain ⟨before, after, htext, hat⟩ := hd.exists_of_mem hmem
    rw [Node.IsAt] at hat
    refine ⟨before ++ tag.render, endTag.render ++ after, ?_, ?_⟩
    · rw [Document.render, htext]
      simp only [Node.render, String.append_assoc]
    · rw [String.toList_append, Position.advanceBy_append]
      exact hat.2

/-- Where comments are kept, every node of a document stands where its text is found in the source,
and of two siblings the second begins where the text of the first ends. In any case a node stands
further on than the nodes before it in document order. -/
theorem places_of_parse {options : Options} {s : String} {d : Document}
    (h : parse options s = .ok d) :
    (options.comments = .keep →
      (∀ n ∈ Node.preorderAll d.nodes, ∃ before after, s = before ++ n.render ++ after ∧
        n.location = .after before) ∧
      ∀ ns, d.HasRow ns → ∀ front n m back, ns = front ++ n :: m :: back →
        ∃ before after, s = before ++ n.render ++ m.render ++ after ∧
          n.location = .after before ∧ m.location = .after (before ++ n.render)) ∧
    (Node.preorderAll d.nodes).Pairwise fun n m => n.location.offset < m.location.offset := by
  obtain ⟨ts, b, hhandle, hfinish, hwritable, hturn, hplaces, hstand⟩ :=
    exists_placed_of_parseSource h
  have hbehind (text : String) :
      (Position.start.advanceBy text.toList).location = .after text := by
    rw [Position.location_advanceBy_start, String.ofList_toList]
  refine ⟨fun hkeep => ?_, ?_⟩
  · have hstart : Builder.IsAt { mode := options.mode } := ⟨trivial, by rintro tag ⟨⟩⟩
    have hnodes := (hstart.handleAll rfl hwritable hturn (hstand hkeep) hhandle).finish hfinish
    have htext : d.render = s := by rw [render_parse h, hkeep]
    refine ⟨fun n hn => ?_, ?_⟩
    · obtain ⟨before, after, hrender, hat⟩ := hnodes.exists_of_mem hn
      rw [← htext]
      exact ⟨before, after, hrender, hat.location.trans (hbehind before)⟩
    · rintro _ hrow front n m back rfl
      obtain ⟨before, after, hrender, hat⟩ := hrow.exists_allAt hnodes
      obtain ⟨-, hn, hm, -⟩ := Node.allAt_append.mp hat
      rw [← Position.advanceBy_append, ← String.toList_append] at hn hm
      rw [← Position.advanceBy_append, ← String.toList_append, ← String.append_assoc] at hm
      rw [← htext]
      refine ⟨before ++ Node.renderAll front, Node.renderAll back ++ after, ?_,
        hn.location.trans (hbehind _), hm.location.trans (hbehind _)⟩
      rw [hrender, Node.renderAll_append]
      simp only [Node.renderAll, String.append_assoc]
  · have herror := (parseSource_eq_ok h).1
    have hbuilt := Builder.places_handleAll rfl hturn hhandle
    rw [← Builder.places_finish hfinish] at hbuilt
    have hlocations := (tokenize_pairwise herror).1.sublist (hbuilt.trans hplaces)
    rw [Builder.placesOf, List.pairwise_map] at hlocations
    exact hlocations

/-- A line ends in an end tag here, and a block becomes a comment. -/
theorem places_of_parse_lines : ∃ d,
    parse { comments := .keep } "<ul>\r\n<li>ä<br></LI\n><!--/*/<li>/*/--></ul>" = .ok d ∧
      Builder.placesOf d.nodes =
        [⟨1, 1, 0⟩, ⟨1, 5, 4⟩, ⟨2, 1, 6⟩, ⟨2, 5, 10⟩, ⟨2, 6, 12⟩, ⟨3, 2, 22⟩] ∧
      (∀ n ∈ Node.preorderAll d.nodes, ∃ before after,
        "<ul>\r\n<li>ä<br></LI\n><!--/*/<li>/*/--></ul>" = before ++ n.render ++ after ∧
          n.location = .after before) ∧
      (Node.preorderAll d.nodes).Pairwise fun n m => n.location.offset < m.location.offset := by
  have hplaces : (parse { comments := .keep }
      "<ul>\r\n<li>ä<br></LI\n><!--/*/<li>/*/--></ul>").toOption.map
        (fun d => Builder.placesOf d.nodes) =
      some [⟨1, 1, 0⟩, ⟨1, 5, 4⟩, ⟨2, 1, 6⟩, ⟨2, 5, 10⟩, ⟨2, 6, 12⟩, ⟨3, 2, 22⟩] := by
    decide +kernel
  match h : parse { comments := .keep } "<ul>\r\n<li>ä<br></LI\n><!--/*/<li>/*/--></ul>" with
  | .ok d =>
    rw [h] at hplaces
    obtain ⟨hkeep, hpairwise⟩ := places_of_parse h
    exact ⟨d, rfl, Option.some.inj hplaces, (hkeep rfl).1, hpairwise⟩
  | .error e =>
    rw [h] at hplaces
    cases hplaces

end NaturalTemplate.Markup
