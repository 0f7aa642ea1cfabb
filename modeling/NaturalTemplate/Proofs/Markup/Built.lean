import NaturalTemplate.Proofs.Markup.Elements
import NaturalTemplate.Proofs.Markup.Pieces
import NaturalTemplate.Proofs.Markup.Trees

/-!
# The elements that are built

The start tags of a document that was parsed are those that were read. An element of it has neither
children nor an end tag if its start tag closes itself or it is void; any other is closed by an end
tag with its name, or by what came after it.
-/
namespace NaturalTemplate.Markup

/-- Whether a text is an end tag for elements with this name, however its case is written. -/
def ClosesNamed (name raw : String) : Prop :=
  ∃ found, IsEndTagOf found raw ∧ Text.sameName found name = true

/-- Whether an element that has to be closed can be closed like this. -/
def EndTag.Closes (name : String) : EndTag → Prop
  | explicit raw => ClosesNamed name raw
  | implicit => True
  | void => False

/-- Whether a node is one that is built when a document is read. -/
def Node.IsBuilt (mode : Mode) : Node → Prop
  | element tag children endTag =>
    tag.IsRead mode ∧
      if tag.selfClosing || isVoid tag.name then children = [] ∧ endTag = .void
      else endTag.Closes tag.name
  | _ => True

/-- Outside start tags: all elements are built, and those that are open have to be closed. -/
structure Builder.IsBuilt (mode : Mode) (b : Builder) : Prop where
  starting : b.starting = none
  roots : Node.EverywhereIn (Node.IsBuilt mode) b.roots
  opened : ∀ o ∈ b.opened,
    o.tag.IsRead mode ∧ (o.tag.selfClosing || isVoid o.tag.name) = false ∧
      Node.EverywhereIn (Node.IsBuilt mode) o.children

namespace Builder

theorem openNames_closeImplicit (b : Builder) (n : ℕ) :
    (b.closeImplicit n).openNames = b.openNames.drop n := by
  induction n with
  | zero => rfl
  | succ n ih =>
    have hstep : b.closeImplicit (n + 1) = (b.closeImplicit n).close .implicit := rfl
    rw [hstep, openNames_close, ih, List.tail_drop]

namespace IsBuilt
open Node

variable {mode : Mode} {b b' : Builder}

theorem append (h : b.IsBuilt mode) {n : Node} (hn : n.Everywhere (Node.IsBuilt mode)) :
    (b.append n).IsBuilt mode := by
  obtain ⟨builderMode, roots, opened, starting⟩ := b
  obtain ⟨hstarting, hroots, hopened⟩ := h
  cases opened with
  | nil => exact ⟨hstarting, List.forall_mem_cons.mpr ⟨hn, hroots⟩, hopened⟩
  | cons o opened =>
    obtain ⟨⟨htag, hcloses, hchildren⟩, hrest⟩ := List.forall_mem_cons.mp hopened
    have htop : EverywhereIn (Node.IsBuilt mode) (n :: o.children) :=
      List.forall_mem_cons.mpr ⟨hn, hchildren⟩
    exact ⟨hstarting, hroots, List.forall_mem_cons.mpr ⟨⟨htag, hcloses, htop⟩, hrest⟩⟩

theorem close (h : b.IsBuilt mode) {endTag : EndTag}
    (hend : ∀ name ∈ b.openNames.head?, endTag.Closes name) : (b.close endTag).IsBuilt mode := by
  obtain ⟨builderMode, roots, opened, starting⟩ := b
  cases opened with
  | nil => exact h
  | cons o opened =>
    obtain ⟨⟨htag, hcloses, hchildren⟩, hrest⟩ := List.forall_mem_cons.mp h.opened
    have houtside : IsBuilt mode ⟨builderMode, roots, opened, starting⟩ :=
      ⟨h.starting, h.roots, hrest⟩
    refine houtside.append (.intro ⟨htag, ?_⟩ fun n hn => hchildren n (List.mem_reverse.mp hn))
    rw [hcloses]
    exact hend o.tag.name rfl

theorem closeImplicit (h : b.IsBuilt mode) (n : ℕ) : (b.closeImplicit n).IsBuilt mode := by
  induction n with
  | zero => exact h
  | succ n ih => exact ih.close fun _ _ => trivial

theorem enter (h : b.IsBuilt mode) {tag : Tag} (htag : tag.IsRead mode) :
    (b.enter tag).IsBuilt mode := by
  unfold Builder.enter
  split
  · next hcloses => exact h.append (.of_leaf rfl ⟨htag, by rw [if_pos hcloses]; exact ⟨rfl, rfl⟩⟩)
  · next hcloses =>
    have hcloses := Bool.eq_false_iff.mpr hcloses
    exact ⟨h.starting, h.roots,
      List.forall_mem_cons.mpr ⟨⟨htag, hcloses, List.forall_mem_nil _⟩, h.opened⟩⟩

/-- An end tag closes an element with its name. -/
theorem handleEndTag (h : b.IsBuilt mode) {name raw : String} {l : Location}
    (hraw : IsEndTagOf name raw) (hok : b.handleEndTag name raw l = .ok b') : b'.IsBuilt mode := by
  unfold Builder.handleEndTag at hok
  split at hok
  · split at hok
    · simp at hok
    · next o opened hopened =>
      split at hok
      · next hname =>
        obtain rfl := Except.ok.inj hok
        refine h.close fun innermost hinnermost => ⟨name, hraw, ?_⟩
        rw [openNames, hopened] at hinnermost
        obtain rfl : o.tag.name = innermost := Option.some.inj hinnermost
        rw [hname]
        exact Text.sameName_refl name
      · simp at hok
  · split at hok
    · obtain rfl := Except.ok.inj hok
      exact h.append (.of_leaf rfl trivial)
    · next depth hfind =>
      obtain rfl := Except.ok.inj hok
      obtain ⟨hdepth, hsame, -⟩ := List.findIdx?_eq_some_iff_getElem.mp hfind
      -- Once the elements inside the one that was found are closed, it is the innermost.
      refine (h.closeImplicit depth).close fun innermost hinnermost => ⟨name, hraw, ?_⟩
      rw [openNames_closeImplicit, openNames, List.head?_drop, List.getElem?_map,
        List.getElem?_eq_getElem hdepth] at hinnermost
      obtain rfl : b.opened[depth].tag.name = innermost := Option.some.inj hinnermost
      exact Text.sameName_symm hsame

theorem handle (h : b.IsBuilt mode) {t : Token} (ht : t.IsPiece)
    (honly : t.isParserOnly = false) (hok : b.handle t = .ok b') : b'.IsBuilt mode := by
  obtain ⟨n, hn, rfl⟩ | ⟨content, -, -, rfl⟩ | ⟨-, hraw, hend⟩ := handle_piece ht honly hok
  · refine h.append ?_
    unfold Token.leaf? at hn
    cases hk : t.kind <;> simp_all [TokenKind.leaf?] <;> subst hn <;> exact .of_leaf rfl trivial
  · exact h.append (.of_leaf rfl trivial)
  · exact h.handleEndTag hraw hend

theorem handleAll {ts : List Token} (hts : Pieces mode ts)
    (honly : ∀ t ∈ ts, t.isParserOnly = false) (h : b.IsBuilt mode)
    (hok : b.handleAll ts = .ok b') : b'.IsBuilt mode := by
  induction hts generalizing b with
  | nil =>
    obtain rfl := Except.ok.inj hok
    exact h
  | @single t ts ht _ ih =>
    obtain ⟨hhere, honly⟩ := List.forall_mem_cons.mp honly
    unfold Builder.handleAll at hok
    split at hok
    · simp at hok
    · next b₁ hstep => exact ih honly (h.handle ht hhere hstep) hok
  | @tag tag htag p ts _ ih =>
    obtain ⟨placed, hplaced, hbuild⟩ := handleAll_tag h.starting tag p
    rw [handleAll_append, hbuild] at hok
    exact ih (fun t ht => honly t (by simp [ht])) (h.enter (htag.of_unplaced hplaced)) hok

theorem finish (h : b.IsBuilt mode) {d : Document} (hok : b.finish = .ok d) :
    EverywhereIn (Node.IsBuilt mode) d.nodes := by
  unfold Builder.finish at hok
  split at hok
  · simp at hok
  · simp at hok
  · obtain rfl := Except.ok.inj hok
    exact fun n hn => (h.closeImplicit _).roots n (List.mem_reverse.mp hn)

end IsBuilt
end Builder

theorem Node.of_mem_elements {p : Node → Prop} {ns : List Node} (h : EverywhereIn p ns)
    {e : Element} (he : e ∈ elements ns) : p e.toNode := by
  fun_induction elements ns with
  | case1 => simp at he
  | case2 tag children endTag rest ih =>
    obtain ⟨hhere, hrest⟩ := List.forall_mem_cons.mp h
    obtain rfl | he := List.mem_cons.mp he
    · exact hhere.here
    · exact ih (List.forall_mem_append.mpr ⟨hhere.inside, hrest⟩) he
  | case3 n rest _ ih => exact ih (List.forall_mem_cons.mp h).2 he

/-- The elements of a document are built from what was read. -/
theorem isBuilt_of_parseSource {options : Options} {s : Source} {d : Document}
    (h : parseSource options s = .ok d) {e : Element} (he : e ∈ d.elements) :
    e.toNode.IsBuilt options.mode := by
  obtain ⟨ts, b, hpieces, honly, -, hb, hfinish⟩ := exists_of_parseSource h
  have hempty : Builder.IsBuilt options.mode { mode := options.mode } :=
    ⟨rfl, List.forall_mem_nil _, List.forall_mem_nil _⟩
  exact Node.of_mem_elements ((hempty.handleAll hpieces honly hb).finish hfinish) he

/-- The start tags of a document are those that were read. -/
theorem isRead_of_parseSource {options : Options} {s : Source} {d : Document}
    (h : parseSource options s = .ok d) {e : Element} (he : e ∈ d.elements) :
    e.tag.IsRead options.mode :=
  (isBuilt_of_parseSource h he).1

end NaturalTemplate.Markup
