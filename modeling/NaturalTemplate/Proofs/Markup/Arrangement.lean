import NaturalTemplate.Proofs.Markup.Pieces

/-!
# How the nodes of a document are arranged

An end tag closes the nearest open element of its name, and with it all that was opened inside. So
an element without an end tag is the last one among its siblings, and no element between it and the
end tag that closed it has the name of that end tag. While a document is built this holds of every
list of nodes that is still open, but for the innermost one between the steps in which several
elements are closed.
-/
namespace NaturalTemplate.Markup

/-- Whether the names of a start tag and of an end tag are one, to the letter or but for case. -/
def Mode.sameTag (mode : Mode) (name found : String) : Bool :=
  match mode with
  | .strict => name == found
  | .tolerant => Text.sameName name found

namespace Node

def isImplicit : Node → Bool
  | element _ _ .implicit => true
  | _ => false

mutual

/-- The names of an element without end tag, of its last child, the last child of this, and so on,
as long as these are elements without end tags. -/
def implicitNames : Node → List String
  | element tag children .implicit => tag.name :: lastImplicitNames children
  | _ => []

/-- The names of such a chain from the last one of several nodes on. -/
def lastImplicitNames : List Node → List String
  | [] => []
  | [n] => n.implicitNames
  | _ :: n :: ns => lastImplicitNames (n :: ns)

end

/-- What holds of a node by itself, inside elements with the names `outer`. An element has no end
tag of its own exactly if its start tag closes itself or it is void, and then it has no children. -/
def Fits (mode : Mode) (outer : List String) : Node → Prop
  | element tag children endTag =>
    (endTag = .void ↔ (tag.selfClosing || isVoid tag.name) = true) ∧
      match endTag with
      | .void => children = []
      | .implicit => mode = .tolerant
      | .explicit raw =>
        mode.sameTag tag.name (endTagName raw) = true ∧
          ∀ name ∈ lastImplicitNames children, mode.sameTag name (endTagName raw) = false
  | unmatched raw _ =>
    mode = .tolerant ∧ ∀ name ∈ outer, Text.sameName name (endTagName raw) = false
  | text content _ => content ≠ ""
  | _ => True

/-- Whether a node may have this one next to it: an element without end tag has none, and a text
has no text. -/
def MayPrecede (n next : Node) : Prop :=
  n.isImplicit = false ∧ (n.isText = false ∨ next.isText = false)

/-- What holds of the nodes inside elements with the names `outer`, and of all nodes in them. -/
inductive Arranged (mode : Mode) : List String → List Node → Prop where
  | intro {outer : List String} {ns : List Node} (fits : ∀ n ∈ ns, n.Fits mode outer)
      (next : ns.IsChain MayPrecede)
      (inside : ∀ tag children endTag, element tag children endTag ∈ ns →
        Arranged mode (tag.name :: outer) children) : Arranged mode outer ns

theorem lastImplicitNames_concat (ns : List Node) (n : Node) :
    lastImplicitNames (ns ++ [n]) = n.implicitNames := by
  induction ns with
  | nil => rfl
  | cons m ns ih =>
    rw [← ih]
    cases ns <;> rfl

theorem implicitNames_of_not {n : Node} (h : n.isImplicit = false) : n.implicitNames = [] := by
  unfold isImplicit at h
  unfold implicitNames
  split <;> simp_all

/-- A chain is empty where the last node has an end tag or needs none. -/
theorem lastImplicitNames_reverse {ns : List Node} (h : ∀ n ∈ ns.head?, n.isImplicit = false) :
    lastImplicitNames ns.reverse = [] := by
  cases ns with
  | nil => rfl
  | cons n ns =>
    rw [List.reverse_cons, lastImplicitNames_concat]
    exact implicitNames_of_not (h n rfl)

/-- Comments, declarations and the like fit anywhere. -/
theorem Fits.of_leaf? {t : Token} {n : Node} (hn : t.leaf? = some n) (mode : Mode)
    (outer : List String) :
    n.Fits mode outer ∧ n.isText = false ∧ n.isImplicit = false ∧
      ∀ tag children endTag, n ≠ element tag children endTag := by
  unfold Token.leaf? at hn
  cases hk : t.kind <;> simp_all [TokenKind.leaf?] <;> subst hn <;>
    simp [isText, isImplicit, Fits]

namespace Arranged

variable {mode : Mode} {outer : List String} {ns : List Node} {n : Node}

theorem nil : Arranged mode outer [] := .intro (by simp) (by simp) (by simp)

/-- One more node behind others; they are held with the last one first. -/
theorem cons_reverse (h : Arranged mode outer ns.reverse) (hn : n.Fits mode outer)
    (hnext : ∀ m ∈ ns.head?, MayPrecede m n)
    (hinside : ∀ tag children endTag, n = element tag children endTag →
      Arranged mode (tag.name :: outer) children) : Arranged mode outer (n :: ns).reverse := by
  cases h with
  | intro fits next inside =>
    rw [List.reverse_cons]
    refine .intro ?_ ?_ ?_
    · intro m hm
      obtain hm | hm := List.mem_append.mp hm
      · exact fits m hm
      · exact List.mem_singleton.mp hm ▸ hn
    · refine List.isChain_append.mpr ⟨next, by simp, ?_⟩
      intro m hm k hk
      obtain rfl : n = k := by simpa using hk
      exact hnext m (by simpa using hm)
    · intro tag children endTag hm
      obtain hm | hm := List.mem_append.mp hm
      · exact inside tag children endTag hm
      · exact hinside tag children endTag (List.mem_singleton.mp hm).symm

end Arranged
end Node

namespace Builder
open Node

/-! ## Open lists of nodes -/

/-- The nodes of the innermost open element, or at the top level, with the last one first. -/
def innermost (b : Builder) : List Node :=
  match b.opened with
  | [] => b.roots
  | o :: _ => o.children

/-- The lists of nodes around some open elements, each with the names of the elements that it is
in. -/
def rowsAround (roots : List Node) : List OpenElement → List (List String × List Node)
  | [] => []
  | [_] => [([], roots)]
  | _ :: o :: opened =>
    ((o :: opened).map fun o => o.tag.name, o.children) :: rowsAround roots (o :: opened)

/-- Outside start tags: all elements that are open can have children, and all lists of nodes that
are open are arranged so far; only the innermost one may end with an element without end tag. -/
structure IsArranged (b : Builder) : Prop where
  starting : b.starting = none
  opened : ∀ o ∈ b.opened, (o.tag.selfClosing || isVoid o.tag.name) = false
  innermost : Arranged b.mode b.openNames b.innermost.reverse
  around : ∀ r ∈ rowsAround b.roots b.opened,
    Arranged b.mode r.1 r.2.reverse ∧ ∀ n ∈ r.2.head?, n.isImplicit = false

/-- Whether nodes may be added. -/
structure IsSettled (b : Builder) : Prop extends b.IsArranged where
  last : ∀ n ∈ b.innermost.head?, n.isImplicit = false

theorem innermost_append (b : Builder) (n : Node) :
    (b.append n).innermost = n :: b.innermost := by
  obtain ⟨mode, roots, opened, starting⟩ := b
  cases opened <;> rfl

theorem rowsAround_append (b : Builder) (n : Node) :
    rowsAround (b.append n).roots (b.append n).opened = rowsAround b.roots b.opened := by
  obtain ⟨mode, roots, opened, starting⟩ := b
  cases opened with
  | nil => rfl
  | cons o opened => cases opened <;> rfl

theorem IsSettled.append {b : Builder} (hb : b.IsSettled) {n : Node}
    (hn : n.Fits b.mode b.openNames)
    (htext : n.isText = true → ∀ m ∈ b.innermost.head?, m.isText = false)
    (hinside : ∀ tag children endTag, n = element tag children endTag →
      Arranged b.mode (tag.name :: b.openNames) children) : (b.append n).IsArranged := by
  refine ⟨by rw [starting_append, hb.starting], ?_, ?_, ?_⟩
  · obtain ⟨mode, roots, opened, starting⟩ := b
    have hopened := hb.opened
    cases opened <;> simp_all [Builder.append]
  · rw [mode_append, openNames_append, innermost_append]
    refine hb.innermost.cons_reverse hn (fun m hm => ⟨hb.last m hm, ?_⟩) hinside
    cases hisText : n.isText
    · exact .inr rfl
    · exact .inl (htext hisText m hm)
  · rw [mode_append, rowsAround_append]
    exact hb.around

/-! ## Closing elements -/

section
variable {b b' : Builder} {o : OpenElement} {opened : List OpenElement}

theorem rowsAround_cons (b : Builder) (o : OpenElement) (opened : List OpenElement) :
    rowsAround b.roots (o :: opened) =
      ({ b with opened }.openNames, { b with opened }.innermost) ::
        rowsAround b.roots opened := by
  cases opened <;> rfl

/-- The nodes around the innermost open element may be added to once this is taken away. -/
theorem IsArranged.outside (hb : b.IsArranged) (hopened : b.opened = o :: opened) :
    { b with opened }.IsSettled := by
  obtain ⟨hstarting, hvoid, -, haround⟩ := hb
  rw [hopened] at hvoid haround
  rw [rowsAround_cons] at haround
  obtain ⟨hhere, haround⟩ := List.forall_mem_cons.mp haround
  exact ⟨⟨hstarting, (List.forall_mem_cons.mp hvoid).2, hhere.1, haround⟩, hhere.2⟩

/-- Closing the innermost open element puts it last among the nodes around it. -/
theorem IsArranged.close (hb : b.IsArranged) (hopened : b.opened = o :: opened) {endTag : EndTag}
    (hn : (element o.tag o.children.reverse endTag).Fits b.mode
      (opened.map fun o => o.tag.name)) :
    (b.close endTag).IsArranged ∧
      (b.close endTag).innermost.head? = some (.element o.tag o.children.reverse endTag) := by
  have hsettled := hb.outside hopened
  have hinside : Arranged b.mode (o.tag.name :: opened.map fun o => o.tag.name)
      o.children.reverse := by
    simpa [Builder.openNames, Builder.innermost, hopened] using hb.innermost
  have hclose : b.close endTag =
      { b with opened }.append (.element o.tag o.children.reverse endTag) := by
    simp [Builder.close, hopened]
  rw [hclose, innermost_append]
  refine ⟨hsettled.append hn (by simp [isText]) ?_, rfl⟩
  rintro tag children endTag' heq
  obtain ⟨rfl, rfl, -⟩ := Node.element.inj heq
  exact hinside

@[simp]
theorem mode_close (b : Builder) (endTag : EndTag) : (b.close endTag).mode = b.mode := by
  unfold Builder.close
  split
  · rfl
  · exact mode_append ..

/-- Whether a tree goes on from another one with a node that is no text. -/
structure Follows (b b' : Builder) : Prop where
  settled : b'.IsSettled
  mode : b'.mode = b.mode
  last : ∀ n ∈ b'.innermost.head?, n.isText = false

theorem IsArranged.follows (hb : b'.IsArranged) (hmode : b'.mode = b.mode) {n : Node}
    (hlast : b'.innermost.head? = some n) (himplicit : n.isImplicit = false)
    (htext : n.isText = false) : Follows b b' :=
  ⟨⟨hb, by simp [hlast, himplicit]⟩, hmode, by simp [hlast, htext]⟩

/-- An end tag closes the innermost open element if it has its name, and none of the elements in it
that have no end tag does. -/
theorem IsArranged.closeExplicit (hb : b.IsArranged) (hopened : b.opened = o :: opened)
    {raw : String} (hsame : b.mode.sameTag o.tag.name (endTagName raw) = true)
    (hchain : ∀ name ∈ lastImplicitNames b.innermost.reverse,
      b.mode.sameTag name (endTagName raw) = false) : Follows b (b.close (.explicit raw)) := by
  have hvoid := hb.opened o (by simp [hopened])
  simp only [Builder.innermost, hopened] at hchain
  have hfits : (element o.tag o.children.reverse (.explicit raw)).Fits b.mode
      (opened.map fun o => o.tag.name) := ⟨by simp [hvoid], hsame, hchain⟩
  obtain ⟨hclosed, hlast⟩ := hb.close hopened hfits
  exact hclosed.follows (mode_close ..) hlast rfl rfl

/-- What is known of a tree after some elements were closed without end tags: the chain of these
begins with the last node. -/
structure ClosedImplicitly (b : Builder) (n : Nat) (b' : Builder) : Prop where
  mode : b'.mode = b.mode
  openNames : b'.openNames = b.openNames.drop n
  arranged : b'.IsArranged
  names : ∀ name ∈ lastImplicitNames b'.innermost.reverse, name ∈ b.openNames.take n

theorem IsSettled.closeImplicit (hb : b.IsSettled) (hmode : b.mode = .tolerant) {n : Nat}
    (hn : n ≤ b.opened.length) : ClosedImplicitly b n (b.closeImplicit n) := by
  induction n with
  | zero =>
    refine ⟨rfl, rfl, hb.toIsArranged, ?_⟩
    show ∀ name ∈ lastImplicitNames b.innermost.reverse, _
    simp [lastImplicitNames_reverse hb.last]
  | succ n ih =>
    obtain ⟨hmode', hnames, harranged, hchain⟩ := ih (by omega)
    have hstep : b.closeImplicit (n + 1) = (b.closeImplicit n).close .implicit := rfl
    have hlength : n < b.openNames.length := by
      rw [Builder.openNames, List.length_map]
      omega
    rw [List.drop_eq_getElem_cons hlength] at hnames
    obtain ⟨o, opened, hopened, hname, htail⟩ := exists_of_openNames hnames
    have hvoid := harranged.opened o (by simp [hopened])
    have hfits : (element o.tag o.children.reverse .implicit).Fits (b.closeImplicit n).mode
        (opened.map fun o => o.tag.name) := by
      simp [Fits, hvoid, hmode', hmode]
    obtain ⟨hclosed, hlast⟩ := harranged.close hopened hfits
    refine ⟨by rw [hstep, mode_close, hmode'], ?_, hclosed, ?_⟩
    · rw [hstep, openNames_close, hnames, List.tail_cons]
    · obtain ⟨before, hbefore⟩ := List.head?_eq_some_iff.mp hlast
      rw [hstep, hbefore, List.reverse_cons, lastImplicitNames_concat,
        List.take_succ_eq_append_getElem hlength]
      simp only [implicitNames, List.mem_cons, List.mem_append, List.not_mem_nil, or_false]
      rintro name (rfl | hmem)
      · exact .inr hname
      · refine .inl (hchain name ?_)
        simpa [innermost, hopened] using hmem

/-- An end tag is put down as a node, or closes the nearest open element of its name. -/
theorem IsSettled.handleEndTag (hb : b.IsSettled) {raw : String} {l : Location}
    (h : b.handleEndTag (endTagName raw) raw l = .ok b') : Follows b b' := by
  unfold Builder.handleEndTag at h
  split at h
  · next hmode =>
    split at h
    · simp at h
    · next o opened hopened =>
      split at h
      · next hname =>
        obtain rfl := Except.ok.inj h
        refine hb.toIsArranged.closeExplicit hopened (by simp [hmode, Mode.sameTag, hname]) ?_
        simp [lastImplicitNames_reverse hb.last]
      · simp at h
  · next hmode =>
    split at h
    · next hnone =>
      obtain rfl := Except.ok.inj h
      have hfits : (Node.unmatched raw l).Fits b.mode b.openNames := by
        refine ⟨hmode, ?_⟩
        simpa [Builder.openNames] using List.findIdx?_eq_none_iff.mp hnone
      have harranged := hb.append hfits (by simp [isText]) (by simp)
      exact harranged.follows (mode_append ..) (by rw [innermost_append, List.head?_cons]) rfl rfl
    · next depth hfind =>
      obtain rfl := Except.ok.inj h
      obtain ⟨hdepth, hsame, hbefore⟩ := List.findIdx?_eq_some_iff_getElem.mp hfind
      obtain ⟨hmode', hnames, harranged, hchain⟩ := hb.closeImplicit hmode hdepth.le
      have hlength : depth < b.openNames.length := by
        rwa [Builder.openNames, List.length_map]
      rw [List.drop_eq_getElem_cons hlength] at hnames
      obtain ⟨o, opened, hopened, hname, -⟩ := exists_of_openNames hnames
      have hfollows : Follows (b.closeImplicit depth)
          ((b.closeImplicit depth).close (.explicit raw)) := by
        refine harranged.closeExplicit hopened ?_ fun name hmem => ?_
        · simpa [hmode', hmode, Mode.sameTag, hname, Builder.openNames] using hsame
        · -- An element of the chain was opened inside, so the search came upon it first.
          obtain ⟨i, hi, rfl⟩ := List.mem_take_iff_getElem.mp (hchain name hmem)
          simpa [hmode', hmode, Mode.sameTag, Builder.openNames, -Text.sameName_iff]
            using hbefore i (by omega)
      exact ⟨hfollows.settled, hfollows.mode.trans hmode', hfollows.last⟩

theorem IsSettled.enter (hb : b.IsSettled) (tag : Tag) : Follows b (b.enter tag) := by
  unfold Builder.enter
  split
  · next hvoid =>
    have hfits : (element tag [] .void).Fits b.mode b.openNames := ⟨by simp [hvoid], rfl⟩
    have harranged := hb.append hfits (by simp [isText]) fun tag' children endTag heq => by
      obtain ⟨-, rfl, -⟩ := Node.element.inj heq
      exact .nil
    exact harranged.follows (mode_append ..) (by rw [innermost_append, List.head?_cons]) rfl rfl
  · next hvoid =>
    refine ⟨⟨⟨hb.starting, ?_, .nil, ?_⟩, by simp [innermost]⟩, rfl, by simp [innermost]⟩
    · exact List.forall_mem_cons.mpr ⟨by simpa using hvoid, hb.opened⟩
    · show ∀ r ∈ rowsAround b.roots ({ tag } :: b.opened), _
      rw [rowsAround_cons]
      exact List.forall_mem_cons.mpr ⟨⟨hb.innermost, hb.last⟩, hb.around⟩

/-! ## Building from pieces -/

/-- One piece that is no start tag. A text needs that no text stands in front of it. -/
theorem IsSettled.handle (hb : b.IsSettled) {t : Token} (ht : t.IsPiece)
    (honly : t.isParserOnly = false)
    (htext : t.isText = true → ∀ n ∈ b.innermost.head?, n.isText = false)
    (h : b.handle t = .ok b') :
    b'.IsSettled ∧ b'.mode = b.mode ∧
      (t.isText = false → ∀ n ∈ b'.innermost.head?, n.isText = false) := by
  obtain ⟨n, hn, rfl⟩ | ⟨content, hkind, hne, rfl⟩ | ⟨-, -, h⟩ := handle_piece ht honly h
  · obtain ⟨hfits, hisText, himplicit, hnone⟩ := Fits.of_leaf? hn b.mode b.openNames
    have harranged := hb.append hfits (by simp [hisText]) fun tag children endTag heq =>
      absurd heq (hnone tag children endTag)
    obtain ⟨hsettled, hmode, hlast⟩ := harranged.follows (mode_append ..)
      (by rw [innermost_append, List.head?_cons]) himplicit hisText
    exact ⟨hsettled, hmode, fun _ => hlast⟩
  · have hisText : t.isText = true := by simp [Token.isText, hkind]
    have harranged := hb.append (n := .text content t.location) hne (fun _ => htext hisText)
      (by simp)
    exact ⟨⟨harranged, by simp [innermost_append, isImplicit]⟩, mode_append .., by simp [hisText]⟩
  · obtain ⟨hsettled, hmode, hlast⟩ := hb.handleEndTag h
    exact ⟨hsettled, hmode, fun _ => hlast⟩

theorem IsSettled.handleAll {ts : List Token} (hts : Pieces b.mode ts)
    (honly : ∀ t ∈ ts, t.isParserOnly = false) (hchain : ts.IsChain Filter.Apart)
    (hb : b.IsSettled)
    (htext : ∀ t ∈ ts.head?, t.isText = true → ∀ n ∈ b.innermost.head?, n.isText = false)
    (h : b.handleAll ts = .ok b') : b'.IsSettled ∧ b'.mode = b.mode := by
  generalize hmode : b.mode = mode at hts
  induction hts generalizing b with
  | nil =>
    obtain rfl := Except.ok.inj h
    exact ⟨hb, hmode⟩
  | @single t ts ht _ ih =>
    obtain ⟨hhere, honly⟩ := List.forall_mem_cons.mp honly
    obtain ⟨hnext, hchain⟩ := List.isChain_cons.mp hchain
    unfold Builder.handleAll at h
    split at h
    · simp at h
    · next b₁ hstep =>
      obtain ⟨hsettled, hmode₁, hlast⟩ := hb.handle ht hhere (htext t rfl) hstep
      refine (ih honly hchain hsettled ?_ h (hmode₁.trans hmode))
      intro k hk hktext
      exact hlast ((hnext k hk).resolve_right (by simp [hktext]))
  | @tag tag htag p ts _ ih =>
    obtain ⟨placed, -, hplaced⟩ := handleAll_tag hb.starting tag p
    obtain ⟨hsettled, hmode₁, hlast⟩ := hb.enter placed
    rw [handleAll_append, hplaced] at h
    exact ih (fun t ht => honly t (by simp [ht])) (List.isChain_append.mp hchain).2.1 hsettled
      (fun _ _ _ => hlast) h (hmode₁.trans hmode)

/-- What is still open at the end is closed without end tags, in tolerant mode only. -/
theorem IsSettled.finish (hb : b.IsSettled) {d : Document} (h : b.finish = .ok d) :
    Arranged b.mode [] d.nodes := by
  have hdone {b : Builder} (hb : b.IsArranged) (hnames : b.openNames = []) :
      Arranged b.mode [] b.roots.reverse := by
    have hopened : b.opened = [] := List.map_eq_nil_iff.mp hnames
    simpa [hnames, innermost, hopened] using hb.innermost
  unfold Builder.finish at h
  split at h
  · simp at h
  · simp at h
  · next hstrict =>
    obtain rfl := Except.ok.inj h
    cases hmode : b.mode with
    | tolerant =>
      obtain ⟨hmode', hnames, harranged, -⟩ := hb.closeImplicit hmode le_rfl
      rw [← hmode, ← hmode']
      refine hdone harranged ?_
      rw [hnames, List.drop_eq_nil_iff, Builder.openNames, List.length_map]
    | strict =>
      have hopened : b.opened = [] := by
        cases hopened : b.opened with
        | nil => rfl
        | cons o opened => exact (hstrict o opened hmode hopened).elim
      rw [← hmode, hopened]
      exact hdone hb.toIsArranged (by simp [Builder.openNames, hopened])

end

theorem isSettled_start (mode : Mode) : IsSettled { mode } :=
  ⟨⟨rfl, by simp, .nil, by simp [rowsAround]⟩, by simp [innermost]⟩

end Builder

/-- The nodes of a document that was parsed are arranged, in either mode and whatever becomes of
comments. -/
theorem arranged_of_parseSource {options : Options} {s : Source} {d : Document}
    (h : parseSource options s = .ok d) : Node.Arranged options.mode [] d.nodes := by
  obtain ⟨ts, b, hpieces, honly, hchain, hb, hfinish⟩ := exists_of_parseSource h
  obtain ⟨hsettled, hmode⟩ := (Builder.isSettled_start options.mode).handleAll hpieces honly hchain
    (by simp [Builder.innermost]) hb
  have harranged := hsettled.finish hfinish
  rwa [hmode] at harranged

/-- Items without end tags, a void element, a stray end tag, and text joined over a comment. -/
theorem arranged_of_parseSource_list : ∃ d,
    parseSource {} (.ofString "<ul><li>a<br><LI>b</ul></li>c<!--/* n */-->d") = .ok d ∧
      Node.Arranged .tolerant [] d.nodes := by
  have hok :
      (parseSource {} (.ofString "<ul><li>a<br><LI>b</ul></li>c<!--/* n */-->d")).isOk := by
    decide +kernel
  match h : parseSource {} (.ofString "<ul><li>a<br><LI>b</ul></li>c<!--/* n */-->d") with
  | .ok d => exact ⟨d, rfl, arranged_of_parseSource h⟩
  | .error e =>
    rw [h] at hok
    contradiction

end NaturalTemplate.Markup
