import NaturalTemplate.Proofs.Markup.Building

/-!
# Strict trees

In a tree that was parsed by the strict rules every tag is a strict one, every element that can have
an end tag has one of its own name, and all that is neither element nor text is read again wherever
it stands.
-/
namespace NaturalTemplate.Markup
open Lexeme

/-- How an element of a strict tree ends. -/
inductive Closes (tag : Tag) (children : List Node) (endTag : EndTag) : Prop where
  | void (h : (tag.selfClosing || isVoid tag.name) = true) (hchildren : children = [])
    (hend : endTag = .void)
  | explicit {space : String} (h : (tag.selfClosing || isVoid tag.name) = false)
    (hspace : IsSpace space) (hend : endTag = .explicit (endTagText tag.name space))

def Node.IsStrict (policy : CommentPolicy) : Node → Prop
  | element tag children endTag => tag.IsStrict ∧ Closes tag children endTag
  | text .. => True
  | n => Readable policy n

theorem Node.isStrict_of_leaf? {policy : CommentPolicy} {t : Token} {n : Node}
    (hn : t.leaf? = some n) (h : Readable policy n) : n.IsStrict policy ∧ n.children = [] := by
  unfold Token.leaf? at hn
  cases hk : t.kind <;> simp_all [TokenKind.leaf?] <;> subst hn <;> exact ⟨h, rfl⟩

/-! ## Places do not matter -/

theorem Attribute.IsStrict.of_unplaced {a a' : Attribute} (h : a.IsStrict)
    (heq : a'.unplaced = a.unplaced) : a'.IsStrict := by
  obtain ⟨leading, name, operator, value, quote, location⟩ := a
  obtain ⟨leading', name', operator', value', quote', location'⟩ := a'
  simp only [unplaced, mk.injEq, and_true] at heq
  obtain ⟨rfl, rfl, rfl, rfl, rfl⟩ := heq
  refine ⟨h.leading, h.name, ?_⟩
  cases h.value with
  | missing hoperator hvalue hquote => exact .missing hoperator hvalue hquote
  | quoted hfront hback hoperator hvalue hmark hquote =>
    exact .quoted hfront hback hoperator hvalue hmark hquote

theorem Tag.IsStrict.of_unplaced {t t' : Tag} (h : t.IsStrict) (heq : t'.unplaced = t.unplaced) :
    t'.IsStrict := by
  simp only [unplaced, mk.injEq, and_true] at heq
  obtain ⟨hname, hattributes, htrailing, -⟩ := heq
  refine ⟨hname ▸ h.name, fun a' ha' => ?_, htrailing ▸ h.trailing⟩
  have hmem : a'.unplaced ∈ t.attributes.map Attribute.unplaced := by
    rw [← hattributes]
    exact List.mem_map_of_mem ha'
  obtain ⟨a, ha, haeq⟩ := List.mem_map.mp hmem
  exact (h.attributes a ha).of_unplaced haeq.symm

theorem Tag.closesItself_of_unplaced {t t' : Tag} (heq : t'.unplaced = t.unplaced) :
    (t'.selfClosing || isVoid t'.name) = (t.selfClosing || isVoid t.name) := by
  simp only [unplaced, mk.injEq, and_true] at heq
  rw [heq.1, heq.2.2.2]

/-! ## What is built -/

structure OpenElement.IsStrict (policy : CommentPolicy) (o : OpenElement) : Prop where
  tag : o.tag.IsStrict
  stays : (o.tag.selfClosing || isVoid o.tag.name) = false
  children : Node.EverywhereIn (Node.IsStrict policy) o.children

namespace Builder

/-- Whether all that was built so far is strict. -/
structure IsStrict (policy : CommentPolicy) (b : Builder) : Prop where
  roots : Node.EverywhereIn (Node.IsStrict policy) b.roots
  opened : ∀ o ∈ b.opened, o.IsStrict policy

namespace IsStrict

variable {policy : CommentPolicy} {b : Builder}

theorem of_opened (h : b.IsStrict policy) {o : OpenElement} {opened : List OpenElement}
    (hopened : b.opened = o :: opened) : o.IsStrict policy ∧ ∀ o ∈ opened, o.IsStrict policy := by
  have hall := h.opened
  rw [hopened] at hall
  exact List.forall_mem_cons.mp hall

theorem append (h : b.IsStrict policy) {n : Node} (hn : n.Everywhere (Node.IsStrict policy)) :
    (b.append n).IsStrict policy := by
  unfold Builder.append
  split
  · next hopened => exact ⟨List.forall_mem_cons.mpr ⟨hn, h.roots⟩, by simp [hopened]⟩
  · next o opened hopened =>
    obtain ⟨ho, hrest⟩ := h.of_opened hopened
    have htop : OpenElement.IsStrict policy { o with children := n :: o.children } :=
      ⟨ho.tag, ho.stays, List.forall_mem_cons.mpr ⟨hn, ho.children⟩⟩
    exact ⟨h.roots, List.forall_mem_cons.mpr ⟨htop, hrest⟩⟩

theorem settle (h : b.IsStrict policy) (held : Option Held) : (b.settle held).IsStrict policy := by
  cases held with
  | none => exact h
  | some _ => exact h.append (.of_leaf rfl trivial)

theorem enter (h : b.IsStrict policy) {tag : Tag} (ht : tag.IsStrict) :
    (b.enter tag).IsStrict policy := by
  unfold Builder.enter
  split
  · next hvoid => exact h.append (.of_leaf rfl ⟨ht, .void hvoid rfl rfl⟩)
  · next hvoid =>
    have htop : OpenElement.IsStrict policy { tag } := 
      ⟨ht, by simpa using hvoid, List.forall_mem_nil _⟩
    exact ⟨h.roots, List.forall_mem_cons.mpr ⟨htop, h.opened⟩⟩

/-- An open element is closed by an end tag of its name. -/
theorem close (h : b.IsStrict policy) {name space : String} {names : List String}
    (hnames : b.openNames = name :: names) (hspace : IsSpace space) :
    (b.close (.explicit (endTagText name space))).IsStrict policy := by
  obtain ⟨o, opened, hopened, rfl, -⟩ := exists_of_openNames hnames
  obtain ⟨ho, hrest⟩ := h.of_opened hopened
  have hclosed : Node.Everywhere (Node.IsStrict policy)
      (.element o.tag o.children.reverse (.explicit (endTagText o.tag.name space))) := by
    refine .intro ⟨ho.tag, .explicit ho.stays hspace rfl⟩ fun n hn => ?_
    exact ho.children n (List.mem_reverse.mp hn)
  have hbelow : Builder.IsStrict policy { b with opened } := ⟨h.roots, hrest⟩
  unfold Builder.close
  rw [hopened]
  exact hbelow.append hclosed

end IsStrict

end Builder

/-- Building a plain sequence gives a strict tree. -/
theorem isStrict_of_plain {policy : CommentPolicy} {ts : List Token} (hts : Plain policy ts)
    {b b' : Builder} {held : Option Held} {f' : Filter} (hready : b.IsReady)
    (hb : b.IsStrict policy)
    (h : buildFiltered (b.filter policy held) b ts = .ok (f', b')) :
    b'.IsStrict policy ∧ b'.IsReady ∧ b'.openNames = [] ∧ f' = b'.filter policy none := by
  induction hts generalizing b held with
  | done l =>
    have hnames := openNames_of_documentEnd h
    rw [buildFiltered_documentEnd hnames, Except.ok.injEq, Prod.mk.injEq] at h
    obtain ⟨rfl, rfl⟩ := h
    exact ⟨hb.settle held, hready.settle held, by rw [Builder.openNames_settle, hnames], rfl⟩
  | text ht _ ih =>
    rw [buildFiltered_text policy b held ht] at h
    exact ih hready hb h
  | @tag p tag ts ht _ ih =>
    obtain ⟨placed, hplaced, hbuild⟩ := buildFiltered_tag policy held hready tag p ts
    rw [hbuild _ rfl] at h
    exact ih ((hready.settle held).enter placed) ((hb.settle held).enter (ht.of_unplaced hplaced)) h
  | @endTag p name space ts hname hspace _ ih =>
    obtain ⟨names, hnames⟩ := exists_of_buildFiltered_endTag h
    rw [buildFiltered_endTag hready hnames space p ts rfl] at h
    have hsettled : (b.settle held).openNames = name :: names := by
      rw [Builder.openNames_settle, hnames]
    exact ih ((hready.settle held).close _) ((hb.settle held).close hsettled hspace) h
  | leaf ht honly hn _ ih =>
    rw [buildFiltered_leaf ht honly] at h
    obtain ⟨hstrict, hchildren⟩ := Node.isStrict_of_leaf? ht hn
    have hleaf := Node.Everywhere.of_leaf hchildren hstrict
    exact ih ((hready.settle held).append _) ((hb.settle held).append hleaf) h

/-! ## Parsing -/

theorem Builder.finish_of_isReady {b : Builder} (hb : b.IsReady) (hnames : b.openNames = []) :
    b.finish = .ok ⟨b.roots.reverse⟩ := by
  have hopened : b.opened = [] := List.map_eq_nil_iff.mp hnames
  simp only [Builder.finish, hb.starting, hb.mode, hopened]
  rfl

/-- The tokens of a text, without the start of the document. -/
def strictTokens (s : String) : Tokens := Tokens.read .strict none .start none none s.toList

/-- Passes the tokens of a text to a new tree. -/
def strictBuild (policy : CommentPolicy) (s : String) : Except ParseError (Filter × Builder) :=
  buildFiltered (Builder.filter { mode := .strict } policy none) { mode := .strict }
    (strictTokens s).tokens

/-- The start of a document changes nothing. -/
theorem parse_strict (policy : CommentPolicy) (s : String) :
    parse { mode := .strict, comments := policy } s =
      (strictBuild policy s).bind fun (f, b) =>
        match (strictTokens s).error with
        | some e => .error e
        | none => f.finish.bind fun ts => (b.handleAll ts).bind Builder.finish := by
  have hstart : strictBuild policy s =
      buildFiltered (Builder.filter { mode := .strict } policy none) { mode := .strict }
        (⟨.documentStart, "", .start⟩ :: (strictTokens s).tokens) :=
    (buildFiltered_inside rfl rfl rfl rfl _).symm
  rw [hstart]
  rfl

theorem exists_of_parse_strict {policy : CommentPolicy} {s : String} {d : Document}
    (h : parse { mode := .strict, comments := policy } s = .ok d) :
    (strictTokens s).error = none ∧ ∃ f b, strictBuild policy s = .ok (f, b) := by
  rw [parse_strict] at h
  cases hbuild : strictBuild policy s with
  | error e =>
    rw [hbuild] at h
    cases h
  | ok r =>
    rw [hbuild] at h
    cases herror : (strictTokens s).error with
    | some e => simp [Except.bind, herror] at h
    | none => exact ⟨rfl, r.1, r.2, rfl⟩

theorem parse_strict_of_build {policy : CommentPolicy} {s : String} {b : Builder}
    (herror : (strictTokens s).error = none)
    (hbuild : strictBuild policy s = .ok (b.filter policy none, b)) (hb : b.IsReady)
    (hnames : b.openNames = []) :
    parse { mode := .strict, comments := policy } s = .ok ⟨b.roots.reverse⟩ := by
  rw [parse_strict, hbuild, herror]
  exact Builder.finish_of_isReady hb hnames

/-- Strict parsing gives strict trees. -/
theorem isStrict_of_parse {policy : CommentPolicy} {s : String} {d : Document}
    (h : parse { mode := .strict, comments := policy } s = .ok d) :
    Node.EverywhereIn (Node.IsStrict policy) d.nodes := by
  obtain ⟨herror, f, b, hbuild⟩ := exists_of_parse_strict h
  obtain ⟨ts, hts, halike⟩ : Filtered policy (strictTokens s).tokens := filtered_of_read herror
  have hplain : buildFiltered (Builder.filter { mode := .strict } policy none) { mode := .strict }
      ts = .ok (f, b) := by
    rw [← halike _ _ rfl rfl]
    exact hbuild
  have hempty : Builder.IsStrict policy { mode := .strict } :=
    ⟨List.forall_mem_nil _, List.forall_mem_nil _⟩
  obtain ⟨hstrict, hready, hnames, rfl⟩ := isStrict_of_plain hts ⟨rfl, rfl⟩ hempty hplain
  cases (parse_strict_of_build herror hbuild hready hnames).symm.trans h
  intro n hn
  exact hstrict.roots n (List.mem_reverse.mp hn)

end NaturalTemplate.Markup
