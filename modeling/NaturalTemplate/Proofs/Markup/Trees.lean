import NaturalTemplate.Markup.Node.Render

/-!
# Trees up to places and joins of text

Two trees that are written alike can differ in where their nodes come from, in texts that stand side
by side where there could be one, and in empty texts. What holds of every node of a tree holds
everywhere in it.
-/
namespace NaturalTemplate.Markup

def Attribute.unplaced (a : Attribute) : Attribute := { a with location := {} }

def Tag.unplaced (t : Tag) : Tag :=
  { t with attributes := t.attributes.map Attribute.unplaced, location := {} }

namespace Node

mutual

/-- A tree without the places of its nodes. -/
def unplaced : Node → Node
  | element tag children endTag => element tag.unplaced (unplacedAll children) endTag
  | text content _ => text content {}
  | comment content _ => comment content {}
  | cdata content _ => cdata content {}
  | docType content _ => docType content {}
  | instruction content _ => instruction content {}
  | unmatched raw _ => unmatched raw {}

def unplacedAll : List Node → List Node
  | [] => []
  | n :: ns => n.unplaced :: unplacedAll ns

end

def isText : Node → Bool
  | text .. => true
  | _ => false

/-- Puts text in front of nodes, and joins it to a text that they begin with. -/
def joinText (content : String) (l : Location) : List Node → List Node
  | text more _ :: ns => text (content ++ more) l :: ns
  | ns => text content l :: ns

/-- Puts a node in front of others, unless it is an empty text. -/
def join : Node → List Node → List Node
  | text content l, ns => if content = "" then ns else joinText content l ns
  | n, ns => n :: ns

mutual

/-- A tree in which no text is empty and no two texts stand side by side. -/
def joined : Node → Node
  | element tag children endTag => element tag (joinedAll children) endTag
  | n => n

def joinedAll : List Node → List Node
  | [] => []
  | n :: ns => join n.joined (joinedAll ns)

end

theorem renderAll_joinText (content : String) (l : Location) (ns : List Node) :
    renderAll (joinText content l ns) = content ++ renderAll ns := by
  unfold joinText
  split <;> simp [renderAll, render, String.append_assoc]

theorem renderAll_join (n : Node) (ns : List Node) :
    renderAll (join n ns) = n.render ++ renderAll ns := by
  cases n with
  | text content l =>
    simp only [join]
    split
    · next hempty => simp [hempty, render]
    · exact renderAll_joinText content l ns
  | _ => rfl

mutual

theorem render_joined (n : Node) : n.joined.render = n.render := by
  cases n with
  | element tag children endTag =>
    simp only [joined, render, renderAll_joinedAll children]
  | _ => rfl

/-- Joining texts does not change what is written. -/
theorem renderAll_joinedAll (ns : List Node) : renderAll (joinedAll ns) = renderAll ns := by
  cases ns with
  | nil => rfl
  | cons n ns =>
    simp only [joinedAll, renderAll_join, renderAll, render_joined n, renderAll_joinedAll ns]

end

/-- Whether no text is empty and no two texts stand side by side. -/
inductive Joined : List Node → Prop where
  | nil : Joined []
  | text {content : String} (l : Location) {ns : List Node} (hne : content ≠ "")
    (hnext : ∀ n ∈ ns.head?, n.isText = false) (h : Joined ns) : Joined (text content l :: ns)
  | other {n : Node} {ns : List Node} (hn : n.isText = false) (h : Joined ns) : Joined (n :: ns)

theorem Joined.of_cons {n : Node} {ns : List Node} (h : Joined (n :: ns)) :
    (n.isText = true → n.render ≠ "" ∧ ∀ m ∈ ns.head?, m.isText = false) ∧ Joined ns := by
  cases h with
  | text l hne hnext h => exact ⟨fun _ => ⟨hne, hnext⟩, h⟩
  | other hn h => exact ⟨fun htext => absurd htext (by simp [hn]), h⟩

theorem Joined.joinText {ns : List Node} (h : Joined ns) {content : String} (hne : content ≠ "")
    (l : Location) : Joined (joinText content l ns) := by
  cases h with
  | nil => exact .text l hne (by simp) .nil
  | text l' _ hnext h => exact .text l (by simp [hne]) hnext h
  | @other n ns hn h =>
    cases n with
    | text => simp [isText] at hn
    | _ => exact .text l hne (by simp [isText]) (.other rfl h)

theorem Joined.join {ns : List Node} (h : Joined ns) (n : Node) : Joined (join n ns) := by
  cases n with
  | text content l =>
    simp only [Node.join]
    split
    · exact h
    · next hne => exact h.joinText hne l
  | _ => exact .other rfl h

theorem joined_joinedAll (ns : List Node) : Joined (joinedAll ns) := by
  induction ns with
  | nil => exact .nil
  | cons n ns ih => exact ih.join _

/-! ## Everywhere -/

def children : Node → List Node
  | element _ children _ => children
  | _ => []

/-- What holds of a node and of all nodes in it. -/
inductive Everywhere (p : Node → Prop) : Node → Prop where
  | intro {n : Node} (here : p n) (inside : ∀ m ∈ n.children, Everywhere p m) : Everywhere p n

def EverywhereIn (p : Node → Prop) (ns : List Node) : Prop := ∀ n ∈ ns, Everywhere p n

namespace Everywhere

variable {p q : Node → Prop} {n : Node}

theorem here (h : Everywhere p n) : p n := by
  cases h with
  | intro here _ => exact here

theorem inside (h : Everywhere p n) : EverywhereIn p n.children := by
  cases h with
  | intro _ inside => exact inside

theorem mono (h : Everywhere p n) (hpq : ∀ m, p m → q m) : Everywhere q n := by
  induction h with
  | intro here _ ih => exact .intro (hpq _ here) ih

theorem and (hp : Everywhere p n) (hq : Everywhere q n) : Everywhere (fun m => p m ∧ q m) n := by
  induction hp with
  | intro here _ ih => exact .intro ⟨here, hq.here⟩ fun m hm => ih m hm (hq.inside m hm)

theorem of_leaf (hn : n.children = []) (h : p n) : Everywhere p n :=
  .intro h (by simp [hn])

end Everywhere

mutual

/-- Asks a question about a node and all nodes in it. -/
def checkEverywhere (p : Node → Bool) : Node → Bool
  | element tag children endTag => p (element tag children endTag) && checkEverywhereIn p children
  | n => p n

def checkEverywhereIn (p : Node → Bool) : List Node → Bool
  | [] => true
  | n :: ns => checkEverywhere p n && checkEverywhereIn p ns

end

section
variable (p : Node → Prop) [DecidablePred p]

mutual

theorem checkEverywhere_iff (n : Node) :
    checkEverywhere (fun m => decide (p m)) n = true ↔ Everywhere p n := by
  cases n with
  | element tag children endTag =>
    rw [checkEverywhere, Bool.and_eq_true, checkEverywhereIn_iff children, decide_eq_true_iff]
    exact ⟨fun h => .intro h.1 h.2, fun h => ⟨h.here, h.inside⟩⟩
  | _ =>
    simp only [checkEverywhere, decide_eq_true_iff]
    exact ⟨.of_leaf rfl, Everywhere.here⟩

theorem checkEverywhereIn_iff (ns : List Node) :
    checkEverywhereIn (fun m => decide (p m)) ns = true ↔ EverywhereIn p ns := by
  cases ns with
  | nil => simp [checkEverywhereIn, EverywhereIn]
  | cons n ns =>
    rw [checkEverywhereIn, Bool.and_eq_true, checkEverywhere_iff n, checkEverywhereIn_iff ns]
    exact List.forall_mem_cons.symm

end

instance (ns : List Node) : Decidable (EverywhereIn p ns) :=
  decidable_of_iff _ (checkEverywhereIn_iff p ns)

end

end Node

/-- What a test finds of a result is found of the value that it is. -/
theorem exists_of_any_toOption {ε α : Type} {x : Except ε α} {p : α → Bool}
    (h : x.toOption.any p = true) : ∃ a, x = .ok a ∧ p a = true := by
  cases x with
  | error e => exact absurd h Bool.false_ne_true
  | ok a => exact ⟨a, rfl, h⟩

end NaturalTemplate.Markup
