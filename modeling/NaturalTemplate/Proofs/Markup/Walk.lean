import NaturalTemplate.Markup.Node.Walk
import NaturalTemplate.Proofs.Markup.Elements
import NaturalTemplate.Proofs.Markup.Preorder
import NaturalTemplate.Proofs.Markup.Trees

/-!
# What a walk gives

A walk gives the elements of a document in document order, each of them once, and nothing ever
after. An element stands at a place in its document, given by the indices on the way to it; one
place comes before another in document order when it comes before it in the order of dictionaries.
-/
namespace NaturalTemplate.Markup

namespace ElementWalk

/-- The nodes that a walk has still to come to, in their order. -/
def left (w : ElementWalk) : List Node := w.stack.toList.reverse

theorem left_ofNodes (ns : List Node) : (ofNodes ns).left = ns := by
  simp [left, ofNodes]

theorem left_eq_nil {w : ElementWalk} (h : w.stack.back? = none) : w.left = [] := by
  simp [left, Array.back?_eq_none_iff.mp h]

theorem left_eq_cons {w : ElementWalk} {n : Node} (h : w.stack.back? = some n) :
    w.left = n :: left ⟨w.stack.pop⟩ := by
  obtain ⟨front, hstack⟩ := List.getLast?_eq_some_iff.mp ((Array.getLast?_toList _).trans h)
  simp [left, hstack]

/-- Asking takes the first of the elements that are left. -/
theorem elements_next (w : ElementWalk) :
    w.next.1 = (Node.elements w.left).head? ∧
      Node.elements w.next.2.left = (Node.elements w.left).tail := by
  fun_induction next w with
  | case1 w hback => simp [left_eq_nil hback]
  | case2 w n hback e he =>
    have hleft : left ⟨w.stack.pop ++ e.children.reverse⟩ = e.children ++ left ⟨w.stack.pop⟩ := by
      simp [left]
    obtain rfl := Node.eq_toNode_of_element? he
    rw [left_eq_cons hback, hleft, Node.elements_cons, Node.elements_toNode]
    simp
  | case3 w n hback hn ih =>
    rwa [left_eq_cons hback, Node.elements_cons, Node.elements_leaf hn, List.nil_append]

theorem answer_eq (w : ElementWalk) (n : ℕ) : w.answer n = (Node.elements w.left)[n]? := by
  induction n generalizing w with
  | zero => rw [answer, (elements_next w).1, List.head?_eq_getElem?]
  | succ n ih => rw [answer, ih, (elements_next w).2, List.getElem?_tail]

end ElementWalk

namespace Node

/-- The elements of some nodes are those among the nodes and the nodes in them. -/
theorem elements_eq_filterMap (ns : List Node) :
    elements ns = (preorderAll ns).filterMap element? := by
  fun_induction elements ns with
  | case1 => rfl
  | case2 tag children endTag rest ih =>
    rw [ih, preorderAll_append, preorderAll, preorder, List.cons_append,
      List.filterMap_cons_some (by rfl)]
  | case3 n rest hleaf ih =>
    have hn : n.element? = none := by
      cases n with
      | element tag children endTag => exact (hleaf tag children endTag rfl).elim
      | _ => rfl
    rw [ih, preorderAll, preorder_leaf hn, List.singleton_append, List.filterMap_cons_none hn]

/-! ## Places -/

/-- The node at a place below another: the indices say which child to go to, from the outermost
on. -/
def at? : List ℕ → Node → Option Node
  | [], n => some n
  | i :: place, n => n.children[i]?.bind (at? place)

mutual

/-- The places of the elements in a tree, in document order. -/
def places : Node → List (List ℕ)
  | element _ children _ => [] :: placesFrom 0 children
  | _ => []

/-- The places of the elements in some siblings that stand from an index on. -/
def placesFrom (i : ℕ) : List Node → List (List ℕ)
  | [] => []
  | n :: ns => n.places.map (i :: ·) ++ placesFrom (i + 1) ns

end

/-- The element at a place in some nodes. -/
def elementIn? (ns : List Node) : List ℕ → Option Element
  | [] => none
  | i :: place => ns[i]?.bind fun n => (n.at? place).bind element?

theorem mem_placesFrom {i j : ℕ} {place : List ℕ} {ns : List Node} :
    j :: place ∈ placesFrom i ns ↔ i ≤ j ∧ ∃ n, ns[j - i]? = some n ∧ place ∈ n.places := by
  induction ns generalizing i with
  | nil => simp [placesFrom]
  | cons n ns ih =>
    rw [placesFrom, List.mem_append, ih, List.mem_map]
    rcases Nat.lt_trichotomy i j with hlt | rfl | hgt
    · have hstep : j - i = j - (i + 1) + 1 := by omega
      simp [hstep, hlt, hlt.le, hlt.ne]
    · simp
    · simp [hgt.ne', Nat.not_le.mpr hgt, Nat.not_le.mpr (hgt.trans (Nat.lt_succ_self i))]

theorem nil_notMem_placesFrom (i : ℕ) (ns : List Node) : [] ∉ placesFrom i ns := by
  induction ns generalizing i with
  | nil => simp [placesFrom]
  | cons n ns ih => simp [placesFrom, ih]

theorem mem_places {place : List ℕ} {n : Node} :
    place ∈ n.places ↔ ((n.at? place).bind element?).isSome := by
  induction place generalizing n with
  | nil => cases n <;> simp [places, at?, element?]
  | cons i place ih =>
    have hchildren : i :: place ∈ n.places ↔ i :: place ∈ placesFrom 0 n.children := by
      cases n <;> simp [places, children, placesFrom]
    rw [hchildren, mem_placesFrom, at?]
    cases n.children[i]? <;> simp [ih]

theorem mem_placesFrom_zero {place : List ℕ} {ns : List Node} :
    place ∈ placesFrom 0 ns ↔ (elementIn? ns place).isSome := by
  cases place with
  | nil => simp [nil_notMem_placesFrom, elementIn?]
  | cons i place =>
    rw [mem_placesFrom, elementIn?]
    cases ns[i]? <;> simp [mem_places]

mutual

theorem places_pairwise (n : Node) : n.places.Pairwise (· < ·) := by
  cases n with
  | element tag children endTag =>
    rw [places, List.pairwise_cons]
    refine ⟨fun place hplace => ?_, placesFrom_pairwise 0 children⟩
    cases place with
    | nil => exact absurd hplace (nil_notMem_placesFrom 0 children)
    | cons i place => exact .nil
  | _ => simp [places]

/-- Places are listed in document order. -/
theorem placesFrom_pairwise (i : ℕ) (ns : List Node) :
    (placesFrom i ns).Pairwise (· < ·) := by
  cases ns with
  | nil => exact .nil
  | cons n ns =>
    rw [placesFrom, List.pairwise_append, List.pairwise_map]
    refine ⟨(places_pairwise n).imp fun h => .cons h, placesFrom_pairwise (i + 1) ns, ?_⟩
    -- The places here begin with an index that is less than those of the siblings behind.
    intro place hplace later hlater
    obtain ⟨place, -, rfl⟩ := List.mem_map.mp hplace
    cases later with
    | nil => exact absurd hlater (nil_notMem_placesFrom (i + 1) ns)
    | cons j later => exact .rel (mem_placesFrom.mp hlater).1

end

mutual

theorem elements_places (n : Node) :
    (elements [n]).map some = n.places.map fun place => (n.at? place).bind element? := by
  cases n with
  | element tag children endTag =>
    have hinside : (placesFrom 0 children).map (elementIn? children) =
        (placesFrom 0 children).map fun place =>
          ((element tag children endTag).at? place).bind element? := by
      refine List.map_congr_left fun place hplace => ?_
      cases place with
      | nil => exact absurd hplace (nil_notMem_placesFrom 0 children)
      | cons i place => exact (Option.bind_assoc ..).symm
    rw [places, elements, List.append_nil, List.map_cons, List.map_cons, ← hinside]
    exact congrArg _ (elements_placesFrom [] children)
  | _ => simp [places, elements]

/-- The elements of some nodes are those at their places. -/
theorem elements_placesFrom (ms ns : List Node) :
    (elements ns).map some = (placesFrom ms.length ns).map (elementIn? (ms ++ ns)) := by
  cases ns with
  | nil => simp [placesFrom]
  | cons n ns =>
    have hhere : (ms ++ n :: ns)[ms.length]? = some n := by simp
    -- The siblings behind are looked at with this one among those before them.
    have hlater := elements_placesFrom (ms ++ [n]) ns
    rw [List.length_append, List.length_singleton, List.append_assoc, List.singleton_append]
      at hlater
    rw [elements_cons, List.map_append, hlater, elements_places n, placesFrom, List.map_append,
      List.map_map]
    simp only [Function.comp_def, elementIn?, hhere, Option.bind_some]

end

end Node

/-- The element at a place in a document. -/
def Document.elementAt? (d : Document) (place : List ℕ) : Option Element :=
  Node.elementIn? d.nodes place

/-- A walk gives the elements that a recursion would meet, which takes an element before the nodes
in it and these before those after it, and nothing more behind the last of them. It gives each
element once, in document order. -/
theorem Document.walk_answer (d : Document) :
    (∀ n, d.walk.answer n = d.elements[n]?) ∧
      d.elements = (Node.preorderAll d.nodes).filterMap Node.element? ∧
      ∃ places : List (List ℕ),
        places.Pairwise (· < ·) ∧ (∀ place, place ∈ places ↔ (d.elementAt? place).isSome) ∧
        d.elements.map some = places.map d.elementAt? := by
  refine ⟨fun n => ?_, Node.elements_eq_filterMap d.nodes, Node.placesFrom 0 d.nodes,
    Node.placesFrom_pairwise 0 d.nodes, fun place => Node.mem_placesFrom_zero, ?_⟩
  · rw [walk, ElementWalk.answer_eq, ElementWalk.left_ofNodes, elements]
  · exact Node.elements_placesFrom [] d.nodes

end NaturalTemplate.Markup
