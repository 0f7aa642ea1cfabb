import NaturalTemplate.Markup.Node

/-!
# The elements of trees

In document order an element comes first, then those inside it, then those after it. The elements
of some nodes are therefore those of the first of them, followed by those of the others, and fewer
nodes have fewer elements.
-/
namespace NaturalTemplate.Markup.Node

@[simp]
theorem elements_nil : elements [] = [] := by
  rw [elements]

@[simp]
theorem elements_append (ns ms : List Node) :
    elements (ns ++ ms) = elements ns ++ elements ms := by
  fun_induction elements ns with
  | case1 => rfl
  | case2 tag children endTag rest ih =>
    rw [List.cons_append, elements, ← List.append_assoc, ih, List.cons_append]
  | case3 n rest hleaf ih =>
    rw [List.cons_append, elements.eq_3 _ _ hleaf, ih]

theorem elements_cons (n : Node) (ns : List Node) :
    elements (n :: ns) = elements [n] ++ elements ns :=
  elements_append [n] ns

@[simp]
theorem elements_toNode (e : Element) : elements [e.toNode] = e :: elements e.children := by
  rw [Element.toNode, elements, List.append_nil]

theorem elements_leaf {n : Node} (h : n.element? = none) : elements [n] = [] := by
  cases n with
  | element tag children endTag => cases h
  | _ => simp [elements]

/-- Fewer nodes have fewer elements. -/
theorem elements_sublist {ns ms : List Node} (h : ns.Sublist ms) :
    (elements ns).Sublist (elements ms) := by
  induction h with
  | slnil => exact .refl _
  | cons n _ ih =>
    rw [elements_cons]
    exact ih.trans (List.sublist_append_right _ _)
  | @cons_cons ns ms n _ ih =>
    rw [elements_cons n ns, elements_cons n ms]
    exact ih.append_left _

theorem elements_sublist_of_mem {n : Node} {ns : List Node} (h : n ∈ ns) :
    (elements [n]).Sublist (elements ns) :=
  elements_sublist (List.singleton_sublist.mpr h)

theorem length_elements_le (ns : List Node) : (elements ns).length ≤ sizeAll ns := by
  fun_induction elements ns with
  | case1 => exact Nat.zero_le _
  | case2 tag children endTag rest ih =>
    rw [sizeAll_append] at ih
    simp only [List.length_cons, sizeAll, size]
    omega
  | case3 n rest _ ih =>
    rw [sizeAll]
    omega

theorem size_le_sizeAll {n : Node} {ns : List Node} (h : n ∈ ns) : n.size ≤ sizeAll ns := by
  obtain ⟨front, back, rfl⟩ := List.append_of_mem h
  rw [sizeAll_append, sizeAll]
  omega

end NaturalTemplate.Markup.Node
