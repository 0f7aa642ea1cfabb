import NaturalTemplate.Proofs.Context.Frame

/-!
# Contexts that agree on some names

Two contexts with the same scopes, and roots that bind some names to the same. The other names at
the root do not matter as long as nobody asks for them: what is done to both contexts in the same
way leaves them with the same scopes, and with roots that agree on those names again.
-/
namespace NaturalTemplate

variable {names : Set String} {name : String}

namespace Scope

theorem find?_bind (other : String) (b : Binding) (s : Scope) :
    (s.bind other b).find? name = if name = other then some b else s.find? name :=
  find?_cons (other, b) s

theorem find?_modify (other : String) (f : Binding → Binding) (s : Scope) :
    (s.modify other f).find? name =
      if name = other then (s.find? name).map f else s.find? name := by
  induction s with
  | nil => simp [modify, find?]
  | cons x s ih =>
    obtain ⟨n, b⟩ := x
    rw [modify]
    by_cases hn : n = other
    · subst hn
      simp only [if_true, find?_cons]
      by_cases hname : name = n <;> simp [hname]
    · simp only [hn, if_false, find?_cons, ih]
      by_cases hname : name = n
      · simp [hname, hn]
      · simp [hname]

end Scope

/-- The same scopes, and the same bindings of some names at the root. -/
structure Context.Agree (names : Set String) (c d : Context) : Prop where
  scopes : d.scopes = c.scopes
  root : ∀ name ∈ names, d.root.find? name = c.root.find? name

namespace Context.Agree

variable {c d : Context}

theorem binding?_eq (h : c.Agree names d) (hname : name ∈ names) :
    d.binding? name = c.binding? name := by
  simp only [binding?, h.scopes, List.findSome?_append, List.findSome?_cons, h.root name hname]

theorem value?_eq (h : c.Agree names d) (hname : name ∈ names) : d.value? name = c.value? name := by
  rw [value?, value?, h.binding?_eq hname]

theorem push (h : c.Agree names d) : c.push.Agree names d.push :=
  ⟨congrArg ([] :: ·) h.scopes, h.root⟩

theorem pop (h : c.Agree names d) : c.pop.Agree names d.pop :=
  ⟨congrArg List.tail h.scopes, h.root⟩

theorem bindInnermost (h : c.Agree names d) (name : String) (b : Binding) :
    (c.bindInnermost name b).Agree names (d.bindInnermost name b) := by
  unfold Context.bindInnermost
  rw [h.scopes]
  cases c.scopes with
  | nil =>
    refine ⟨rfl, fun other hother => ?_⟩
    simp only [Scope.find?_bind, h.root other hother]
  | cons s ss => exact ⟨rfl, h.root⟩

theorem modify (h : c.Agree names d) (name : String) (f : Binding → Binding) :
    (c.modify name f).Agree names (d.modify name f) := by
  unfold Context.modify
  rw [h.scopes]
  cases Scope.modifyInnermost? name f c.scopes with
  | some scopes => exact ⟨rfl, h.root⟩
  | none =>
    refine ⟨rfl, fun other hother => ?_⟩
    simp only [Scope.find?_modify, h.root other hother]

theorem note (h : c.Agree names d) (event : Event) : (c.note event).Agree names (d.note event) :=
  ⟨h.scopes, h.root⟩

/-- Asking for a value has to be about a name on which the contexts agree. -/
theorem touch (h : c.Agree names d) (hname : name ∈ names) :
    (c.touch name).Agree names (d.touch name) := by
  unfold Context.touch
  rw [h.binding?_eq hname]
  split
  · exact (h.modify name _).note _
  · exact h

theorem touchAll (h : c.Agree names d) {asked : List String}
    (hasked : ∀ name ∈ asked, name ∈ names) :
    (c.touchAll asked).Agree names (d.touchAll asked) := by
  induction asked generalizing c d with
  | nil => exact h
  | cons name asked ih =>
    obtain ⟨hname, hrest⟩ := List.forall_mem_cons.mp hasked
    exact ih (h.touch hname) hrest

theorem overwrite (h : c.Agree names d) (hname : name ∈ names) (v : Value) :
    (c.overwrite name v).Agree names (d.overwrite name v) :=
  (h.touch hname).modify name _

end Context.Agree
end NaturalTemplate
