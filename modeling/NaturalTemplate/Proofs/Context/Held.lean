import NaturalTemplate.Proofs.Context.Frame

/-!
# What the scopes hold

A name can be bound in several scopes, and each of these holds a value of its own for it. What is
done in the innermost scope leaves what the others hold; what is put in place of the value of a name
goes to the innermost of the scopes that hold one.
-/
namespace NaturalTemplate

namespace Scope

/-- The value that a scope holds under a name. -/
def held (name : String) (s : Scope) : Option Value := (s.find? name).map Binding.get

end Scope

/-- A step from the innermost of some values to another one, where the others stay. -/
inductive Innermost (R : Value → Value → Prop) : List (Option Value) → List (Option Value) → Prop
    where
  | here {v w : Value} {rest : List (Option Value)} (h : R v w) :
    Innermost R (some v :: rest) (some w :: rest)
  | farther {rest rest' : List (Option Value)} (h : Innermost R rest rest') :
    Innermost R (none :: rest) (none :: rest')

namespace Innermost

variable {R S : Value → Value → Prop} {held held' : List (Option Value)}

theorem mono (h : Innermost R held held') (hRS : ∀ v w, R v w → S v w) :
    Innermost S held held' := by
  induction h with
  | here h => exact .here (hRS _ _ h)
  | farther _ ih => exact .farther ih

/-- The innermost value is the one that is there to begin with. -/
theorem findSome? (h : Innermost R held held') :
    ∃ v w, held.findSome? id = some v ∧ held'.findSome? id = some w ∧ R v w := by
  induction h with
  | here h => exact ⟨_, _, rfl, rfl, h⟩
  | farther _ ih => exact ih

end Innermost

namespace Context

/-- The values that the scopes hold under a name, innermost first, and then the root. -/
def held (name : String) (c : Context) : List (Option Value) :=
  (c.scopes ++ [c.root]).map (Scope.held name)

variable {name : String} {c d : Context}

theorem value?_eq_held (name : String) (c : Context) :
    c.value? name = (c.held name).findSome? id := by
  rw [value?, binding?, held]
  generalize c.scopes ++ [c.root] = scopes
  induction scopes with
  | nil => rfl
  | cons s ss ih =>
    rw [List.map_cons, List.findSome?_cons, List.findSome?_cons, Scope.held]
    cases s.find? name with
    | none => exact ih
    | some b => rfl

theorem length_held (name : String) (c : Context) : (c.held name).length = c.depth + 1 := by
  simp [held, depth]

theorem held_pop {value : Option Value} {rest : List (Option Value)}
    (h : c.held name = value :: rest) (hrest : rest ≠ []) : c.pop.held name = rest := by
  obtain ⟨root, scopes, journal⟩ := c
  cases scopes with
  | nil =>
    simp only [held, List.nil_append, List.map_cons, List.map_nil, List.cons.injEq] at h
    exact absurd h.2.symm hrest
  | cons s ss =>
    simp only [held, List.cons_append, List.map_cons, List.cons.injEq] at h
    exact h.2

theorem Frame.held {written : Set String} (h : c.Frame written d) (hname : name ∉ written) :
    d.held name = c.held name := by
  have hscopes : List.Forall₂ (Scope.Frame written) (c.scopes ++ [c.root]) (d.scopes ++ [d.root]) :=
    List.rel_append h.scopes (.cons h.root .nil)
  rw [Context.held, Context.held]
  generalize c.scopes ++ [c.root] = ss at hscopes
  generalize d.scopes ++ [d.root] = ts at hscopes
  induction hscopes with
  | nil => rfl
  | cons hst _ ih => rw [List.map_cons, List.map_cons, ih, Scope.held, Scope.held, hst.find? hname]

theorem held_touch (name other : String) (c : Context) :
    (c.touch other).held name = c.held name := by
  have hframe : c.Frame ∅ (c.touch other) := frame_touch c other
  exact hframe.held (Set.notMem_empty _)

theorem held_evaluate (name : String) (ev : Evaluator) (text : String) (c : Context) :
    (ev.evaluate text c).2.held name = c.held name := by
  have hframe : c.Frame ∅ (ev.evaluate text c).2 := frame_evaluate ev text c
  exact hframe.held (Set.notMem_empty _)

theorem held_setLocal {other : String} (hne : name ≠ other) (v : Value) (c : Context) :
    (c.setLocal other v).held name = c.held name := by
  have hbind : ∀ s : Scope, (s.bind other (.value v)).held name = s.held name := by
    intro s
    rw [Scope.held, Scope.bind, Scope.find?_cons, if_neg hne, Scope.held]
  obtain ⟨root, scopes, journal⟩ := c
  cases scopes <;> simp [held, setLocal, bindInnermost, hbind]

/-- The innermost scope, if there is one, holds what is bound there. -/
theorem held_setLocal_self {value : Option Value} {rest : List (Option Value)}
    (h : c.held name = value :: rest) (v : Value) :
    (c.setLocal name v).held name = some v :: rest := by
  have hbind : ∀ s : Scope, (s.bind name (.value v)).held name = some v := by
    intro s
    rw [Scope.held, Scope.bind, Scope.find?_cons, if_pos rfl]
    rfl
  obtain ⟨root, scopes, journal⟩ := c
  cases scopes with
  | nil =>
    simp only [held, List.nil_append, List.map_cons, List.map_nil, List.cons.injEq] at h
    simp [held, setLocal, bindInnermost, hbind, h.2]
  | cons s ss =>
    simp only [held, List.cons_append, List.map_cons, List.cons.injEq] at h
    simp [held, setLocal, bindInnermost, hbind, ← h.2]

theorem held_modify {s : Scope} {v : Value} (hs : (s.find? name).isSome = true) :
    (s.modify name fun _ => .value v).held name = some v := by
  induction s with
  | nil => cases hs
  | cons x s ih =>
    obtain ⟨n, b⟩ := x
    rw [Scope.modify]
    by_cases hn : n = name
    · rw [if_pos hn, Scope.held, Scope.find?_cons, if_pos hn.symm]
      rfl
    · rw [if_neg hn, Scope.held, Scope.find?_cons, if_neg (Ne.symm hn)]
      rw [Scope.find?_cons, if_neg (Ne.symm hn)] at hs
      exact ih hs

/-- A changed binding is the innermost one. -/
theorem innermost_modify {v : Value} (h : c.value? name = some v) (w : Value) :
    Innermost (fun v' w' => v' = v ∧ w' = w) (c.held name)
      ((c.modify name fun _ => .value w).held name) := by
  obtain ⟨root, scopes, journal⟩ := c
  induction scopes with
  | nil =>
    simp only [value?, binding?, List.nil_append, List.findSome?_cons, List.findSome?_nil] at h
    cases hroot : root.find? name with
    | none => simp [hroot] at h
    | some b =>
      have hheld : root.held name = some v := by simpa [Scope.held, hroot] using h
      have hmodify : (root.modify name fun _ => .value w).held name = some w :=
        held_modify (by rw [hroot]; rfl)
      simp only [held, modify, Scope.modifyInnermost?, List.nil_append, List.map_cons, hheld,
        hmodify]
      exact .here ⟨rfl, rfl⟩
  | cons s ss ih =>
    simp only [value?, binding?, List.cons_append, List.findSome?_cons] at h
    cases hs : s.find? name with
    | some b =>
      have hheld : s.held name = some v := by simpa [Scope.held, hs] using h
      have hmodify : (s.modify name fun _ => .value w).held name = some w :=
        held_modify (by rw [hs]; rfl)
      simp only [held, modify, Scope.modifyInnermost?, hs, Option.isSome_some, if_true,
        List.cons_append, List.map_cons, hheld, hmodify]
      exact .here ⟨rfl, rfl⟩
    | none =>
      rw [hs] at h
      have hheld : s.held name = none := by rw [Scope.held, hs]; rfl
      have hrest := ih h
      simp only [held, modify, Scope.modifyInnermost?, hs, Option.isSome_none, Bool.false_eq_true,
        if_false] at hrest ⊢
      cases hinner : Scope.modifyInnermost? name (fun _ => .value w) ss with
      | none =>
        rw [hinner] at hrest
        simp only [Option.map_none, List.cons_append, List.map_cons, hheld]
        exact .farther hrest
      | some ts =>
        rw [hinner] at hrest
        simp only [Option.map_some, List.cons_append, List.map_cons, hheld]
        exact .farther hrest

theorem innermost_same {v : Value} (h : c.value? name = some v) :
    Innermost (fun v' w' => v' = v ∧ w' = v) (c.held name) (c.held name) := by
  rw [value?_eq_held] at h
  generalize c.held name = held at h
  induction held with
  | nil => cases h
  | cons value held ih =>
    cases value with
    | some v' =>
      cases h
      exact .here ⟨rfl, rfl⟩
    | none => exact .farther (ih h)

/-- What is put in place of a value goes to the innermost scope that holds one. -/
theorem innermost_overwrite {v : Value} (h : c.value? name = some v) (w : Value) :
    Innermost (fun v' w' => v' = v ∧ w' = w) (c.held name) ((c.overwrite name w).held name) := by
  rw [← held_touch name name c, overwrite]
  refine innermost_modify ?_ w
  rw [value?_eq_held, held_touch, ← value?_eq_held, h]

end Context
end NaturalTemplate
