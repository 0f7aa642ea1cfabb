import NaturalTemplate.Proofs.Processing.InStep
import NaturalTemplate.Proofs.Expression.Evaluation

/-!
# A scope that binds nothing

Whether there is an empty scope somewhere among the scopes of a context makes no difference. No
expression can tell, and it stays empty whatever is done in the scopes inside of it.
-/
namespace NaturalTemplate

/-- The same scopes, but for one that is empty, with so many scopes inside of it. -/
inductive Scope.Padded : ℕ → List Scope → List Scope → Prop where
  | here (scopes : List Scope) : Padded 0 scopes ([] :: scopes)
  | inside (s : Scope) {n : ℕ} {scopes padded : List Scope} (h : Padded n scopes padded) :
    Padded (n + 1) (s :: scopes) (s :: padded)

namespace Scope.Padded

variable {n : ℕ} {scopes padded : List Scope}

theorem findSome?_eq (h : Padded n scopes padded) (name : String) :
    padded.findSome? (find? name) = scopes.findSome? (find? name) := by
  induction h with
  | here => rfl
  | inside s _ ih => rw [List.findSome?_cons, List.findSome?_cons, ih]

/-- The innermost binding of a name is in the same scope. -/
theorem modifyInnermost? (h : Padded n scopes padded) (name : String) (f : Binding → Binding) :
    Scope.modifyInnermost? name f scopes = none ∧ Scope.modifyInnermost? name f padded = none ∨
      ∃ scopes' padded', Scope.modifyInnermost? name f scopes = some scopes' ∧
        Scope.modifyInnermost? name f padded = some padded' ∧ Padded n scopes' padded' := by
  induction h with
  | here scopes =>
    have hempty : Scope.modifyInnermost? name f ([] :: scopes) =
        (Scope.modifyInnermost? name f scopes).map ([] :: ·) := rfl
    rw [hempty]
    cases Scope.modifyInnermost? name f scopes with
    | none => exact .inl ⟨rfl, rfl⟩
    | some scopes' => exact .inr ⟨scopes', _, rfl, rfl, .here scopes'⟩
  | @inside s n scopes padded h ih =>
    rw [Scope.modifyInnermost?, Scope.modifyInnermost?]
    split
    · exact .inr ⟨_, _, rfl, rfl, .inside _ h⟩
    · obtain ⟨hnone, hnone'⟩ | ⟨scopes', padded', hsome, hsome', h'⟩ := ih
      · rw [hnone, hnone']
        exact .inl ⟨rfl, rfl⟩
      · rw [hsome, hsome']
        exact .inr ⟨_, _, rfl, rfl, .inside s h'⟩

end Scope.Padded

namespace Context

/-- The same context, but for an empty scope, with so many scopes inside of it. -/
structure Padded (n : ℕ) (c d : Context) : Prop where
  root : d.root = c.root
  scopes : Scope.Padded n c.scopes d.scopes
  journal : d.journal = c.journal

theorem padded_push (c : Context) : c.Padded 0 c.push := ⟨rfl, .here c.scopes, rfl⟩

namespace Padded

variable {n : ℕ} {c d : Context}

theorem binding?_eq (h : c.Padded n d) (name : String) : d.binding? name = c.binding? name := by
  simp only [binding?, List.findSome?_append, h.scopes.findSome?_eq, h.root]

theorem value?_eq (h : c.Padded n d) (name : String) : d.value? name = c.value? name := by
  rw [value?, value?, h.binding?_eq]

theorem sameReadable (h : c.Padded n d) : c.SameReadable d := fun name _ => h.value?_eq name

theorem modify (h : c.Padded n d) (name : String) (f : Binding → Binding) :
    (c.modify name f).Padded n (d.modify name f) := by
  unfold Context.modify
  obtain ⟨hnone, hnone'⟩ | ⟨scopes, padded, hsome, hsome', hscopes⟩ :=
    h.scopes.modifyInnermost? name f
  · rw [hnone, hnone']
    exact ⟨congrArg (Scope.modify name f) h.root, h.scopes, h.journal⟩
  · rw [hsome, hsome']
    exact ⟨h.root, hscopes, h.journal⟩

theorem touch (h : c.Padded n d) (name : String) : (c.touch name).Padded n (d.touch name) := by
  unfold Context.touch
  rw [h.binding?_eq]
  split
  · next producer _ =>
    have hmodified := h.modify name fun _ => .value producer.get
    exact ⟨hmodified.root, hmodified.scopes, congrArg (Event.produced name :: ·) hmodified.journal⟩
  · exact h

theorem touchAll (h : c.Padded n d) (names : List String) :
    (c.touchAll names).Padded n (d.touchAll names) := by
  induction names generalizing c d with
  | nil => exact h
  | cons name names ih => exact ih (h.touch name)

theorem evaluate (h : c.Padded n d) (text : String) :
    (Evaluator.standard.evaluate text c).2.Padded n (Evaluator.standard.evaluate text d).2 := by
  simp only [Evaluator.evaluate, Evaluator.reads_congr h.sameReadable]
  exact h.touchAll _

/-- A name can be bound alike where the innermost scope is another one than the empty one. -/
theorem setLocal (h : c.Padded (n + 1) d) (name : String) (v : Value) :
    (c.setLocal name v).Padded (n + 1) (d.setLocal name v) := by
  obtain ⟨root, scopes, journal⟩ := c
  obtain ⟨root', scopes', journal'⟩ := d
  obtain ⟨rfl, hscopes, rfl⟩ := h
  cases hscopes with
  | inside s h => exact ⟨rfl, .inside _ h, rfl⟩

theorem push (h : c.Padded n d) : c.push.Padded (n + 1) d.push :=
  ⟨h.root, .inside [] h.scopes, h.journal⟩

theorem pop (h : c.Padded (n + 1) d) : c.pop.Padded n d.pop := by
  obtain ⟨root, scopes, journal⟩ := c
  obtain ⟨root', scopes', journal'⟩ := d
  obtain ⟨rfl, hscopes, rfl⟩ := h
  cases hscopes with
  | inside s h => exact ⟨rfl, h, rfl⟩

/-- Where the empty scope is the innermost one, it ends. -/
theorem pop_eq (h : c.Padded 0 d) : d.pop = c := by
  obtain ⟨root, scopes, journal⟩ := c
  obtain ⟨root', scopes', journal'⟩ := d
  obtain ⟨hroot, hscopes, hjournal⟩ := h
  dsimp only at hroot hscopes hjournal
  cases hscopes with
  | here =>
    subst hroot hjournal
    rfl

end Padded

/-- Standard expressions cannot tell whether there is an empty scope around. -/
theorem alikeReads_padded (n : ℕ) : Standard.AlikeReads .standard (Padded n) where
  value_eq h text := Evaluator.value_congr h.sameReadable text
  evaluate h text := h.evaluate text
  reserved h _ _ := h.value?_eq _
  touch h _ _ := h.touch _

theorem alikeBindings_padded (n : ℕ) :
    Standard.AlikeBindings .standard (Padded (n + 1)) where
  toAlikeReads := alikeReads_padded (n + 1)
  overwrite h _ _ _ := (h.touch _).modify _ _
  setLocal h name v := h.setLocal name v

theorem alikeScopes_padded (n : ℕ) : Standard.AlikeScopes (Padded n) (Padded (n + 1)) where
  push h := h.push
  pop h := h.pop

end Context
end NaturalTemplate
