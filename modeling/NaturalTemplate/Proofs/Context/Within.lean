import NaturalTemplate.Proofs.Context.Frame

/-!
# Within the scopes of a context

What is done for an element from some point on is done in the scopes that there are at that point:
the innermost of them may have got more bindings, and there may be more scopes inside it. So a name
stands for what it stood for at that point, unless one of the newer bindings shadows it.
-/
namespace NaturalTemplate

namespace Scope

variable {written : Set String} {newer ss ts us : List Scope}

/-- Scopes that others have grown to: the innermost of these may have got more bindings, there may
be more scopes inside it, and only some names may have got another value. The newer bindings are
given scope by scope, innermost first. -/
inductive Grown (written : Set String) : List Scope → List Scope → List Scope → Prop where
  | here (new : Scope) {s t : Scope} {ss ts : List Scope} (h : s.Frame written t)
    (hs : List.Forall₂ (Frame written) ss ts) : Grown written [new] (s :: ss) ((new ++ t) :: ts)
  | inside (s : Scope) {newer ss ts : List Scope} (h : Grown written newer ss ts) :
    Grown written (s :: newer) ss (s :: ts)

/-- What is kept of a scope is kept of its bindings one after the other. -/
theorem Frame.exists_append {new t u : Scope} (h : (new ++ t).Frame written u) :
    ∃ new' t', u = new' ++ t' ∧ new.Frame written new' ∧ t.Frame written t' := by
  induction new generalizing u with
  | nil => exact ⟨[], u, rfl, .nil, h⟩
  | cons x new ih =>
    obtain ⟨y, v, hxy, hv, rfl⟩ := List.forall₂_cons_left_iff.mp h
    obtain ⟨new', t', rfl, hnew, ht⟩ := ih hv
    exact ⟨y :: new', t', rfl, .cons hxy hnew, ht⟩

/-- A value that is known is kept. -/
theorem Frame.eq_of_values {values : List (String × Value)} {u : Scope}
    (h : Scope.Frame ∅ (values.map fun x => (x.1, .value x.2)) u) :
    u = values.map fun x => (x.1, .value x.2) := by
  induction values generalizing u with
  | nil => exact List.forall₂_nil_left_iff.mp h
  | cons x values ih =>
    obtain ⟨⟨name, b⟩, v, ⟨rfl, hkept⟩, hv, rfl⟩ := List.forall₂_cons_left_iff.mp h
    rw [ih hv, List.map_cons]
    cases hkept.resolve_left (Set.notMem_empty _)
    rfl

theorem find?_append (name : String) (new s : Scope) :
    find? name (new ++ s) = (find? name new).or (find? name s) := by
  induction new with
  | nil => rfl
  | cons x new ih =>
    rw [List.cons_append, find?_cons, find?_cons, ih]
    split <;> rfl

namespace Grown

/-- Scopes that keep their frame are grown as they were. -/
theorem frames (h : Grown written newer ss ts) (hts : List.Forall₂ (Frame written) ts us) :
    ∃ newer', List.Forall₂ (Frame written) newer newer' ∧ Grown written newer' ss us := by
  induction h generalizing us with
  | here new h hs =>
    obtain ⟨u, us, hu, hus, rfl⟩ := List.forall₂_cons_left_iff.mp hts
    obtain ⟨new', t', rfl, hnew, ht⟩ := hu.exists_append
    exact ⟨[new'], .cons hnew .nil, .here new' (h.trans ht) (frames_trans hs hus)⟩
  | inside s _ ih =>
    obtain ⟨u, us, hu, hus, rfl⟩ := List.forall₂_cons_left_iff.mp hts
    obtain ⟨newer', hnewer, h⟩ := ih hus
    exact ⟨u :: newer', .cons hu hnewer, .inside u h⟩

/-- A name stands for the innermost of the newer bindings, or else for what it stood for. -/
theorem findSome? (h : Grown written newer ss ts) {name : String} (hname : name ∉ written)
    {s t : Scope} (hroot : s.Frame written t) :
    ((ts ++ [t]).findSome? (find? name)).map Binding.get =
      ((newer.findSome? (find? name)).or ((ss ++ [s]).findSome? (find? name))).map
        Binding.get := by
  induction h with
  | @here new s' t' ss ts h hs =>
    have hrest : List.Forall₂ (Frame written) (s' :: (ss ++ [s])) (t' :: (ts ++ [t])) :=
      .cons h (List.rel_append hs (.cons hroot .nil))
    have hfound := findSome?_of_frames hrest hname
    simp only [List.cons_append, List.findSome?_cons, List.findSome?_nil, find?_append] at hfound ⊢
    cases find? name new with
    | some b => rfl
    | none => simpa using hfound
  | inside s' _ ih =>
    simp only [List.cons_append, List.findSome?_cons]
    cases find? name s' with
    | some b => rfl
    | none => exact ih

end Grown
end Scope

namespace Context

variable {written : Set String} {newer : List Scope} {c d e : Context} {name : String}

/-- A context in the scopes of another one, with newer bindings, scope by scope and innermost first,
where only some names may have got another value. -/
structure Within (written : Set String) (newer : List Scope) (c d : Context) : Prop where
  root : c.root.Frame written d.root
  scopes : Scope.Grown written newer c.scopes d.scopes

theorem within_self (h : 0 < c.depth) : c.Within written [[]] c := by
  refine ⟨.refl _, ?_⟩
  obtain ⟨root, scopes, journal⟩ := c
  cases scopes with
  | nil => exact absurd h (Nat.lt_irrefl 0)
  | cons s ss => exact .here [] (.refl s) (List.forall₂_same.mpr fun s _ => .refl s)

/-- A name stands for what it was bound to last. -/
theorem value?_bindInnermost_self (name : String) (b : Binding) (c : Context) :
    (c.bindInnermost name b).value? name = some b.get := by
  have hfind (s : Scope) : (s.bind name b).find? name = some b := by
    rw [Scope.bind, Scope.find?_cons, if_pos rfl]
  obtain ⟨root, scopes, journal⟩ := c
  cases scopes <;> simp [value?, binding?, bindInnermost, hfind]

namespace Within

theorem frame (h : c.Within written newer d) (hframe : d.Frame written e) :
    ∃ newer', List.Forall₂ (Scope.Frame written) newer newer' ∧ c.Within written newer' e := by
  obtain ⟨newer', hnewer, hscopes⟩ := h.scopes.frames hframe.scopes
  exact ⟨newer', hnewer, h.root.trans hframe.root, hscopes⟩

theorem push (h : c.Within written newer d) : c.Within written ([] :: newer) d.push :=
  ⟨h.root, .inside [] h.scopes⟩

/-- A name that is bound in the innermost scope is bound there by the newest of the bindings. -/
theorem bindInnermost (h : c.Within written newer d) (name : String) (b : Binding) :
    ∃ s inner, newer = s :: inner ∧
      c.Within written (s.bind name b :: inner) (d.bindInnermost name b) := by
  obtain ⟨root, scopes, journal⟩ := c
  obtain ⟨root', scopes', journal'⟩ := d
  obtain ⟨hroot, hscopes⟩ := h
  cases hscopes with
  | here new h hs => exact ⟨new, [], rfl, hroot, .here (new.bind name b) h hs⟩
  | inside s h => exact ⟨s, _, rfl, hroot, .inside (s.bind name b) h⟩

/-- Without a newer scope, the scopes around the innermost one keep their frame. -/
theorem pop {new : Scope} (h : c.Within written [new] d) : c.pop.Frame written d.pop := by
  obtain ⟨root, scopes, journal⟩ := c
  obtain ⟨root', scopes', journal'⟩ := d
  obtain ⟨hroot, hscopes⟩ := h
  cases hscopes with
  | here _ _ hs => exact ⟨hroot, hs⟩
  | inside _ h => cases h

theorem value?_eq (h : c.Within written newer d) (hname : name ∉ written) :
    d.value? name =
      ((newer.findSome? (Scope.find? name)).map Binding.get).or (c.value? name) := by
  rw [value?, binding?, h.scopes.findSome? hname h.root, value?, binding?]
  cases newer.findSome? (Scope.find? name) <;> rfl

end Within

/-! ## From some point on -/

/-- Whether a context is in the scopes of another one. -/
def IsWithin (written : Set String) (c d : Context) : Prop := ∃ newer, c.Within written newer d

namespace IsWithin

theorem depth_pos (h : c.IsWithin written d) : 0 < d.depth := by
  obtain ⟨root, scopes, journal⟩ := c
  obtain ⟨root', scopes', journal'⟩ := d
  obtain ⟨newer, -, hscopes⟩ := h
  cases hscopes <;> exact Nat.succ_pos _

theorem frame (h : c.IsWithin written d) (hframe : d.Frame written e) : c.IsWithin written e := by
  obtain ⟨newer, h⟩ := h
  obtain ⟨newer', -, h'⟩ := h.frame hframe
  exact ⟨newer', h'⟩

theorem push (h : c.IsWithin written d) : c.IsWithin written d.push := by
  obtain ⟨newer, h⟩ := h
  exact ⟨_, h.push⟩

theorem bindInnermost (h : c.IsWithin written d) (name : String) (b : Binding) :
    c.IsWithin written (d.bindInnermost name b) := by
  obtain ⟨newer, h⟩ := h
  obtain ⟨s, inner, -, h'⟩ := h.bindInnermost name b
  exact ⟨_, h'⟩

/-- What processors do to a context, they do within its scopes. -/
theorem changed (h : c.IsWithin written d) (hchanged : d.Changed written e) :
    c.IsWithin written e := by
  induction hchanged with
  | refl => exact h
  | setLocal | bindLazy | setSelection | setInlining => exact h.bindInnermost _ _
  | touch name d => exact h.frame (frame_touch d name)
  | note event d => exact h.frame (frame_note d event)
  | overwrite v d hname => exact h.frame (frame_overwrite d v hname)
  | trans _ _ ihcd ihde => exact ihde (ihcd h)

end IsWithin
end Context
end NaturalTemplate
