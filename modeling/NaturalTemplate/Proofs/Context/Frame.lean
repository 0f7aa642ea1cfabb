import Mathlib.Data.List.Forall2
import Mathlib.Data.Set.Basic
import NaturalTemplate.Expression.Evaluator

/-!
# What stays of a context

Asking for the value of a name changes its binding only in that it holds the value from then on. A
context keeps the frame of another one if it has the same scopes with the same names, and no other
changes than that, apart from the names that may be written. Whatever is bound in the innermost
scope, the scopes around it keep their frame.
-/
namespace NaturalTemplate

/-- A binding as it was, or after its value was asked for. -/
inductive Binding.Kept : Binding → Binding → Prop where
  | same (b : Binding) : Kept b b
  | asked (producer : Thunk Value) : Kept (.lazy producer) (.value producer.get)

namespace Binding.Kept

theorem trans {a b c : Binding} (hab : a.Kept b) (hbc : b.Kept c) : a.Kept c := by
  cases hab with
  | same => exact hbc
  | asked producer =>
    cases hbc
    exact .asked producer

theorem get_eq {a b : Binding} (h : a.Kept b) : b.get = a.get := by
  cases h <;> rfl

end Binding.Kept

/-- A scope with the same names, where only some names may have got another value. -/
def Scope.Frame (written : Set String) : Scope → Scope → Prop :=
  List.Forall₂ fun x y => y.1 = x.1 ∧ (x.1 ∈ written ∨ x.2.Kept y.2)

namespace Scope

variable {written : Set String} {s t u : Scope} {name : String}

theorem Frame.refl (s : Scope) : s.Frame written s :=
  List.forall₂_same.mpr fun _ _ => ⟨rfl, .inr (.same _)⟩

theorem Frame.trans (hst : s.Frame written t) (htu : t.Frame written u) : s.Frame written u := by
  induction hst generalizing u with
  | nil => exact htu
  | @cons x y s t hxy _ ih =>
    obtain ⟨z, v, hyz, hts, rfl⟩ := List.forall₂_cons_left_iff.mp htu
    refine .cons ⟨hyz.1.trans hxy.1, ?_⟩ (ih hts)
    by_cases hx : x.1 ∈ written
    · exact .inl hx
    · have hy : y.1 ∉ written := by rwa [hxy.1]
      exact .inr ((hxy.2.resolve_left hx).trans (hyz.2.resolve_left hy))

theorem find?_cons (x : String × Binding) (s : Scope) :
    find? name (x :: s) = if name = x.1 then some x.2 else s.find? name := by
  obtain ⟨n, b⟩ := x
  by_cases h : name = n
  · simp [find?, h]
  · have hbeq : (name == n) = false := beq_false_of_ne h
    simp [find?, List.lookup_cons, hbeq, h]

theorem Frame.isSome_find? (h : s.Frame written t) (name : String) :
    (t.find? name).isSome = (s.find? name).isSome := by
  induction h with
  | nil => rfl
  | @cons x y s t hxy _ ih =>
    rw [find?_cons, find?_cons, hxy.1]
    split
    · rfl
    · exact ih

theorem Frame.find? (h : s.Frame written t) (hname : name ∉ written) :
    (t.find? name).map Binding.get = (s.find? name).map Binding.get := by
  induction h with
  | nil => rfl
  | @cons x y s t hxy _ ih =>
    rw [find?_cons, find?_cons, hxy.1]
    split
    · next heq =>
      have hx : x.1 ∉ written := by rwa [← heq]
      simp only [Option.map_some, (hxy.2.resolve_left hx).get_eq]
    · exact ih

/-- Changing a binding keeps the frame if the name may be written, or the change is one that comes
of asking for the value. -/
theorem frame_modify {f : Binding → Binding}
    (hf : ∀ b, s.find? name = some b → name ∈ written ∨ b.Kept (f b)) :
    s.Frame written (s.modify name f) := by
  induction s with
  | nil => exact .nil
  | cons x s ih =>
    obtain ⟨n, a⟩ := x
    rw [modify]
    by_cases hn : n = name
    · subst hn
      rw [if_pos rfl]
      exact .cons ⟨rfl, hf a (by simp [find?_cons])⟩ (Frame.refl s)
    · rw [if_neg hn]
      refine .cons ⟨rfl, .inr (.same a)⟩ (ih fun b hb => hf b ?_)
      rwa [find?_cons, if_neg (Ne.symm hn)]

/-- A scope without the names that may be written keeps its values. -/
theorem Frame.of_find?_eq_none (h : s.Frame written t) (hs : ∀ n ∈ written, s.find? n = none) :
    s.Frame ∅ t := by
  induction h with
  | nil => exact .nil
  | @cons x y s t hxy _ ih =>
    simp only [find?_cons] at hs
    have hx : x.1 ∉ written := by
      intro hmem
      simpa using hs x.1 hmem
    refine .cons ⟨hxy.1, .inr (hxy.2.resolve_left hx)⟩ (ih fun n hn => ?_)
    have hne : n ≠ x.1 := by
      rintro rfl
      exact hx hn
    rw [← hs n hn, if_neg hne]

/-! ### Several scopes -/

variable {ss ts us : List Scope}

theorem frames_trans (hst : List.Forall₂ (Frame written) ss ts)
    (htu : List.Forall₂ (Frame written) ts us) : List.Forall₂ (Frame written) ss us := by
  induction hst generalizing us with
  | nil => exact htu
  | cons h _ ih =>
    obtain ⟨u, us, hu, hus, rfl⟩ := List.forall₂_cons_left_iff.mp htu
    exact .cons (h.trans hu) (ih hus)

theorem findSome?_of_frames (h : List.Forall₂ (Frame written) ss ts) (hname : name ∉ written) :
    (ts.findSome? (find? name)).map Binding.get = (ss.findSome? (find? name)).map Binding.get := by
  induction h with
  | nil => rfl
  | @cons s t ss ts hst _ ih =>
    have hsome := hst.isSome_find? name
    have hget := hst.find? hname
    simp only [List.findSome?_cons]
    cases hs : s.find? name <;> cases ht : t.find? name <;> simp_all

theorem frames_of_find?_eq_none (h : List.Forall₂ (Frame written) ss ts)
    (hs : ∀ s ∈ ss, ∀ n ∈ written, s.find? n = none) : List.Forall₂ (Frame ∅) ss ts := by
  have hboth := (List.forall₂_and_left ss ts).mpr ⟨hs, h⟩
  exact hboth.imp fun s t hst => hst.2.of_find?_eq_none hst.1

/-- Changing the innermost binding of a name keeps the frame of all scopes. -/
theorem frames_modifyInnermost? {f : Binding → Binding}
    (hmod : modifyInnermost? name f ss = some ts)
    (hf : ∀ b, ss.findSome? (find? name) = some b → name ∈ written ∨ b.Kept (f b)) :
    List.Forall₂ (Frame written) ss ts := by
  induction ss generalizing ts with
  | nil => simp [modifyInnermost?] at hmod
  | cons s ss ih =>
    rw [modifyInnermost?] at hmod
    simp only [List.findSome?_cons] at hf
    cases hs : s.find? name with
    | some a =>
      simp only [hs, Option.isSome_some, if_true, Option.some.injEq] at hf hmod
      subst hmod
      refine .cons (frame_modify fun b hb => hf b ?_) (List.forall₂_same.mpr fun s _ => .refl s)
      rwa [hs, Option.some.injEq] at hb
    | none =>
      simp only [hs, Option.isSome_none, Bool.false_eq_true, if_false] at hf hmod
      obtain ⟨us, hus, rfl⟩ := Option.map_eq_some_iff.mp hmod
      exact .cons (.refl s) (ih hus hf)

theorem findSome?_of_modifyInnermost? {f : Binding → Binding}
    (h : modifyInnermost? name f ss = none) : ss.findSome? (find? name) = none := by
  induction ss with
  | nil => rfl
  | cons s ss ih =>
    rw [modifyInnermost?] at h
    rw [List.findSome?_cons]
    cases hs : s.find? name with
    | some a => simp [hs] at h
    | none =>
      simp only [hs, Option.isSome_none, Bool.false_eq_true, if_false, Option.map_eq_none_iff] at h
      exact ih h

end Scope

namespace Context

/-- The same scopes with the same names, where only some names may have got another value. -/
structure Frame (written : Set String) (c d : Context) : Prop where
  root : c.root.Frame written d.root
  scopes : List.Forall₂ (Scope.Frame written) c.scopes d.scopes

variable {written : Set String} {c d e : Context} {name : String}

namespace Frame

theorem refl (c : Context) : c.Frame written c :=
  ⟨.refl _, List.forall₂_same.mpr fun s _ => .refl s⟩

theorem trans (hcd : c.Frame written d) (hde : d.Frame written e) : c.Frame written e :=
  ⟨hcd.root.trans hde.root, Scope.frames_trans hcd.scopes hde.scopes⟩

theorem depth_eq (h : c.Frame written d) : d.depth = c.depth := h.scopes.length_eq.symm

theorem pop (h : c.Frame written d) : c.pop.Frame written d.pop := by
  refine ⟨h.root, ?_⟩
  have htail := List.forall₂_drop 1 h.scopes
  rwa [List.drop_one, List.drop_one] at htail

/-- Names that may not be written keep their values. -/
theorem value? (h : c.Frame written d) (hname : name ∉ written) : d.value? name = c.value? name :=
  Scope.findSome?_of_frames (List.rel_append h.scopes (.cons h.root .nil)) hname

/-- Where no name is bound that may be written, all values are kept. -/
theorem of_binding?_eq_none (h : c.Frame written d) (hc : ∀ n ∈ written, c.binding? n = none) :
    c.Frame ∅ d := by
  have hfind : ∀ s ∈ c.scopes ++ [c.root], ∀ n ∈ written, s.find? n = none := fun s hs n hn =>
    List.findSome?_eq_none_iff.mp (hc n hn) s hs
  refine ⟨h.root.of_find?_eq_none (hfind c.root (by simp)), ?_⟩
  exact Scope.frames_of_find?_eq_none h.scopes fun s hs => hfind s (by simp [hs])

end Frame

/-- Whether text is expanded is kept where it may not be written. -/
theorem Frame.isInlining_eq (h : c.Frame written d) (hname : inliningName ∉ written) :
    d.isInlining = c.isInlining := by
  rw [isInlining, isInlining, h.value? hname]

/-- Binding a name leaves the values of other names. -/
theorem value?_bindInnermost {other : String} (hne : name ≠ other) (b : Binding) (c : Context) :
    (c.bindInnermost other b).value? name = c.value? name := by
  obtain ⟨root, scopes, journal⟩ := c
  have hfind : ∀ s : Scope, (s.bind other b).find? name = s.find? name := by
    intro s
    rw [Scope.bind, Scope.find?_cons, if_neg hne]
  cases scopes with
  | nil => simp [value?, binding?, bindInnermost, hfind]
  | cons s ss =>
    simp only [value?, binding?, bindInnermost, List.cons_append, List.findSome?_cons, hfind]

theorem isInlining_setLocal {other : String} (hne : other ≠ inliningName) (v : Value)
    (c : Context) : (c.setLocal other v).isInlining = c.isInlining := by
  rw [isInlining, isInlining, setLocal, value?_bindInnermost (Ne.symm hne)]

theorem frame_note (c : Context) (event : Event) : c.Frame written (c.note event) :=
  ⟨.refl _, List.forall₂_same.mpr fun s _ => .refl s⟩

/-- Changing the innermost binding of a name keeps the frame if the name may be written, or the
change is one that comes of asking for the value. -/
theorem frame_modify {f : Binding → Binding}
    (hf : ∀ b, c.binding? name = some b → name ∈ written ∨ b.Kept (f b)) :
    c.Frame written (c.modify name f) := by
  simp only [binding?, List.findSome?_append] at hf
  unfold modify
  cases hmod : Scope.modifyInnermost? name f c.scopes with
  | some scopes =>
    refine ⟨.refl _, Scope.frames_modifyInnermost? hmod fun b hb => hf b ?_⟩
    rw [hb, Option.some_or]
  | none =>
    refine ⟨Scope.frame_modify fun b hb => hf b ?_, List.forall₂_same.mpr fun s _ => .refl s⟩
    rw [Scope.findSome?_of_modifyInnermost? hmod, Option.none_or]
    simpa using hb

theorem frame_touch (c : Context) (name : String) : c.Frame written (c.touch name) := by
  unfold touch
  split
  · next producer hb =>
    refine (frame_modify fun b hb' => .inr ?_).trans (frame_note _ _)
    cases hb.symm.trans hb'
    exact .asked producer
  · exact .refl c

theorem frame_touchAll (c : Context) (names : List String) :
    c.Frame written (c.touchAll names) := by
  induction names generalizing c with
  | nil => exact .refl c
  | cons name names ih => exact (frame_touch c name).trans (ih _)

theorem frame_overwrite (c : Context) (v : Value) (hname : name ∈ written) :
    c.Frame written (c.overwrite name v) :=
  (frame_touch c name).trans (frame_modify fun _ _ => .inl hname)

theorem frame_evaluate (ev : Evaluator) (text : String) (c : Context) :
    c.Frame written (ev.evaluate text c).2 :=
  frame_touchAll c _

/-! ## Inside a scope -/

/-- The scopes around the innermost one, if there is an innermost one, keep their frame. -/
def OuterFrame (written : Set String) (c d : Context) : Prop :=
  0 < c.depth → 0 < d.depth ∧ c.pop.Frame written d.pop

theorem Frame.outer (h : c.Frame written d) : c.OuterFrame written d := fun hc =>
  ⟨h.depth_eq ▸ hc, h.pop⟩

namespace OuterFrame

theorem trans (hcd : c.OuterFrame written d) (hde : d.OuterFrame written e) :
    c.OuterFrame written e := by
  intro hc
  obtain ⟨hd, hpop⟩ := hcd hc
  obtain ⟨he, hpop'⟩ := hde hd
  exact ⟨he, hpop.trans hpop'⟩

/-- What is done inside a scope leaves the frame as it was when the scope ends. -/
theorem pop_push (h : c.push.OuterFrame written d) : c.Frame written d.pop :=
  (h (Nat.succ_pos _)).2

end OuterFrame

theorem outerFrame_bindInnermost (c : Context) (name : String) (b : Binding) :
    c.OuterFrame written (c.bindInnermost name b) := by
  intro hc
  unfold bindInnermost
  split
  · next hscopes => simp [depth, hscopes] at hc
  · next hscopes =>
    refine ⟨Nat.succ_pos _, ?_⟩
    simp only [Context.pop, hscopes, List.tail_cons]
    exact .refl _

/-! ## The changes that processors make -/

/-- What is left of a context by binding names in the innermost scope, asking for values and taking
notes, and by changing the bindings of names that may be written. -/
inductive Changed (written : Set String) : Context → Context → Prop where
  | refl (c : Context) : Changed written c c
  | setLocal (name : String) (v : Value) (c : Context) : Changed written c (c.setLocal name v)
  | bindLazy (name : String) (producer : Thunk Value) (c : Context) :
    Changed written c (c.bindLazy name producer)
  | setSelection (v : Value) (c : Context) : Changed written c (c.setSelection v)
  | setInlining (on : Bool) (c : Context) : Changed written c (c.setInlining on)
  | touch (name : String) (c : Context) : Changed written c (c.touch name)
  | note (event : Event) (c : Context) : Changed written c (c.note event)
  | overwrite {name : String} (v : Value) (c : Context) (hname : name ∈ written) :
    Changed written c (c.overwrite name v)
  | trans {c d e : Context} (hcd : Changed written c d) (hde : Changed written d e) :
    Changed written c e

namespace Changed

theorem touchAll (names : List String) (c : Context) : c.Changed written (c.touchAll names) := by
  induction names generalizing c with
  | nil => exact .refl c
  | cons name names ih => exact (Changed.touch name c).trans (ih _)

theorem evaluate (ev : Evaluator) (text : String) (c : Context) :
    c.Changed written (ev.evaluate text c).2 :=
  touchAll _ c

theorem mono {allowed : Set String} (h : c.Changed written d) (hsub : written ⊆ allowed) :
    c.Changed allowed d := by
  induction h with
  | refl c => exact .refl c
  | setLocal name v c => exact .setLocal name v c
  | bindLazy name producer c => exact .bindLazy name producer c
  | setSelection v c => exact .setSelection v c
  | setInlining on c => exact .setInlining on c
  | touch name c => exact .touch name c
  | note event c => exact .note event c
  | overwrite v c hname => exact .overwrite v c (hsub hname)
  | trans _ _ ihcd ihde => exact ihcd.trans ihde

/-- The changes that processors make are to the innermost scope, or to names that may be written. -/
theorem outerFrame (h : c.Changed written d) : c.OuterFrame written d := by
  induction h with
  | refl c => exact (Frame.refl c).outer
  | setLocal name v c => exact outerFrame_bindInnermost c name _
  | bindLazy name producer c => exact outerFrame_bindInnermost c name _
  | setSelection v c => exact outerFrame_bindInnermost c _ _
  | setInlining on c => exact outerFrame_bindInnermost c _ _
  | touch name c => exact (frame_touch c name).outer
  | note event c => exact (frame_note c event).outer
  | overwrite v c hname => exact (frame_overwrite c v hname).outer
  | trans _ _ ihcd ihde => exact ihcd.trans ihde

end Changed

end Context
end NaturalTemplate
