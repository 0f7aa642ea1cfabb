import Mathlib.Data.List.Basic
import NaturalTemplate.Expression.Evaluator

/-!
# Where arrays and objects come from

No expression makes an array or an object: where it has one for its value, this is a part of the
value of a variable, or of the object that is selected. So the entries of an object stand in the
order of their keys as they do in the data.
-/
namespace NaturalTemplate

namespace Value

/-- The value itself, and the parts of its items or of its entries. -/
inductive Part (part : Value) : Value → Prop where
  | self : Part part part
  | item {v : Value} {items : List Value} (h : Part part v) (hv : v ∈ items) :
    Part part (.array items)
  | entry {v : Value} {key : String} {entries : List (String × Value)} (h : Part part v)
    (hv : (key, v) ∈ entries) : Part part (.object entries)

/-- Whether the entries of all objects in a value stand in the order of their keys, each key
once. -/
def IsOrdered (v : Value) : Prop :=
  ∀ entries, Part (.object entries) v → entries.Pairwise fun x y => x.1 < y.1

/-- Whether a value is neither an array nor an object. -/
def isSimple : Value → Bool
  | .array _ | .object _ => false
  | _ => true

variable {v w : Value}

theorem Part.trans {part : Value} (h : Part part v) (hv : Part v w) : Part part w := by
  induction hv with
  | self => exact h
  | item _ hmem ih => exact .item ih hmem
  | entry _ hmem ih => exact .entry ih hmem

theorem IsOrdered.part (h : w.IsOrdered) (hv : Part v w) : v.IsOrdered :=
  fun entries hentries => h entries (hentries.trans hv)

theorem isOrdered_of_isSimple (h : v.isSimple = true) : v.IsOrdered := by
  intro entries hpart
  cases hpart <;> cases h

theorem find?_mem {key : String} {entries : List (String × Value)}
    (h : find? key entries = some v) : (key, v) ∈ entries := by
  obtain ⟨front, back, rfl, -⟩ := List.lookup_eq_some_iff.mp h
  simp

end Value

/-- Whether a value is no array and no object, or a part of what is bound in a context. -/
def Context.Gives (c : Context) (v : Value) : Prop :=
  v.isSimple = true ∨ ∃ name w, c.value? name = some w ∧ v.Part w

variable {c : Context} {v w : Value}

theorem Context.Gives.part (h : c.Gives w) (hv : v.isSimple = true ∨ v.Part w) : c.Gives v := by
  obtain hv | hv := hv
  · exact .inl hv
  obtain hsimple | ⟨name, whole, hbound, hw⟩ := h
  · cases hv with
    | self => exact .inl hsimple
    | item | entry => cases hsimple
  · exact .inr ⟨name, whole, hbound, hv.trans hw⟩

theorem Context.gives_value? (c : Context) (name : String) :
    c.Gives ((c.value? name).getD .null) := by
  cases h : c.value? name with
  | none => exact .inl rfl
  | some v => exact .inr ⟨name, v, h, .self⟩

namespace Path

/-- A property is a part of the object, or null. -/
theorem part_of_follow {path : Path} (h : follow v path = .ok w) :
    w.isSimple = true ∨ w.Part v := by
  induction path generalizing v with
  | nil =>
    cases h
    exact .inr .self
  | cons name path ih =>
    unfold follow at h
    split at h
    · split at h
      · next entries =>
        cases hfound : Value.find? name entries with
        | none =>
          rw [hfound] at h
          obtain hw | hw := ih h
          · exact .inl hw
          · cases hw
            exact .inl rfl
        | some v =>
          rw [hfound] at h
          exact (ih h).imp_right fun hw => .entry hw (Value.find?_mem hfound)
      · cases h
    · cases h

theorem gives_of_eval {path : Path} (h : path.eval c = .ok v) : c.Gives v := by
  cases path with
  | nil => cases h
  | cons name path =>
    rw [eval] at h
    split at h
    · exact (c.gives_value? name).part (part_of_follow h)
    · cases h

theorem gives_of_evalSelected {path : Path} (h : path.evalSelected c = .ok v) : c.Gives v := by
  rw [evalSelected] at h
  split at h
  · next selected hselected =>
    have hgives : c.Gives selected := .inr ⟨Context.selectionName, selected, hselected, .self⟩
    exact hgives.part (part_of_follow h)
  · exact gives_of_eval h

end Path

theorem Value.isSimple_of_add {left right : Value} (h : left.add right = .ok v) :
    v.isSimple = true := by
  unfold add at h
  split at h
  · split at h <;> cases h <;> rfl
  · split at h
    · cases h
      rfl
    · split at h <;> cases h
      rfl

namespace Expr

/-- Whether the literals in an expression are neither arrays nor objects. -/
def IsPlain : Expr → Prop
  | literal v => v.isSimple = true
  | .variable _ | selected _ | substitution _ | malformed _ => True
  | not e => e.IsPlain
  | add left right | compare _ _ left right | equal left right | differ left right
  | and left right | or left right | elvis left right | guarded left right =>
    left.IsPlain ∧ right.IsPlain
  | conditional condition yes no => condition.IsPlain ∧ yes.IsPlain ∧ no.IsPlain

theorem isPlain_atom (text : List Char) : (atom text).IsPlain := by
  unfold atom
  repeat' split
  all_goals trivial

/-- No literal is read as an array or an object. -/
theorem isPlain_parse (text : List Char) : (parse text).IsPlain := by
  fun_induction parse text
  all_goals simp_all [IsPlain, isPlain_atom]

/-- The last step gives the value of a computation. -/
theorem eq_ok_of_bind {α β ε : Type} {x : Except ε α} {f : α → Except ε β} {b : β}
    (h : (x >>= f) = .ok b) : ∃ a, x = .ok a ∧ f a = .ok b := by
  cases x with
  | error => cases h
  | ok a => exact ⟨a, rfl, h⟩

theorem gives_of_eval {e : Expr} (he : e.IsPlain) (h : e.eval c = .ok v) : c.Gives v := by
  induction e generalizing v with
  | literal w =>
    cases h
    exact .inl he
  | «variable» path => exact Path.gives_of_eval h
  | selected path => exact Path.gives_of_evalSelected h
  | substitution pieces =>
    rw [eval] at h
    cases htext : Piece.textAll c pieces with
    | error => simp [htext, Except.map] at h
    | ok text =>
      rw [htext] at h
      cases h
      exact .inl rfl
  | not e =>
    obtain ⟨w, -, h⟩ := eq_ok_of_bind h
    cases h
    exact .inl rfl
  | add left right =>
    obtain ⟨a, -, h⟩ := eq_ok_of_bind h
    obtain ⟨b, -, h⟩ := eq_ok_of_bind h
    exact .inl (Value.isSimple_of_add h)
  | compare relation operator left right =>
    obtain ⟨a, -, h⟩ := eq_ok_of_bind h
    obtain ⟨b, -, h⟩ := eq_ok_of_bind h
    split at h <;> cases h
    exact .inl rfl
  | equal left right | differ left right =>
    obtain ⟨a, -, h⟩ := eq_ok_of_bind h
    obtain ⟨b, -, h⟩ := eq_ok_of_bind h
    cases h
    exact .inl rfl
  | and left right =>
    obtain ⟨a, -, h⟩ := eq_ok_of_bind h
    split at h
    · obtain ⟨b, -, h⟩ := eq_ok_of_bind h
      cases h
      exact .inl rfl
    · cases h
      exact .inl rfl
  | or left right =>
    obtain ⟨a, -, h⟩ := eq_ok_of_bind h
    split at h
    · cases h
      exact .inl rfl
    · obtain ⟨b, -, h⟩ := eq_ok_of_bind h
      cases h
      exact .inl rfl
  | elvis value default ihvalue ihdefault =>
    obtain ⟨w, hw, h⟩ := eq_ok_of_bind h
    split at h
    · exact ihdefault he.2 h
    · cases h
      exact ihvalue he.1 hw
  | guarded condition yes _ ihyes =>
    obtain ⟨w, -, h⟩ := eq_ok_of_bind h
    split at h
    · exact ihyes he.2 h
    · cases h
      exact .inl rfl
  | conditional condition yes no _ ihyes ihno =>
    obtain ⟨w, -, h⟩ := eq_ok_of_bind h
    split at h
    · exact ihyes he.2.1 h
    · exact ihno he.2.2 h
  | malformed cause => cases h

end Expr

/-- Whether the values of all variables are ordered, and so those of the names that are kept
apart. -/
def Context.IsOrdered (c : Context) : Prop := ∀ name v, c.value? name = some v → v.IsOrdered

theorem Evaluator.gives_of_value {text : String} (h : standard.value c text = .ok v) :
    c.Gives v := by
  simp only [standard] at h
  split at h
  · next heval =>
    cases h
    exact Expr.gives_of_eval (Expr.isPlain_parse _) heval
  · cases h

theorem Evaluator.isOrdered_of_value (hc : c.IsOrdered) {text : String}
    (h : standard.value c text = .ok v) : v.IsOrdered := by
  obtain hsimple | ⟨name, w, hw, hpart⟩ := gives_of_value h
  · exact Value.isOrdered_of_isSimple hsimple
  · exact (hc name w hw).part hpart

end NaturalTemplate
