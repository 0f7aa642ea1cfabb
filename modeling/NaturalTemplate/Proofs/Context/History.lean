import Mathlib.Data.List.Forall2
import NaturalTemplate.Proofs.Context.Agreement
import NaturalTemplate.Proofs.Context.Tables
import NaturalTemplate.Proofs.Expression.Evaluation

/-!
# A context after any operations

Whatever is done with a context, it answers like plain tables in which every lazy binding has its
value from the start. The value of a producer is made once, when it is first asked for: each
producer brings one binding into one scope, which holds the value from then on.
-/
namespace NaturalTemplate

/-! ## Bindings and cells -/

/-- Whether a binding stands for a cell, where the values of some producers were made already. -/
inductive Binding.Stands (made : Set Producer) : Binding → Cell → Prop where
  | value {x : Cell} (hmade : ∀ p, x.producer = some p → p ∈ made) : Stands made (.value x.value) x
  | lazy {x : Cell} {value : Thunk Value} {p : Producer} (hvalue : value.get = x.value)
    (hp : x.producer = some p) (hmade : p ∉ made) : Stands made (.lazy value) x

namespace Binding.Stands

variable {made : Set Producer} {b : Binding} {x : Cell} {p : Producer}

theorem plain (v : Value) : Binding.Stands made (.value v) { value := v } :=
  .value (x := { value := v }) fun _ h => nomatch h

theorem get_eq (h : b.Stands made x) : b.get = x.value := by
  cases h with
  | value => rfl
  | lazy hvalue => exact hvalue

/-- A value that is made elsewhere makes no difference. -/
theorem elsewhere (h : b.Stands made x) (hp : x.producer ≠ some p) :
    b.Stands (insert p made) x := by
  cases h with
  | value hmade => exact .value fun q hq => Set.mem_insert_of_mem p (hmade q hq)
  | @lazy _ value q hvalue hq hmade =>
    refine .lazy hvalue hq fun hmem => ?_
    obtain rfl | hmem := hmem
    · exact hp hq
    · exact hmade hmem

theorem rel_elsewhere {bound : Option Binding} {found : Option Cell}
    (h : Option.Rel (Binding.Stands made) bound found) (hp : ∀ x ∈ found, x.producer ≠ some p) :
    Option.Rel (Binding.Stands (insert p made)) bound found := by
  cases h with
  | none => exact .none
  | some hb => exact .some (hb.elsewhere (hp _ rfl))

end Binding.Stands

/-- Whether a scope stands for a table. -/
def Scope.Stands (made : Set Producer) (s : Scope) (m : Table) : Prop :=
  ∀ name, Option.Rel (Binding.Stands made) (s.find? name) (m.lookup name)

namespace Scope.Stands

variable {made : Set Producer} {s : Scope} {m : Table} {name : String} {b : Binding} {x : Cell}
  {p : Producer}

theorem empty (made : Set Producer) : Scope.Stands made [] ∅ := fun _ => .none

theorem bind (h : s.Stands made m) (name : String) (hb : b.Stands made x) :
    (s.bind name b).Stands made (m.insert name x) := by
  intro other
  rw [Scope.find?_bind]
  by_cases hother : other = name
  · subst hother
    rw [if_pos rfl, AList.lookup_insert]
    exact .some hb
  · rw [if_neg hother, AList.lookup_insert_ne hother]
    exact h other

theorem isSome_find? (h : s.Stands made m) (name : String) :
    (s.find? name).isSome = (m.lookup name).isSome := by
  have hrel := h name
  generalize s.find? name = bound at hrel ⊢
  generalize m.lookup name = found at hrel ⊢
  cases hrel <;> rfl

theorem isSome_of_lookup (h : s.Stands made m) (hx : m.lookup name = some x) :
    (s.find? name).isSome = true := by
  rw [h.isSome_find?, hx]
  rfl

theorem entries (made : Set Producer) (entries : List (String × Value)) :
    Scope.Stands made (entries.map fun (name, v) => (name, .value v))
      (entries.map fun (name, v) => ⟨name, { value := v }⟩).toAList := by
  induction entries with
  | nil => exact .empty made
  | cons entry entries ih =>
    obtain ⟨name, v⟩ := entry
    rw [List.map_cons, List.map_cons, AList.toAList_cons]
    exact ih.bind name (.plain v)

/-- Another binding of a name that is bound, where the others stand for their cells. -/
theorem modify (hrest : ∀ other, other ≠ name →
      Option.Rel (Binding.Stands made) (s.find? other) (m.lookup other))
    (hfound : (s.find? name).isSome = true) (hx : m.lookup name = some x)
    (hb : b.Stands made x) : (s.modify name fun _ => b).Stands made m := by
  intro other
  rw [Scope.find?_modify]
  split
  · next hother =>
    subst hother
    obtain ⟨b', hb'⟩ := Option.isSome_iff_exists.mp hfound
    rw [hb', hx]
    exact .some hb
  · next hother => exact hrest other hother

end Scope.Stands

/-! ## Scopes and tables -/

namespace Scope

variable {made : Set Producer} {ss : List Scope} {t : Tables} {name : String} {p : Producer}

/-- Changes the innermost binding of a name in some scopes. -/
def modifyFirst (name : String) (f : Binding → Binding) : List Scope → List Scope
  | [] => []
  | s :: ss => if (s.find? name).isSome then s.modify name f :: ss else s :: modifyFirst name f ss

theorem modify_of_find?_eq_none {s : Scope} (h : s.find? name = none) (f : Binding → Binding) :
    s.modify name f = s := by
  induction s with
  | nil => rfl
  | cons x s ih =>
    rw [find?_cons] at h
    split at h
    · cases h
    · next hne => rw [modify, if_neg (Ne.symm hne), ih h]

theorem modifyFirst_concat (name : String) (f : Binding → Binding) (ss : List Scope) (s : Scope) :
    modifyFirst name f (ss ++ [s]) =
      match modifyInnermost? name f ss with
      | some ss' => ss' ++ [s]
      | none => ss ++ [s.modify name f] := by
  induction ss with
  | nil =>
    cases hfind : s.find? name with
    | some b => simp [modifyFirst, modifyInnermost?, hfind]
    | none => simp [modifyFirst, modifyInnermost?, hfind, modify_of_find?_eq_none hfind]
  | cons s' ss ih =>
    rw [List.cons_append, modifyFirst, modifyInnermost?, ih]
    split
    · rfl
    · cases modifyInnermost? name f ss <;> rfl

end Scope

namespace Context

/-- All scopes with the root, the innermost one first. -/
def layers (c : Context) : List Scope := c.scopes ++ [c.root]

theorem layers_modify (name : String) (f : Binding → Binding) (c : Context) :
    (c.modify name f).layers = Scope.modifyFirst name f c.layers := by
  rw [layers, layers, Scope.modifyFirst_concat, modify]
  cases Scope.modifyInnermost? name f c.scopes <;> rfl

theorem journal_modify (name : String) (f : Binding → Binding) (c : Context) :
    (c.modify name f).journal = c.journal := by
  rw [modify]
  cases Scope.modifyInnermost? name f c.scopes <;> rfl

theorem exists_layers (c : Context) : ∃ s ss, c.layers = s :: ss ∧
    ∀ name b, (c.bindInnermost name b).layers = s.bind name b :: ss := by
  obtain ⟨root, scopes, journal⟩ := c
  cases scopes with
  | nil => exact ⟨root, [], rfl, fun _ _ => rfl⟩
  | cons s ss => exact ⟨s, ss ++ [root], rfl, fun _ _ => rfl⟩

end Context

/-- Whether all cells of producers lie in tables of the depth that is known of the producers, under
the names that are theirs. So no producer has two cells. -/
def Tables.Placed (depth : Producer → Option ℕ) : Tables → Prop
  | [] => True
  | m :: t =>
    (∀ name x p, m.lookup name = some x → x.producer = some p →
      p.name = name ∧ depth p = some t.length) ∧ Placed depth t

namespace Tables

variable {made : Set Producer} {ss : List Scope} {t : Tables} {name : String} {p : Producer}
  {x : Cell} {depth : Producer → Option ℕ}

/-- A producer whose cell is found lies in one of the tables. -/
theorem Placed.of_cell? (h : Placed depth t) (hx : t.cell? name = some x)
    (hp : x.producer = some p) : p.name = name ∧ ∃ k < t.length, depth p = some k := by
  induction t with
  | nil => cases hx
  | cons m t ih =>
    rw [cell?_cons] at hx
    cases hlookup : m.lookup name with
    | some y =>
      rw [hlookup] at hx
      cases hx
      obtain ⟨hname, hdepth⟩ := h.1 name x p hlookup hp
      exact ⟨hname, t.length, Nat.lt_succ_self _, hdepth⟩
    | none =>
      rw [hlookup] at hx
      obtain ⟨hname, k, hk, hdepth⟩ := ih h.2 hx
      exact ⟨hname, k, Nat.lt_succ_of_lt hk, hdepth⟩

theorem Placed.update (h : Placed depth t) (hp : depth p = none) (k : ℕ) :
    Placed (Function.update depth p (some k)) t := by
  induction t with
  | nil => trivial
  | cons m t ih =>
    refine ⟨fun name x q hx hq => ?_, ih h.2⟩
    obtain ⟨hname, hdepth⟩ := h.1 name x q hx hq
    have hne : q ≠ p := by
      rintro rfl
      cases hp.symm.trans hdepth
    exact ⟨hname, by rw [Function.update_of_ne hne, hdepth]⟩

/-- A cell without a producer, or with one that belongs there. -/
theorem Placed.insert {m : Table} (h : Placed depth (m :: t))
    (hx : ∀ p, x.producer = some p → p.name = name ∧ depth p = some t.length) :
    Placed depth (m.insert name x :: t) := by
  refine ⟨fun other y p hy hp => ?_, h.2⟩
  by_cases hother : other = name
  · subst hother
    rw [AList.lookup_insert] at hy
    cases hy
    exact hx p hp
  · rw [AList.lookup_insert_ne hother] at hy
    exact h.1 other y p hy hp

theorem Placed.entries (entries : List (String × Value)) :
    Placed depth [(entries.map fun (name, v) => ⟨name, { value := v }⟩).toAList] := by
  induction entries with
  | nil =>
    refine ⟨fun name x p hx => ?_, trivial⟩
    rw [List.map_nil, AList.lookup_to_alist] at hx
    cases hx
  | cons entry entries ih =>
    rw [List.map_cons, AList.toAList_cons]
    exact ih.insert nofun

theorem length_overwrite (name : String) (v : Value) (t : Tables) :
    (t.overwrite name v).length = t.length := by
  induction t with
  | nil => rfl
  | cons m t ih =>
    rw [overwrite]
    split
    · rfl
    · rw [List.length_cons, ih, List.length_cons]

theorem Placed.overwrite (h : Placed depth t) (name : String) (v : Value) :
    Placed depth (t.overwrite name v) := by
  induction t with
  | nil => trivial
  | cons m t ih =>
    rw [Tables.overwrite]
    split
    · next x hx => exact h.insert fun p hp => h.1 name x p hx hp
    · refine ⟨?_, ih h.2⟩
      rw [length_overwrite]
      exact h.1

theorem length_setRoot (name : String) (x : Cell) (t : Tables) :
    (t.setRoot name x).length = t.length := by
  induction t with
  | nil => rfl
  | cons m t ih =>
    cases t with
    | nil => rfl
    | cons m' t => exact congrArg (· + 1) ih

theorem Placed.setRoot (h : Placed depth t) (name : String) (v : Value) :
    Placed depth (t.setRoot name { value := v }) := by
  induction t with
  | nil => trivial
  | cons m t ih =>
    cases t with
    | nil => exact h.insert nofun
    | cons m' t =>
      refine ⟨?_, ih h.2⟩
      rw [length_setRoot]
      exact h.1

theorem Placed.pop (h : Placed depth t) : Placed depth t.pop := by
  match t, h with
  | [], h | [_], h => exact h
  | _ :: _ :: _, h => exact h.2

/-! ## What becomes of scopes and tables -/

/-- Whether scopes stand for tables. -/
abbrev Mirrored (made : Set Producer) : List Scope → Tables → Prop :=
  List.Forall₂ (Scope.Stands made)

namespace Mirrored

theorem cell? (h : Mirrored made ss t) (name : String) :
    Option.Rel (Binding.Stands made) (ss.findSome? (Scope.find? name)) (t.cell? name) := by
  induction h with
  | nil => exact .none
  | @cons s m ss t hs _ ih =>
    have hrel := hs name
    rw [List.findSome?_cons, cell?_cons]
    generalize s.find? name = bound at hrel ⊢
    generalize m.lookup name = found at hrel ⊢
    cases hrel with
    | none => exact ih
    | some hb => exact .some hb

/-- The value of a producer that has no cell in some tables makes no difference to them. -/
theorem elsewhere (h : Mirrored made ss t) (hplaced : Placed depth t) {k : ℕ}
    (hp : depth p = some k) (hk : t.length ≤ k) : Mirrored (insert p made) ss t := by
  induction h with
  | nil => exact .nil
  | @cons s m ss t hs _ ih =>
    refine .cons (fun name => Binding.Stands.rel_elsewhere (hs name) fun x hx hpx => ?_)
      (ih hplaced.2 (Nat.le_of_succ_le hk))
    obtain ⟨-, hdepth⟩ := hplaced.1 name x p hx hpx
    cases hp.symm.trans hdepth
    exact Nat.lt_irrefl _ hk

/-- The value of a producer is made, and takes the place of its binding. -/
theorem produce (h : Mirrored made ss t) (hplaced : Placed depth t) (hx : t.cell? name = some x)
    (hp : x.producer = some p) :
    Mirrored (insert p made) (Scope.modifyFirst name (fun _ => .value x.value) ss) t := by
  induction h with
  | nil => cases hx
  | @cons s m ss t hs hrest ih =>
    rw [cell?_cons] at hx
    rw [Scope.modifyFirst, hs.isSome_find? name]
    cases hlookup : m.lookup name with
    | some y =>
      rw [hlookup] at hx
      cases hx
      obtain ⟨hname, hdepth⟩ := hplaced.1 name x p hlookup hp
      have hothers (other : String) (hother : other ≠ name) :
          Option.Rel (Binding.Stands (insert p made)) (s.find? other) (m.lookup other) := by
        refine Binding.Stands.rel_elsewhere (hs other) fun y hy hpy => ?_
        exact hother ((hplaced.1 other y p hy hpy).1.symm.trans hname)
      have hvalue : (Binding.value x.value).Stands (insert p made) x := .value fun q hq => by
        cases hp.symm.trans hq
        exact Set.mem_insert p made
      exact .cons (.modify hothers (hs.isSome_of_lookup hlookup) hlookup hvalue)
        (elsewhere hrest hplaced.2 hdepth le_rfl)
    | none =>
      rw [hlookup] at hx
      -- The cell lies further out, so no cell of this table is the producer's.
      obtain ⟨-, k, hk, hdepth⟩ := hplaced.2.of_cell? hx hp
      refine .cons (fun other => Binding.Stands.rel_elsewhere (hs other) fun y hy hpy => ?_)
        (ih hplaced.2 hx)
      cases hdepth.symm.trans (hplaced.1 other y p hy hpy).2
      exact Nat.lt_irrefl _ hk

/-- A value is put in the place of one that was asked for. -/
theorem overwrite (h : Mirrored made ss t) (name : String) (v : Value)
    (hmade : ∀ x p, t.cell? name = some x → x.producer = some p → p ∈ made) :
    Mirrored made (Scope.modifyFirst name (fun _ => .value v) ss) (t.overwrite name v) := by
  induction h with
  | nil => exact .nil
  | @cons s m ss t hs hrest ih =>
    rw [Scope.modifyFirst, hs.isSome_find? name, Tables.overwrite]
    simp only [cell?_cons] at hmade
    cases hlookup : m.lookup name with
    | some x =>
      simp only [hlookup, Option.some_or] at hmade
      have hothers (other : String) (hother : other ≠ name) : Option.Rel (Binding.Stands made)
          (s.find? other) ((m.insert name { x with value := v }).lookup other) := by
        rw [AList.lookup_insert_ne hother]
        exact hs other
      have hvalue : (Binding.value v).Stands made { x with value := v } :=
        .value (x := { x with value := v }) (hmade x · rfl)
      have hfound := hs.isSome_of_lookup hlookup
      exact .cons (.modify hothers hfound (AList.lookup_insert m) hvalue) hrest
    | none =>
      simp only [hlookup, Option.none_or] at hmade
      exact .cons hs (ih hmade)

theorem setRoot {root : Scope} {scopes : List Scope} (h : Mirrored made (scopes ++ [root]) t)
    (name : String) (v : Value) :
    Mirrored made (scopes ++ [root.bind name (.value v)]) (t.setRoot name { value := v }) := by
  induction scopes generalizing t with
  | nil =>
    cases h with
    | cons hroot hrest =>
      cases hrest
      exact .cons (hroot.bind name (.plain v)) .nil
  | cons s scopes ih =>
    cases h with
    | @cons _ m _ t hs hrest =>
      have hset := ih hrest
      cases t with
      | nil => cases scopes <;> cases hrest
      | cons m' t => exact .cons hs hset

theorem pop {root : Scope} {scopes : List Scope} (h : Mirrored made (scopes ++ [root]) t) :
    Mirrored made (scopes.tail ++ [root]) t.pop := by
  cases scopes with
  | nil =>
    cases h with
    | cons hroot hrest =>
      cases hrest
      exact .cons hroot .nil
  | cons s scopes =>
    cases h with
    | @cons _ m _ t hs hrest =>
      cases t with
      | nil => cases scopes <;> cases hrest
      | cons m' t => exact hrest

end Mirrored

theorem find?_map_entries (m : Table) (name : String) :
    Scope.find? name (m.entries.map fun x => (x.1, .value x.2.value)) =
      (m.lookup name).map fun x => .value x.value := by
  rw [AList.lookup]
  induction m.entries with
  | nil => rfl
  | cons entry entries ih =>
    obtain ⟨other, x⟩ := entry
    rw [List.map_cons, Scope.find?_cons, ih]
    by_cases hname : name = other
    · subst hname
      rw [if_pos rfl, List.dlookup_cons_eq]
      rfl
    · rw [if_neg hname, List.dlookup_cons_ne _ _ hname]

theorem value?_toContext (t : Tables) (name : String) :
    t.toContext.value? name = t.value? name := by
  have hbinding : t.toContext.binding? name = (t.cell? name).map fun x => .value x.value := by
    rw [toContext, Context.binding?, List.findSome?_append]
    induction t with
    | nil => rfl
    | cons m t ih =>
      rw [List.map_cons, List.findSome?_cons, find?_map_entries, cell?_cons]
      cases m.lookup name with
      | none => exact ih
      | some x => rfl
  rw [Context.value?, value?, hbinding, Option.map_map]
  rfl

end Tables

/-! ## Contexts and tables -/

namespace Context

/-- Whether a context stands for tables, after the values of some producers were asked for. They are
listed as often as they were, the newest first. All producers whose depth is not known are still to
come. -/
structure Mirrors (depth : Producer → Option ℕ) (asked : List Producer) (c : Context)
    (t : Tables) : Prop where
  layers : Tables.Mirrored {p | p ∈ asked} c.layers t
  placed : t.Placed depth
  known : ∀ p ∈ asked, depth p ≠ none
  journal : c.journal = asked.dedup.map fun p => .produced p.name

namespace Mirrors

variable {depth : Producer → Option ℕ} {asked : List Producer} {c : Context} {t : Tables}

theorem value?_eq (h : Mirrors depth asked c t) (name : String) :
    c.value? name = t.value? name := by
  have hrel := h.layers.cell? name
  rw [value?, Tables.value?, binding?]
  change Option.map _ (c.layers.findSome? _) = _
  generalize c.layers.findSome? (Scope.find? name) = bound at hrel ⊢
  generalize t.cell? name = found at hrel ⊢
  cases hrel with
  | none => rfl
  | some hb => exact congrArg some hb.get_eq

theorem sameValues (h : Mirrors depth asked c t) : t.toContext.SameValues c := fun name =>
  (h.value?_eq name).trans (t.value?_toContext name).symm

theorem answer_eq (h : Mirrors depth asked c t) (op : Operation) : op.answer c = op.answerIn t := by
  cases op with
  | overwrite name | lookup name => exact congrArg Answer.found (h.value?_eq name)
  | selection => exact congrArg Answer.found (h.value?_eq selectionName)
  | inlining =>
    rw [Operation.answer, Operation.answerIn, isInlining, h.value?_eq]
    cases t.value? inliningName <;> rfl
  | evaluate text =>
    exact congrArg Answer.result (Evaluator.value_congr (fun name _ => h.sameValues name) text)
  | _ => rfl

/-! ### What one operation does -/

theorem setOf_mem_cons (p : Producer) (asked : List Producer) :
    {q | q ∈ p :: asked} = insert p {q | q ∈ asked} := Set.ext fun _ => List.mem_cons

/-- A value is asked for, and made if that is the first time. -/
theorem touch (h : Mirrors depth asked c t) (name : String) :
    Mirrors depth ((t.producer? name).toList ++ asked) (c.touch name) t := by
  have hrel := h.layers.cell? name
  have hbinding : c.binding? name = c.layers.findSome? (Scope.find? name) := rfl
  rw [Context.touch, hbinding, Tables.producer?]
  generalize c.layers.findSome? (Scope.find? name) = bound at hrel ⊢
  generalize hx : t.cell? name = found at hrel ⊢
  cases hrel with
  | none => exact h
  | @some b x hb =>
    cases hb with
    | value hmade =>
      cases hp : x.producer with
      | none => simpa [hp] using h
      | some p =>
        -- It was asked for before, so that nothing is made.
        have hmem : p ∈ asked := hmade p hp
        have hsame : {q | q ∈ p :: asked} = {q | q ∈ asked} := by
          rw [setOf_mem_cons, Set.insert_eq_of_mem (hmade p hp)]
        simp only [Option.bind_some, hp, Option.toList_some, List.singleton_append]
        refine ⟨by rw [hsame]; exact h.layers, h.placed, ?_, ?_⟩
        · exact List.forall_mem_cons.mpr ⟨h.known p hmem, h.known⟩
        · rw [List.dedup_cons_of_mem hmem]
          exact h.journal
    | @lazy _ value p hvalue hp hmade =>
      -- No other cell is the producer's, so that changing this one binding is enough.
      obtain ⟨hname, k, -, hdepth⟩ := h.placed.of_cell? hx hp
      simp only [Option.bind_some, hp, Option.toList_some, List.singleton_append]
      refine ⟨?_, h.placed, ?_, ?_⟩
      · show Tables.Mirrored _ (Context.modify name (fun _ => .value value.get) c).layers t
        rw [layers_modify, hvalue, setOf_mem_cons]
        exact h.layers.produce h.placed hx hp
      · refine List.forall_mem_cons.mpr ⟨?_, h.known⟩
        rw [hdepth]
        exact Option.some_ne_none k
      · rw [List.dedup_cons_of_notMem hmade, List.map_cons, ← h.journal, hname]
        exact congrArg (Event.produced name :: ·) (journal_modify ..)

theorem touchAll (h : Mirrors depth asked c t) (names : List String) :
    Mirrors depth ((names.filterMap t.producer?).reverse ++ asked) (c.touchAll names) t := by
  induction names generalizing c asked with
  | nil => exact h
  | cons name names ih =>
    have htouch := ih (h.touch name)
    rw [List.filterMap_cons]
    cases hp : t.producer? name with
    | none =>
      rw [hp] at htouch
      exact htouch
    | some p =>
      rw [hp] at htouch
      rw [List.reverse_cons, List.append_assoc]
      exact htouch

/-- A name is bound in the innermost scope, to a value that nobody asked for yet or to one that was
never lazy. -/
theorem bindInnermost (h : Mirrors depth asked c t) {name : String} {b : Binding} {x : Cell}
    (hb : b.Stands {p | p ∈ asked} x)
    (hx : ∀ p, x.producer = some p → p.name = name ∧ depth p = some (t.length - 1)) :
    Mirrors depth asked (c.bindInnermost name b) (t.setInnermost name x) := by
  obtain ⟨s, ss, hlayers, hbind⟩ := c.exists_layers
  have hmirrored := h.layers
  rw [hlayers] at hmirrored
  cases hmirrored with
  | @cons _ m _ t hs hrest =>
    refine ⟨?_, h.placed.insert hx, h.known, ?_⟩
    · rw [hbind]
      exact .cons (hs.bind name hb) hrest
    · rw [← h.journal, Context.bindInnermost]
      cases c.scopes <;> rfl

theorem setLocal (h : Mirrors depth asked c t) (name : String) (v : Value) :
    Mirrors depth asked (c.setLocal name v) (t.setInnermost name { value := v }) :=
  h.bindInnermost (.plain v) nofun

/-- A producer is brought in. From now on its depth is known. -/
theorem bindLazy (h : Mirrors depth asked c t) {p : Producer} (hp : depth p = none)
    (value : Thunk Value) :
    Mirrors (Function.update depth p (some (t.length - 1))) asked (c.bindLazy p.name value)
      (t.setInnermost p.name ⟨value.get, some p⟩) := by
  have hnew : p ∉ asked := fun hmem => h.known p hmem hp
  have hupdate : Mirrors (Function.update depth p (some (t.length - 1))) asked c t := by
    refine ⟨h.layers, h.placed.update hp _, fun q hq => ?_, h.journal⟩
    rw [Function.update_of_ne (ne_of_mem_of_not_mem hq hnew)]
    exact h.known q hq
  refine hupdate.bindInnermost (.lazy rfl rfl hnew) fun q hq => ?_
  cases hq
  exact ⟨rfl, Function.update_self ..⟩

theorem overwrite (h : Mirrors depth asked c t) (name : String) (v : Value) :
    Mirrors depth (([name].filterMap t.producer?).reverse ++ asked) (c.overwrite name v)
      (t.overwrite name v) := by
  have htouch := h.touchAll [name]
  refine ⟨?_, htouch.placed.overwrite name v, htouch.known, ?_⟩
  · rw [Context.overwrite, layers_modify]
    refine htouch.layers.overwrite name v fun x p hx hp => ?_
    have hproducer : t.producer? name = some p := by rw [Tables.producer?, hx, Option.bind_some, hp]
    simp [hproducer]
  · rw [Context.overwrite, journal_modify]
    exact htouch.journal

/-- Every operation keeps a context and tables alike, if it brings in no producer that was there
before. -/
theorem step (h : Mirrors depth asked c t) (op : Operation)
    (hfresh : ∀ p, op.producer? = some p → depth p = none) :
    ∃ depth', Mirrors depth' ((op.asks t).reverse ++ asked) (op.perform c) (op.performIn t) ∧
      ∀ p, depth' p ≠ none → depth p ≠ none ∨ op.producer? = some p := by
  have hsame (p : Producer) : depth p ≠ none → depth p ≠ none ∨ op.producer? = some p := .inl
  cases op with
  | set name v =>
    exact ⟨depth, ⟨h.layers.setRoot name v, h.placed.setRoot name v, h.known, h.journal⟩, hsame⟩
  | setLocal name v => exact ⟨depth, h.setLocal name v, hsame⟩
  | bindLazy p value =>
    refine ⟨_, h.bindLazy (hfresh p rfl) value, fun q hq => ?_⟩
    by_cases hqp : q = p
    · exact .inr (congrArg some hqp.symm)
    · rw [Function.update_of_ne hqp] at hq
      exact .inl hq
  | push =>
    refine ⟨depth, ⟨.cons (.empty _) h.layers, ⟨fun name x p hx => ?_, h.placed⟩, h.known,
      h.journal⟩, hsame⟩
    rw [AList.lookup_empty] at hx
    cases hx
  | pop => exact ⟨depth, ⟨h.layers.pop, h.placed.pop, h.known, h.journal⟩, hsame⟩
  | setSelection v => exact ⟨depth, h.setLocal selectionName v, hsame⟩
  | setInlining on => exact ⟨depth, h.setLocal inliningName (.bool on), hsame⟩
  | overwrite name v => exact ⟨depth, h.overwrite name v, hsame⟩
  | lookup name => exact ⟨depth, h.touchAll [name], hsame⟩
  | selection => exact ⟨depth, h.touchAll [selectionName], hsame⟩
  | inlining => exact ⟨depth, h.touchAll [inliningName], hsame⟩
  | evaluate text =>
    refine ⟨depth, ?_, hsame⟩
    rw [Operation.perform, Evaluator.evaluate,
      Evaluator.reads_congr (fun name _ => h.sameValues name) text]
    exact h.touchAll _

/-- Every sequence of operations does. -/
theorem run (h : Mirrors depth asked c t) (ops : List Operation)
    (hnodup : (ops.filterMap Operation.producer?).Nodup)
    (hfresh : ∀ p ∈ ops.filterMap Operation.producer?, depth p = none) :
    ∃ depth', Mirrors depth' ((t.asks ops).reverse ++ asked) (c.after ops) (t.after ops) := by
  induction ops generalizing depth asked c t with
  | nil => exact ⟨depth, h⟩
  | cons op ops ih =>
    have hrest := (List.sublist_cons_self op ops).filterMap Operation.producer?
    obtain ⟨depth₁, hstep, hdepth₁⟩ := h.step op fun p hp =>
      hfresh p (List.mem_filterMap.mpr ⟨op, List.mem_cons_self, hp⟩)
    rw [Tables.asks, List.reverse_append, List.append_assoc]
    refine ih hstep (hnodup.sublist hrest) fun p hp => ?_
    by_contra hknown
    obtain hold | hop := hdepth₁ p hknown
    · exact hold (hfresh p (hrest.subset hp))
    · rw [List.filterMap_cons_some hop] at hnodup
      exact (List.nodup_cons.mp hnodup).1 hp

theorem ofValue {data : Value} (hc : Context.ofValue data = .ok c) :
    Mirrors (fun _ => none) [] c (Tables.ofValue data) := by
  cases data with
  | null =>
    cases hc
    exact ⟨.cons (.entries _ []) .nil, .entries [], nofun, rfl⟩
  | object entries =>
    cases hc
    exact ⟨.cons (.entries _ entries) .nil, .entries entries, nofun, rfl⟩
  | _ => cases hc

theorem tables_ne_nil (h : Mirrors depth asked c t) : t ≠ [] := by
  have hlength := h.layers.length_eq
  rw [Context.layers, List.length_append, List.length_singleton] at hlength
  exact List.ne_nil_of_length_pos (hlength ▸ Nat.succ_pos _)

end Mirrors

/-- Whatever was done with a context that started from an object, where no two lazy bindings have
the same producer: it answers like tables in which all values are there from the start, the values
of producers were made once each, for those that were looked up and no others, and what happened in
a scope that was left again makes no difference. -/
theorem answer_after {data : Value} {c : Context} (hc : Context.ofValue data = .ok c)
    (ops : List Operation) (hnodup : (ops.filterMap Operation.producer?).Nodup) :
    (∀ op : Operation, op.answer (c.after ops) = op.answerIn ((Tables.ofValue data).after ops)) ∧
    ((c.after ops).journal =
        ((Tables.ofValue data).asked ops).map fun p => .produced p.name) ∧
    ((Tables.ofValue data).asked ops).Nodup ∧
    (∀ p, p ∈ (Tables.ofValue data).asked ops ↔ ∃ front op back, ops = front ++ op :: back ∧
      ∃ name ∈ op.names ((Tables.ofValue data).after front),
        ((Tables.ofValue data).after front).producer? name = some p) ∧
    ∀ front inner back, ops = front ++ (.push :: inner ++ .pop :: back) → Enclosed inner →
      ∀ op : Operation, op.answer (c.after ops) = op.answer (c.after (front ++ back)) := by
  have hstart := Mirrors.ofValue hc
  obtain ⟨_, hrun⟩ := hstart.run ops hnodup fun _ _ => rfl
  refine ⟨hrun.answer_eq, ?_, List.nodup_dedup _, fun p => ?_, ?_⟩
  · rw [hrun.journal, List.append_nil, Tables.asked]
  · rw [Tables.asked, List.mem_dedup, List.mem_reverse, Tables.mem_asks]
  · rintro front inner back rfl hinner op
    have hback : back.Sublist (.push :: inner ++ .pop :: back) :=
      (List.sublist_cons_self _ back).trans (List.sublist_append_right _ _)
    obtain ⟨_, hwithout⟩ := hstart.run (front ++ back)
      (hnodup.sublist ((hback.append_left front).filterMap _)) fun _ _ => rfl
    obtain ⟨_, hfront⟩ := hstart.run front
      (hnodup.sublist ((List.sublist_append_left front _).filterMap _)) fun _ _ => rfl
    rw [hrun.answer_eq, hwithout.answer_eq, Tables.after_append _ front,
      Tables.after_scope hinner hfront.tables_ne_nil, Tables.after_append]

/-- A lazy binding is shadowed, and only the one that shadows it is looked up, twice. -/
theorem answer_after_shadowing :
    let x : Producer := ⟨"x", 0⟩
    let y : Producer := ⟨"x", 1⟩
    let inner : List Operation := [.bindLazy y (.pure (.integer 2)), .lookup "x", .lookup "x"]
    let before : List Operation := [.bindLazy x (.pure (.integer 1))]
    let ops := before ++ (.push :: inner ++ [.pop])
    Context.ofValue .null = .ok {} ∧ (ops.filterMap Operation.producer?).Nodup ∧
      (Operation.lookup "x").answer (after {} ops) = .found (some (.integer 1)) ∧
      (after {} ops).journal = [.produced "x"] ∧
      (Operation.lookup "x").answer (after {} ops) =
        (Operation.lookup "x").answer (after {} before) := by
  intro x y inner before ops
  have hstart : Context.ofValue .null = .ok {} := rfl
  have hnodup : (ops.filterMap Operation.producer?).Nodup := by decide
  have hinner : Enclosed inner := .cons trivial (.cons trivial (.cons trivial .nil))
  obtain ⟨hanswer, hjournal, -, -, hscope⟩ := answer_after hstart ops hnodup
  refine ⟨hstart, hnodup, ?_, ?_, hscope before inner [] rfl hinner _⟩
  · rw [hanswer]
    rfl
  · rw [hjournal]
    rfl

end Context
end NaturalTemplate
