import Mathlib.Data.List.AList
import NaturalTemplate.Expression.Evaluator

/-!
# Contexts as plain tables

What is done with a context, and what each operation answers, once for contexts as they are and once
for a stack of tables from names to values. The tables know nothing of laziness: a value that is
bound lazily is there from the start. They keep the producer it comes from, so that one can say
which producers were asked for.
-/
namespace NaturalTemplate

/-- What tells lazy bindings apart: the name that is bound, and a number. -/
structure Producer where
  name : String
  number : ℕ
deriving DecidableEq

namespace Context

inductive Operation where
  | set (name : String) (v : Value)
  | setLocal (name : String) (v : Value)
  | bindLazy (p : Producer) (value : Thunk Value)
  | push
  | pop
  | setSelection (v : Value)
  | setInlining (on : Bool)
  | overwrite (name : String) (v : Value)
  | lookup (name : String)
  | selection
  | inlining
  | evaluate (text : String)

inductive Answer where
  | done
  | found (v : Option Value)
  | flag (on : Bool)
  | result (r : Except EngineError Value)

namespace Operation

/-- The producer that an operation brings in. -/
def producer? : Operation → Option Producer
  | bindLazy p _ => some p
  | _ => none

/-- What an operation does to a context. -/
def perform : Operation → Context → Context
  | set name v, c => c.set name v
  | setLocal name v, c => c.setLocal name v
  | bindLazy p value, c => c.bindLazy p.name value
  | push, c => c.push
  | pop, c => c.pop
  | setSelection v, c => c.setSelection v
  | setInlining on, c => c.setInlining on
  | overwrite name v, c => c.overwrite name v
  | lookup name, c => c.touch name
  | selection, c => c.touch selectionName
  | inlining, c => c.touch inliningName
  | evaluate text, c => (Evaluator.standard.evaluate text c).2

/-- What an operation answers. Overwriting gives the value that was there before. -/
def answer : Operation → Context → Answer
  | overwrite name _, c | lookup name, c => .found (c.value? name)
  | selection, c => .found c.selection?
  | inlining, c => .flag c.isInlining
  | evaluate text, c => .result (Evaluator.standard.evaluate text c).1
  | _, _ => .done

end Operation

/-- A context after some operations. -/
def after (c : Context) (ops : List Operation) : Context := ops.foldl (fun c op => op.perform c) c

end Context

/-! ## Tables -/

/-- A value, and the producer that it comes from if it was bound lazily. -/
structure Cell where
  value : Value
  producer : Option Producer := none

/-- What names stand for. -/
abbrev Table := AList fun _ : String => Cell

/-- A stack of tables, the innermost one first. The last one is the root. -/
abbrev Tables := List Table

namespace Tables
open Context

/-- The entries of an object at the root. -/
def ofValue : Value → Tables
  | .object entries => [(entries.map fun (name, v) => ⟨name, { value := v }⟩).toAList]
  | _ => [∅]

/-- The innermost cell of a name. -/
def cell? (t : Tables) (name : String) : Option Cell := t.findSome? fun m => m.lookup name

def value? (t : Tables) (name : String) : Option Value := (t.cell? name).map Cell.value

/-- The producer of the value that a name stands for, if it was bound lazily. -/
def producer? (t : Tables) (name : String) : Option Producer := (t.cell? name).bind Cell.producer

def setRoot (name : String) (x : Cell) : Tables → Tables
  | [] => []
  | [m] => [m.insert name x]
  | m :: t => m :: setRoot name x t

def setInnermost (name : String) (x : Cell) : Tables → Tables
  | [] => []
  | m :: t => m.insert name x :: t

def push (t : Tables) : Tables := ∅ :: t

/-- Takes the innermost table away, but not the root. -/
def pop : Tables → Tables
  | _ :: m :: t => m :: t
  | t => t

/-- Puts another value in the innermost cell of a name. -/
def overwrite (name : String) (v : Value) : Tables → Tables
  | [] => []
  | m :: t =>
    match m.lookup name with
    | some x => m.insert name { x with value := v } :: t
    | none => m :: overwrite name v t

/-- A context with the same values. -/
def toContext (t : Tables) : Context where
  scopes := t.map fun m => m.entries.map fun x => (x.1, .value x.2.value)

end Tables

namespace Context.Operation

/-- What an operation does to tables. -/
def performIn : Operation → Tables → Tables
  | set name v, t => t.setRoot name { value := v }
  | setLocal name v, t => t.setInnermost name { value := v }
  | bindLazy p value, t => t.setInnermost p.name ⟨value.get, some p⟩
  | push, t => t.push
  | pop, t => t.pop
  | setSelection v, t => t.setInnermost selectionName { value := v }
  | setInlining on, t => t.setInnermost inliningName { value := .bool on }
  | overwrite name v, t => t.overwrite name v
  | _, t => t

def answerIn : Operation → Tables → Answer
  | overwrite name _, t | lookup name, t => .found (t.value? name)
  | selection, t => .found (t.value? selectionName)
  | inlining, t => .flag ((t.value? inliningName).any Value.isTruthy)
  | evaluate text, t => .result (Evaluator.standard.value t.toContext text)
  | _, _ => .done

/-- The names that an operation looks up. -/
def names : Operation → Tables → List String
  | overwrite name _, _ | lookup name, _ => [name]
  | selection, _ => [selectionName]
  | inlining, _ => [inliningName]
  | evaluate text, t => Evaluator.standard.reads t.toContext text
  | _, _ => []

/-- The producers of the values that an operation looks up, in order. -/
def asks (op : Operation) (t : Tables) : List Producer := (op.names t).filterMap t.producer?

/-- Whether an operation only binds in the innermost scope, or looks something up. -/
def IsLocal : Operation → Prop
  | set .. | push | pop | overwrite .. => False
  | _ => True

end Context.Operation

/-- Tables after some operations. -/
def Tables.after (t : Tables) (ops : List Context.Operation) : Tables :=
  ops.foldl (fun t op => op.performIn t) t

/-- The producers of all values that are looked up by some operations, in order. -/
def Tables.asks (t : Tables) : List Context.Operation → List Producer
  | [] => []
  | op :: ops => op.asks t ++ asks (op.performIn t) ops

/-- The producers whose values are looked up by some operations, each of them once, the one that is
looked up first at the end. -/
def Tables.asked (t : Tables) (ops : List Context.Operation) : List Producer :=
  (t.asks ops).reverse.dedup

/-- Operations that bind in scopes of their own and look things up. -/
inductive Context.Enclosed : List Operation → Prop where
  | nil : Enclosed []
  | cons {op : Operation} {ops : List Operation} (hop : op.IsLocal) (h : Enclosed ops) :
    Enclosed (op :: ops)
  | nest {inner ops : List Operation} (hinner : Enclosed inner) (h : Enclosed ops) :
    Enclosed (.push :: inner ++ .pop :: ops)

namespace Tables
open Context

variable {t : Tables} {m : Table} {name : String}

@[simp]
theorem after_nil (t : Tables) : t.after [] = t := rfl

@[simp]
theorem after_cons (t : Tables) (op : Operation) (ops : List Operation) :
    t.after (op :: ops) = (op.performIn t).after ops := rfl

theorem after_append (t : Tables) (ops more : List Operation) :
    t.after (ops ++ more) = (t.after ops).after more := List.foldl_append

theorem cell?_cons (m : Table) (t : Tables) (name : String) :
    cell? (m :: t) name = (m.lookup name).or (t.cell? name) := by
  rw [cell?, List.findSome?_cons]
  cases m.lookup name <;> rfl

theorem mem_asks {ops : List Operation} {p : Producer} :
    p ∈ t.asks ops ↔ ∃ front op back, ops = front ++ op :: back ∧
      ∃ name ∈ op.names (t.after front), (t.after front).producer? name = some p := by
  induction ops generalizing t with
  | nil => simp [asks]
  | cons op ops ih =>
    rw [asks, List.mem_append, ih, Operation.asks, List.mem_filterMap]
    constructor
    · rintro (hop | ⟨front, next, back, rfl, hnext⟩)
      · exact ⟨[], op, ops, rfl, hop⟩
      · exact ⟨op :: front, next, back, rfl, hnext⟩
    · rintro ⟨front, next, back, hops, hnext⟩
      cases front with
      | nil =>
        cases hops
        exact .inl hnext
      | cons first front =>
        cases hops
        exact .inr ⟨front, next, back, rfl, hnext⟩

/-! ## Scopes that are left again -/

theorem performIn_of_isLocal {op : Operation} (hop : op.IsLocal) (m : Table) (t : Tables) :
    ∃ m', op.performIn (m :: t) = m' :: t := by
  cases op with
  | set | push | pop | overwrite => cases hop
  | _ => exact ⟨_, rfl⟩

/-- Operations in scopes of their own leave all tables but the innermost one. -/
theorem after_of_enclosed {ops : List Operation} (h : Enclosed ops) (m : Table) (t : Tables) :
    ∃ m', after (m :: t) ops = m' :: t := by
  induction h generalizing m t with
  | nil => exact ⟨m, rfl⟩
  | cons hop _ ih =>
    obtain ⟨m₁, hop⟩ := performIn_of_isLocal hop m t
    rw [after_cons, hop]
    exact ih m₁ t
  | nest _ _ ihinner ih =>
    obtain ⟨m₁, hinner⟩ := ihinner ∅ (m :: t)
    rw [List.cons_append, after_cons, after_append, after_cons]
    rw [show Operation.push.performIn (m :: t) = ∅ :: m :: t from rfl, hinner]
    exact ih m t

/-- A scope that is left again leaves the tables as they were, for all that comes later. -/
theorem after_scope {inner : List Operation} (h : Enclosed inner) (ht : t ≠ [])
    (back : List Operation) : t.after (.push :: inner ++ .pop :: back) = t.after back := by
  obtain ⟨m, t, rfl⟩ := List.exists_cons_of_ne_nil ht
  obtain ⟨m', hinner⟩ := after_of_enclosed h ∅ (m :: t)
  rw [List.cons_append, after_cons, after_append, after_cons]
  rw [show Operation.push.performIn (m :: t) = ∅ :: m :: t from rfl, hinner]
  rfl

end Tables
end NaturalTemplate
