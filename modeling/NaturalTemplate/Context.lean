import NaturalTemplate.Context.Journal
import NaturalTemplate.Error

/-!
# Contexts

The variables that expressions can see: a stack of scopes above the root bindings. A name stands for
its innermost binding. A value that is bound lazily is computed when it is first asked for, and its
binding holds the value from then on; asking is `touch`, and what is asked for does not depend on
it.
-/
namespace NaturalTemplate

inductive Binding where
  | value (v : Value)
  /-- A value that nobody has asked for yet. -/
  | lazy (producer : Thunk Value)
deriving Inhabited

/-- The value that a binding stands for. -/
def Binding.get : Binding → Value
  | value v => v
  | lazy producer => producer.get

/-- The bindings of a scope. Of two with the same name the first counts. -/
abbrev Scope := List (String × Binding)

namespace Scope

def find? (name : String) (s : Scope) : Option Binding := s.lookup name

def bind (name : String) (b : Binding) (s : Scope) : Scope := (name, b) :: s

/-- Changes the binding of a name that is bound here. -/
def modify (name : String) (f : Binding → Binding) : Scope → Scope
  | [] => []
  | (n, b) :: s => if n = name then (n, f b) :: s else (n, b) :: modify name f s

/-- Changes the innermost binding of a name in some scopes, if they have one. -/
def modifyInnermost? (name : String) (f : Binding → Binding) : List Scope → Option (List Scope)
  | [] => none
  | s :: ss =>
    if (s.find? name).isSome then some (s.modify name f :: ss)
    else (modifyInnermost? name f ss).map (s :: ·)

end Scope

structure Context where
  root : Scope := []
  /-- The scopes above the root, innermost first. -/
  scopes : List Scope := []
  /-- What happened so far, newest first. -/
  journal : List Event := []
deriving Inhabited

namespace Context

/-- The name of the object that selection expressions start from. As it is no identifier, no
expression can say it. -/
def selectionName : String := "#object"

/-- The name under which it is kept whether text is expanded. -/
def inliningName : String := "#inline"

/-- The context whose root bindings are the entries of an object. Null has none. -/
def ofValue : Value → Except TypeError Context
  | .null => .ok {}
  | .object entries => .ok { root := entries.map fun (name, v) => (name, .value v) }
  | v => .error (.rootNotObject v.type)

/-! ## Looking up -/

def binding? (c : Context) (name : String) : Option Binding :=
  (c.scopes ++ [c.root]).findSome? (Scope.find? name)

def value? (c : Context) (name : String) : Option Value :=
  (c.binding? name).map Binding.get

def selection? (c : Context) : Option Value := c.value? selectionName

/-- Whether expressions in text are expanded. -/
def isInlining (c : Context) : Bool :=
  match c.value? inliningName with
  | some v => v.isTruthy
  | none => false

/-- The number of scopes above the root. -/
def depth (c : Context) : Nat := c.scopes.length

/-! ## Changing -/

/-- Binds a name at the root. -/
def set (name : String) (v : Value) (c : Context) : Context :=
  { c with root := c.root.bind name (.value v) }

/-- Binds a name in the innermost scope. -/
def bindInnermost (name : String) (b : Binding) (c : Context) : Context :=
  match c.scopes with
  | [] => { c with root := c.root.bind name b }
  | s :: ss => { c with scopes := s.bind name b :: ss }

def setLocal (name : String) (v : Value) (c : Context) : Context :=
  c.bindInnermost name (.value v)

/-- Binds a name to a value that is computed when it is first asked for. -/
def bindLazy (name : String) (producer : Thunk Value) (c : Context) : Context :=
  c.bindInnermost name (.lazy producer)

def setSelection (v : Value) (c : Context) : Context := c.setLocal selectionName v

def setInlining (on : Bool) (c : Context) : Context := c.setLocal inliningName (.bool on)

def push (c : Context) : Context := { c with scopes := [] :: c.scopes }

def pop (c : Context) : Context := { c with scopes := c.scopes.tail }

/-- Changes the innermost binding of a name, if it has one. -/
def modify (name : String) (f : Binding → Binding) (c : Context) : Context :=
  match Scope.modifyInnermost? name f c.scopes with
  | some scopes => { c with scopes }
  | none => { c with root := c.root.modify name f }

def note (e : Event) (c : Context) : Context := { c with journal := e :: c.journal }

/-- Asks for the value of a name. If it was bound lazily and not asked for before, it is
computed. -/
def touch (name : String) (c : Context) : Context :=
  match c.binding? name with
  | some (.lazy producer) =>
    (c.modify name fun _ => .value producer.get).note (.produced name)
  | _ => c

def touchAll (names : List String) (c : Context) : Context :=
  names.foldl (fun c name => c.touch name) c

/-- Puts another value in place of that of the innermost binding of a name, after asking for it. -/
def overwrite (name : String) (v : Value) (c : Context) : Context :=
  (c.touch name).modify name fun _ => .value v

@[simp]
theorem pop_push (c : Context) : c.push.pop = c := rfl

@[simp]
theorem value?_push (c : Context) (name : String) : c.push.value? name = c.value? name := rfl

@[simp]
theorem touchAll_nil (c : Context) : c.touchAll [] = c := rfl

end Context
end NaturalTemplate
