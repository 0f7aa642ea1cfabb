import Mathlib.Order.Defs.Unbundled
import NaturalTemplate.Proofs.Context.Frame
import NaturalTemplate.Processing.Nodes

/-!
# What a computation keeps of the context

The work of a processor and a part of a run both have a context in their state, and leave one also
when they fail. How the context that is left is related to the first one is found by going through
the steps.
-/
namespace NaturalTemplate
open Markup

/-- The state that a computation leaves, also if it fails. -/
def finalState {ε σ α : Type} : EStateM.Result ε σ α → σ
  | .ok _ s => s
  | .error _ s => s

/-- Whether a computation succeeds with a result and a state that pass a test. -/
def passes {ε σ α : Type} (p : α → σ → Bool) : EStateM.Result ε σ α → Bool
  | .ok a s => p a s
  | .error _ _ => false

theorem exists_of_passes {ε σ α : Type} {p : α → σ → Bool} {r : EStateM.Result ε σ α}
    (h : passes p r = true) : ∃ a s, r = .ok a s ∧ p a s = true := by
  cases r with
  | ok a s => exact ⟨a, s, rfl, h⟩
  | error => exact absurd h Bool.false_ne_true

section
variable {ε σ α β : Type} {view : σ → Context} {R S : Context → Context → Prop}
  {x : EStateM ε σ α} {f : α → EStateM ε σ β}

theorem get_bind_apply (g : σ → EStateM ε σ α) (s : σ) : (get >>= g) s = g s s := rfl

/-- From wherever a computation starts, the context that it leaves is related to the one at the
start. -/
def Keeps (view : σ → Context) (R : Context → Context → Prop) (x : EStateM ε σ α) : Prop :=
  ∀ s, R (view s) (view (finalState (x s)))

namespace Keeps

theorem mono (hx : Keeps view R x) (hRS : ∀ c d, R c d → S c d) : Keeps view S x :=
  fun s => hRS _ _ (hx s)

/-- A computation that goes on with the state that it starts from. -/
theorem get_bind {g : σ → EStateM ε σ α} (hg : ∀ s, R (view s) (view (finalState (g s s)))) :
    Keeps view R (get >>= g) := hg

variable [IsPreorder Context R]

theorem pure (a : α) : Keeps view R (Pure.pure a : EStateM ε σ α) := fun _ => refl_of R _

theorem throw (e : ε) : Keeps view R (MonadExcept.throw e : EStateM ε σ α) := fun _ => refl_of R _

/-- The second computation has to keep the relation for the results of the first one only. -/
theorem bind_of (hx : Keeps view R x)
    (hf : ∀ a s t, x s = .ok a t → R (view t) (view (finalState (f a t)))) :
    Keeps view R (x >>= f) := by
  intro s
  have hs := hx s
  show R (view s) (view (finalState (EStateM.bind x f s)))
  unfold EStateM.bind
  cases h : x s with
  | ok a t =>
    rw [h] at hs
    exact trans_of R hs (hf a s t h)
  | error e t =>
    rw [h] at hs
    exact hs

theorem bind (hx : Keeps view R x) (hf : ∀ a, Keeps view R (f a)) : Keeps view R (x >>= f) :=
  hx.bind_of fun a _ t _ => hf a t

end Keeps
end

namespace Context

variable {written : Set String}

instance : IsPreorder Context (Frame written) where
  refl := Frame.refl
  trans _ _ _ := Frame.trans

instance : IsPreorder Context (OuterFrame written) where
  refl c := (Frame.refl c).outer
  trans _ _ _ := OuterFrame.trans

instance : IsPreorder Context (Changed written) where
  refl := Changed.refl
  trans _ _ _ := Changed.trans

/-- Relations that last while expressions are evaluated and the innermost scope gets variables, a
selection and a rule for text. -/
class Lasting (R : Context → Context → Prop) : Prop extends IsPreorder Context R where
  evaluate (ev : Evaluator) (text : String) (c : Context) : R c (ev.evaluate text c).2
  setLocal {name : String} (hname : isIdentifier name = true) (v : Value) (c : Context) :
    R c (c.setLocal name v)
  setSelection (v : Value) (c : Context) : R c (c.setSelection v)
  setInlining (on : Bool) (c : Context) : R c (c.setInlining on)

instance : Lasting (Changed written) where
  evaluate := .evaluate
  setLocal _ := .setLocal _
  setSelection := .setSelection
  setInlining := .setInlining

end Context

/-! ## The work of processors -/

namespace Work

variable {R : Context → Context → Prop}

theorem keeps_changeContext {f : Context → Context} (hf : ∀ c, R c (f c)) :
    Keeps Workspace.context R (changeContext f) := fun w => hf w.context

variable [IsPreorder Context R]

theorem keeps_element : Keeps Workspace.context R Work.element := fun _ => refl_of R _

theorem keeps_context : Keeps Workspace.context R Work.context := fun _ => refl_of R _

theorem keeps_changeElement (f : Element → Element) :
    Keeps Workspace.context R (changeElement f) := fun _ => refl_of R _

theorem keeps_ofExcept {α : Type} (x : Except EngineError α) :
    Keeps Workspace.context R (ofExcept x) := by
  cases x with
  | ok a => exact .pure a
  | error e => exact .throw e

theorem keeps_text (v : Value) : Keeps Workspace.context R (text v) := keeps_ofExcept _

end Work

namespace Call

variable {R : Context → Context → Prop} [Context.Lasting R]

theorem keeps_evaluate (call : Call) (expression : String) :
    Keeps Workspace.context R (call.evaluate expression) := by
  intro w
  have hrest : R (call.evaluator.evaluate expression w.context).2 _ :=
    Work.keeps_ofExcept (call.evaluator.evaluate expression w.context).1
      { w with context := (call.evaluator.evaluate expression w.context).2 }
  exact trans_of R (Context.Lasting.evaluate _ _ _) hrest

theorem keeps_evaluateValue (call : Call) : Keeps Workspace.context R call.evaluateValue :=
  call.keeps_evaluate _

end Call

/-- A processor that changes the context only by binding names in the innermost scope, asking for
values, taking notes, and changing the bindings of names that may be written. -/
def Processor.Writes (written : Set String) (p : Processor) : Prop :=
  ∀ call, Keeps Workspace.context (Context.Changed written) (p.run call)

theorem Processor.Writes.mono {written allowed : Set String} {p : Processor}
    (h : p.Writes written) (hsub : written ⊆ allowed) : p.Writes allowed :=
  fun call => (h call).mono fun _ _ hchanged => hchanged.mono hsub

/-- A processor that changes the bindings of the innermost scope only. -/
def Processor.IsLocal (p : Processor) : Prop := p.Writes ∅

/-! ## Parts of a run -/

namespace Running

variable {α : Type} {R : Context → Context → Prop} {written : Set String}

theorem keeps_changeContext {f : Context → Context} (hf : ∀ c, R c (f c)) :
    Keeps Run.context R (changeContext f) := fun r => hf r.context

/-- What is done in a scope of its own leaves the frame of all scopes. -/
theorem keeps_inScope {x : Running α} (hx : Keeps Run.context (Context.OuterFrame written) x) :
    Keeps Run.context (Context.Frame written) (inScope x) := by
  intro r
  have hpop := (hx { r with context := r.context.push }).pop_push
  unfold inScope
  cases h : x { r with context := r.context.push } with
  | ok a t =>
    rw [h] at hpop
    exact hpop
  | error e t =>
    rw [h] at hpop
    exact hpop

variable [IsPreorder Context R]

theorem keeps_andThen {x y : Running Emitted} (hx : Keeps Run.context R x)
    (hy : Keeps Run.context R y) : Keeps Run.context R (andThen x y) := by
  refine hx.bind fun first => ?_
  split
  · exact .pure first
  · exact hy.bind fun second => .pure _

end Running
end NaturalTemplate
