import NaturalTemplate.Proofs.Context.History
import NaturalTemplate.Standard.Structure

/-!
# What no expression can see

The names that are kept for the engine are no identifiers. Whatever the text of an expression is,
only the values of identifiers and of the selected object are looked up, so that it has the same
value whatever is bound to other names, and what is bound to them stays as it is: a value that was
not asked for before is not made.
-/
namespace NaturalTemplate

instance (name : String) : Decidable (IsReadable name) :=
  inferInstanceAs (Decidable (_ ∨ _))

namespace Scope

/-- The bindings of names that no expression can ask for. -/
def hidden (s : Scope) : Scope := s.filter fun x => ¬IsReadable x.1

theorem hidden_modify {name : String} (hname : IsReadable name) (f : Binding → Binding)
    (s : Scope) : (s.modify name f).hidden = s.hidden := by
  induction s with
  | nil => rfl
  | cons x s ih =>
    obtain ⟨n, b⟩ := x
    rw [modify]
    split
    · next hn =>
      subst hn
      rw [hidden, hidden, List.filter_cons_of_neg (by simpa), List.filter_cons_of_neg (by simpa)]
    · rw [hidden, List.filter_cons, ← hidden, ih, hidden, hidden, List.filter_cons]

theorem hidden_modifyFirst {name : String} (hname : IsReadable name) (f : Binding → Binding)
    (ss : List Scope) : (modifyFirst name f ss).map hidden = ss.map hidden := by
  induction ss with
  | nil => rfl
  | cons s ss ih =>
    rw [modifyFirst]
    split
    · rw [List.map_cons, List.map_cons, hidden_modify hname]
    · rw [List.map_cons, List.map_cons, ih]

end Scope

namespace Context

/-- In every scope, the bindings of names that no expression can ask for. -/
def hidden (c : Context) : List Scope := c.layers.map Scope.hidden

/-- Asking for a value makes it at most once, and changes nothing that is hidden. -/
theorem touch_readable {name : String} (hname : IsReadable name) (c : Context) :
    (c.touch name).hidden = c.hidden ∧
      ((c.touch name).journal = c.journal ∨
        (c.touch name).journal = .produced name :: c.journal) := by
  rw [touch]
  split
  · next producer _ =>
    refine ⟨?_, .inr (congrArg _ (journal_modify name _ c))⟩
    show (c.modify name _).layers.map Scope.hidden = _
    rw [layers_modify, Scope.hidden_modifyFirst hname, hidden]
  · exact ⟨rfl, .inl rfl⟩

theorem touchAll_readable {names : List String} (hnames : ∀ name ∈ names, IsReadable name)
    (c : Context) : (c.touchAll names).hidden = c.hidden ∧
      ∃ made : List String, (∀ name ∈ made, IsReadable name) ∧
        (c.touchAll names).journal = made.map .produced ++ c.journal := by
  induction names generalizing c with
  | nil => exact ⟨rfl, [], nofun, rfl⟩
  | cons name names ih =>
    rw [List.forall_mem_cons] at hnames
    obtain ⟨hhidden, hjournal⟩ := touch_readable hnames.1 c
    obtain ⟨hrest, made, hmade, hmore⟩ := ih hnames.2 (c.touch name)
    refine ⟨hrest.trans hhidden, ?_⟩
    obtain hjournal | hjournal := hjournal
    · exact ⟨made, hmade, by rw [← hjournal]; exact hmore⟩
    · refine ⟨made ++ [name], ?_, ?_⟩
      · simpa [or_imp, forall_and] using ⟨hmade, hnames.1⟩
      · rw [List.map_append, List.append_assoc]
        exact hmore.trans (congrArg _ hjournal)

theorem sameReadable_bindInnermost {name : String} (hname : ¬IsReadable name) (b : Binding)
    (c : Context) : c.SameReadable (c.bindInnermost name b) := by
  intro other hother
  have hne : other ≠ name := by
    rintro rfl
    exact hname hother
  exact value?_bindInnermost hne b c

end Context

namespace Evaluator

/-- An expression has the same value, or fails with the same error, wherever identifiers and the
selection have the same values. It makes no lazy value of another name and leaves their bindings
alone; so nothing that is kept under a reserved name makes a difference to it. -/
theorem evaluate_standard_hidden (text : String) {c d : Context}
    (hvariables : ∀ name, isIdentifier name = true → d.value? name = c.value? name)
    (hselection : d.selection? = c.selection?) :
    (standard.evaluate text d).1 = (standard.evaluate text c).1 ∧
    (∃ made : List String,
      (∀ name ∈ made, isIdentifier name = true ∨ name = Context.selectionName) ∧
      (standard.evaluate text c).2.journal = made.map .produced ++ c.journal) ∧
    (standard.evaluate text c).2.hidden = c.hidden ∧
    (∀ name b, ¬IsReadable name →
      (standard.evaluate text (c.bindInnermost name b)).1 = (standard.evaluate text c).1) ∧
    ¬IsReadable Standard.switchName ∧ ¬IsReadable Context.inliningName := by
  have hsame : c.SameReadable d := by
    rintro name (hname | rfl)
    · exact hvariables name hname
    · exact hselection
  obtain ⟨hhidden, hmade⟩ :=
    c.touchAll_readable fun name hname => Expr.isReadable_of_mem_reads
      (e := Expr.parse text.toList) hname
  refine ⟨value_congr hsame text, hmade, hhidden, fun name b hname => ?_, by decide, by decide⟩
  exact value_congr (Context.sameReadable_bindInnermost hname b c) text

/-- The switch in one context and the flag for text in the other make no difference. -/
theorem evaluate_standard_hidden_switch :
    let start : Context := { root := [("x", .value (.integer 1))] }
    let c := start.bindLazy Standard.switchName (.pure (.integer 2))
    let d := start.setInlining true
    (∀ name, isIdentifier name = true → d.value? name = c.value? name) ∧
    d.selection? = c.selection? ∧
    (standard.evaluate "${x}" d).1 = (standard.evaluate "${x}" c).1 ∧
    (standard.evaluate "${x}" c).2.hidden = c.hidden := by
  intro start c d
  have hc : start.SameReadable c :=
    Context.sameReadable_bindInnermost (show ¬IsReadable Standard.switchName by decide) _ start
  have hd : start.SameReadable d :=
    Context.sameReadable_bindInnermost (show ¬IsReadable Context.inliningName by decide) _ start
  have hvariables (name : String) (hname : isIdentifier name = true) :
      d.value? name = c.value? name :=
    (hd name (.inl hname)).trans (hc name (.inl hname)).symm
  have hselection : d.selection? = c.selection? := hd.selection?_eq.trans hc.selection?_eq.symm
  obtain ⟨hsame, -, hhidden, -⟩ := evaluate_standard_hidden "${x}" hvariables hselection
  exact ⟨hvariables, hselection, hsame, hhidden⟩

end Evaluator
end NaturalTemplate
