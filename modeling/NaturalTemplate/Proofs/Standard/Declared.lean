import NaturalTemplate.Processor.Directive
import NaturalTemplate.Proofs.Expression.Reading
import NaturalTemplate.Standard.Declaration

/-!
# How a repetition is declared

The names of a repetition stand before the first colon, with a comma between them and white space
around each, and the expression is all that comes after it.
-/
namespace NaturalTemplate
open Grammar

/-- A text is cut at the separator behind it where nothing in it opens anything. -/
theorem Nesting.splitOnce?_of_plain {separator : Char} {cs : List Char}
    (hplain : ∀ c ∈ cs, c ∉ Balanced.openers) (hcs : ∀ c ∈ cs, c ≠ separator) (ds : List Char) :
    splitOnce? separator {} (cs ++ separator :: ds) = some (cs, ds) := by
  induction cs with
  | nil =>
    rw [List.nil_append, splitOnce?, if_pos ⟨rfl, rfl⟩]
  | cons c cs ih =>
    obtain ⟨hc, hplain⟩ := List.forall_mem_cons.mp hplain
    obtain ⟨hne, hcs⟩ := List.forall_mem_cons.mp hcs
    rw [List.cons_append, splitOnce?, if_neg fun h => hne h.1, Balanced.step_of_not_mem hc 0,
      ih hplain hcs]
    rfl

/-- A character that no name has and that is no white space does not stand around a name. -/
theorem Grammar.Segment.ne_of_mem (s : Segment) {c : Char} (hname : Text.isNameChar c = false)
    (hblank : Text.isBlank c = false) : ∀ d ∈ s.chars, d ≠ c := by
  rintro d hd rfl
  rw [chars, List.mem_append, List.mem_append] at hd
  obtain hd | hd | hd := hd
  · exact Bool.false_ne_true (hblank.symm.trans (s.before.blank _ hd))
  · exact Bool.false_ne_true (hname.symm.trans (s.name.isNameChar _ hd))
  · exact Bool.false_ne_true (hblank.symm.trans (s.after.blank _ hd))

namespace Standard

/-- `item : expression` or `item, status : expression`. -/
structure Declaration where
  item : Segment
  status : Option Segment
  expression : String

namespace Declaration

/-- What stands before the colon. -/
def names (d : Declaration) : List Char :=
  match d.status with
  | none => d.item.chars
  | some status => d.item.chars ++ ',' :: status.chars

def chars (d : Declaration) : List Char := d.names ++ ':' :: d.expression.toList

/-- The name that the item is bound to. -/
def binding (d : Declaration) : String := d.item.name.name

/-- The name that the status is bound to: the one that is declared, or else one that is made of the
name of the item. -/
def statusName (d : Declaration) : String :=
  match d.status with
  | none => d.binding ++ "Stat"
  | some status => status.name.name

theorem plain_names (d : Declaration) :
    ∀ c ∈ d.names, c ∉ Nesting.Balanced.openers ∧ c ≠ ':' := by
  have hsegment (s : Segment) : ∀ c ∈ s.chars, c ∉ Nesting.Balanced.openers ∧ c ≠ ':' :=
    fun c hc => ⟨(s.plain c hc).1, s.ne_of_mem (by decide +kernel) (by decide) c hc⟩
  obtain ⟨item, status, expression⟩ := d
  cases status with
  | none => exact hsegment item
  | some status =>
    intro c hc
    obtain hc | hc := List.mem_append.mp hc
    · exact hsegment item c hc
    · obtain rfl | hc := List.mem_cons.mp hc
      · decide
      · exact hsegment status c hc

theorem pieces_names (d : Declaration) :
    Text.pieces ',' d.names = d.item.chars :: (d.status.map Segment.chars).toList := by
  have hcomma (s : Segment) : ∀ c ∈ s.chars, c ≠ ',' :=
    s.ne_of_mem (by decide +kernel) (by decide)
  obtain ⟨item, status, expression⟩ := d
  cases status with
  | none => exact pieces_self (hcomma item)
  | some status =>
    show Text.pieces ',' (item.chars ++ ',' :: status.chars) = _
    rw [pieces_append (hcomma item), pieces_self (hcomma status)]
    rfl

/-- A declaration is read as what it declares. -/
theorem iteration_chars (d : Declaration) :
    iteration (String.ofList d.chars) =
      .ok ⟨d.binding, d.status.map fun status => status.name.name, d.expression⟩ := by
  have hcut := Nesting.splitOnce?_of_plain (fun c hc => (d.plain_names c hc).1)
    (fun c hc => (d.plain_names c hc).2) d.expression.toList
  have hvalid (s : Segment) : isIdentifier s.name.name = true := s.name.valid
  rw [iteration, String.toList_ofList, chars, hcut]
  dsimp only
  rw [pieces_names]
  obtain ⟨item, status, expression⟩ := d
  cases status with
  | none => simp [item.trim_chars, hvalid, binding]
  | some status => simp [item.trim_chars, status.trim_chars, hvalid, binding]

theorem getD_statusName (d : Declaration) :
    (d.status.map fun status => status.name.name).getD (IterationStatus.defaultName d.binding) =
      d.statusName := by
  obtain ⟨item, status, expression⟩ := d
  cases status <;> rfl

end Declaration
end Standard
end NaturalTemplate
