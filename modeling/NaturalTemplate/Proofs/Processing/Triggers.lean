import NaturalTemplate.Proofs.Processing.Scopes
import NaturalTemplate.Proofs.Processor.Registry

/-!
# The attributes that call for a processor

Before a processor is called for an element, the attributes that call for it are taken off, one name
after the other, and each time the first attribute of that name goes. As a name claims an attribute
in every spelling, the first one left is always the next that was claimed: so all that were claimed
go and nothing else does, and the first of them is what the processor sees.
-/
namespace NaturalTemplate
open Markup

/-! ## Taking attributes off -/

theorem Target.claims_congr {t : Target} {a b : Attribute}
    (h : Text.sameName a.name b.name = true) : t.claims a = t.claims b := by
  cases t with
  | «attribute» qualified data => simp only [Target.claims, Text.sameName_iff.mp h]
  | element name => rfl

/-- The attributes that are taken off an element for a processor are all those that call for it. -/
theorem takeAttributes_claimed (t : Target) (e : Element) :
    takeAttributes e (t.claimed e) =
      (e.attributes.filter t.claims, e.withAttributes (e.attributes.filter (!t.claims ·))) := by
  generalize hclaimed : e.attributes.filter t.claims = claimed
  induction claimed generalizing e with
  | nil =>
    have hnone := List.filter_eq_nil_iff.mp hclaimed
    have hrest : e.attributes.filter (!t.claims ·) = e.attributes :=
      List.filter_eq_self.mpr fun a ha => by simpa using hnone a ha
    rw [Target.claimed, hclaimed, hrest]
    rfl
  | cons a claimed ih =>
    obtain ⟨front, back, hsplit, hfront, ha, hback⟩ := List.filter_eq_cons_iff.mp hclaimed
    -- The attribute of that name that is removed first is the one that was claimed first.
    have hother : ∀ b ∈ front, ¬ b.isNamed a.name = true := fun b hb hnamed =>
      hfront b hb ((Target.claims_congr hnamed).trans ha)
    have hself : a.isNamed a.name = true := Text.sameName_refl a.name
    have hfront' : front.filter t.claims = [] := List.filter_eq_nil_iff.mpr hfront
    have hfound : e.attribute? a.name = some a := by
      rw [Element.attribute?, hsplit, List.find?_append,
        List.find?_eq_none.mpr hother, Option.none_or, List.find?_cons, hself]
    have hremoved : e.removeAttribute a.name = e.withAttributes (front ++ back) := by
      rw [Element.removeAttribute, Attribute.remove, hsplit, List.eraseP_append_right _ hother,
        List.eraseP_cons, hself, cond_true]
    have hnames : t.claimed e = a.name :: t.claimed (e.withAttributes (front ++ back)) := by
      simp [Target.claimed, hsplit, hfront', ha]
    have hleft : (e.withAttributes (front ++ back)).attributes.filter t.claims = claimed := by
      simp [hfront', hback]
    have hrest : (front ++ back).filter (!t.claims ·) =
        e.attributes.filter (!t.claims ·) := by
      simp [hsplit, ha]
    rw [hnames, takeAttributes, hfound, hremoved, ih _ hleft, ← hrest]
    rfl

/-! ## The names of a processor -/

/-- Whether an attribute has one of the names that call for the processor. -/
def Registered.isCalledBy (x : Registered) (a : Attribute) : Bool :=
  x.names.any (Text.sameName a.name)

theorem Registered.claims_entry {x : Registered} {name : String}
    (hrule : x.processor.rule = .attribute name) : x.entry.target.claims = x.isCalledBy := by
  funext a
  by_cases hq : x.qualifier = "" <;>
    simp [entry, isCalledBy, names, Target.ofRule, Target.qualify, Target.claims, Text.sameName,
      hrule, hq]

theorem Registry.exists_of_mem_entries {ds : List Dialect} {r : Registry}
    (hr : ofDialects ds = .ok r) {p : Entry} (hp : p ∈ r.entries) :
    ∃ x ∈ Dialect.registered ds, x.entry = p := by
  obtain ⟨i, j, x, y, -, -, -, herror⟩ | ⟨-, hok⟩ := ofDialects_cases ds
  · cases herror.symm.trans hr
  · cases hok.symm.trans hr
    exact List.mem_map.mp ((sort_perm _).subset hp)

/-- When a processor for an attribute is called for an element, exactly the attributes go that have
one of its names in some spelling. All others stay, in their order, and the processor is called with
the first of those that went. -/
theorem Registry.call_takes {ds : List Dialect} {r : Registry} (hr : ofDialects ds = .ok r)
    {p : Entry} (hp : p ∈ r.entries) {name : String} (hrule : p.processor.rule = .attribute name)
    {e : Element} (hmatch : p.target.matches? e = true) (ev : Evaluator) :
    ∃ x ∈ Dialect.registered ds, x.entry = p ∧
      let own := e.attributes.filter x.isCalledBy
      let rest := e.withAttributes (e.attributes.filter (!x.isCalledBy ·))
      takeAttributes e (p.target.claimed e) = (own, rest) ∧
      ∃ a, own.head? = some a ∧ ∀ run : Run, p.call ev e run =
        match p.processor.run ⟨ev, some a⟩ ⟨rest, run.context⟩ with
        | .ok directive w =>
          .ok (directive, w.element)
            ⟨w.context, .called p ⟨e, run.context⟩ (.ok directive) :: run.deeds⟩
        | .error cause w =>
          .error (.error (cause.attributed p.id e.location))
            ⟨w.context, .called p ⟨e, run.context⟩
              (.error (cause.attributed p.id e.location)) :: run.deeds⟩ := by
  obtain ⟨x, hx, rfl⟩ := exists_of_mem_entries hr hp
  have hclaims := Registered.claims_entry hrule
  have htaken := takeAttributes_claimed x.entry.target e
  rw [hclaims] at htaken
  refine ⟨x, hx, rfl, htaken, ?_⟩
  obtain ⟨b, hb, hcalled⟩ : ∃ b ∈ e.attributes, x.isCalledBy b = true := by
    have hrule' : x.processor.rule = .attribute name := hrule
    rw [← hclaims, ← List.any_eq_true]
    simpa only [Registered.entry, Target.ofRule, hrule', Target.matches?] using hmatch
  have hne : e.attributes.filter x.isCalledBy ≠ [] :=
    List.ne_nil_of_mem (List.mem_filter.mpr ⟨hb, hcalled⟩)
  refine ⟨_, List.head?_eq_some_head hne, fun run => ?_⟩
  have hcall := @Entry.call_run ev x.entry e run
  rw [Entry.calledWith, Entry.workspace, htaken, List.head?_eq_some_head hne] at hcall
  exact hcall

/-- The attributes of one processor stand in three spellings among others. -/
theorem Registry.call_takes_spellings :
    let p := Processor.forAttribute "x" 1 fun call => do
      Work.changeElement fun e => e.setAttribute "was" call.value
      return .proceed
    let x : Registered := ⟨"d", "t", 1, p⟩
    let e : Element := (Element.make "p").withAttributes
      [.make "id" "i", .make "DATA-t-X" "1", .make "t:y" "0", .make "T:x" "2", .make "t:x" "3"]
    ∃ r, ofDialects [⟨"d", "t", 1, [p]⟩] = .ok r ∧ x.entry ∈ r.entries ∧
      x.entry.processor.rule = .attribute "x" ∧ x.entry.target.matches? e = true ∧
      takeAttributes e (x.entry.target.claimed e) =
        ([.make "DATA-t-X" "1", .make "T:x" "2", .make "t:x" "3"],
          e.withAttributes [.make "id" "i", .make "t:y" "0"]) ∧
      ∀ run : Run, x.entry.call .standard e run =
        .ok (.proceed, e.withAttributes [.make "id" "i", .make "t:y" "0", .make "was" "1"])
          ⟨run.context, .called x.entry ⟨e, run.context⟩ (.ok .proceed) :: run.deeds⟩ := by
  intro p x e
  have hr : ofDialects [⟨"d", "t", 1, [p]⟩] = .ok ⟨[x.entry], ["d"]⟩ := rfl
  have hmem : x.entry ∈ [x.entry] := List.mem_singleton.mpr rfl
  have hmatch : x.entry.target.matches? e = true := by decide +kernel
  obtain ⟨y, hy, -, htaken, a, ha, hcall⟩ := call_takes hr hmem rfl hmatch .standard
  obtain rfl : y = x := List.mem_singleton.mp hy
  have hown : e.attributes.filter x.isCalledBy =
      [.make "DATA-t-X" "1", .make "T:x" "2", .make "t:x" "3"] := by decide +kernel
  have hrest : e.attributes.filter (!x.isCalledBy ·) = [.make "id" "i", .make "t:y" "0"] := by
    decide +kernel
  rw [hown] at ha htaken
  rw [hrest] at htaken hcall
  cases ha
  refine ⟨_, hr, hmem, rfl, hmatch, htaken, fun run => ?_⟩
  rw [hcall]
  rfl

end NaturalTemplate
