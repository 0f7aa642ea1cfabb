import Mathlib.Data.List.Forall2
import Mathlib.Data.Prod.Lex
import NaturalTemplate.Processor.Registry

/-!
# What is registered and in what order

A registry is made from processors in the order in which they were registered. Those that clash,
that is, that match the same names with equal precedences, are refused, and the first two are named.
All others are put in the order of their precedences with the order of registration kept where these
are equal. A list that is sorted is known from its ties, so that nothing but their order matters.
-/
namespace NaturalTemplate

/-- A processor with what its dialect adds to it. -/
structure Registered where
  dialect : String
  qualifier : String
  dialectPrecedence : Int
  processor : Processor

namespace Registered

def id (x : Registered) : String := x.dialect ++ ":" ++ x.processor.name

/-- The names that call for the processor. A rule about attributes has two of them and one about
elements has one, so that rules of both kinds never have the same names. -/
def names (x : Registered) : List String :=
  let q := x.qualifier
  match x.processor.rule with
  | .attribute n =>
    if q = "" then [n, "data-" ++ n] else [q ++ ":" ++ n, "data-" ++ q ++ "-" ++ n]
  | .element n => if q = "" then [n] else [q ++ ":" ++ n]

/-- What the precedences say about the place of a processor. -/
def rank (x : Registered) : Int ×ₗ Int :=
  toLex (x.dialectPrecedence, x.processor.precedence)

/-- Two processors that no order is given for and that match the same names. -/
structure Clashes (x y : Registered) : Prop where
  dialect : x.dialectPrecedence = y.dialectPrecedence
  processor : x.processor.precedence = y.processor.precedence
  names : List.Forall₂ (fun m n => Text.sameName m n = true) x.names y.names

def entry (x : Registered) : Entry :=
  ⟨x.id, x.dialectPrecedence, .ofRule x.qualifier x.processor.rule, x.processor⟩

theorem target_eq_iff (x y : Registered) : x.entry.target = y.entry.target ↔
    List.Forall₂ (fun m n => Text.sameName m n = true) x.names y.names := by
  cases hx : x.processor.rule <;> cases hy : y.processor.rule <;>
    by_cases hq : x.qualifier = "" <;> by_cases hq' : y.qualifier = "" <;>
    simp [entry, names, Target.ofRule, Target.qualify, hx, hy, hq, hq']

theorem conflictsWith_iff (x y : Registered) :
    x.entry.conflictsWith y.entry = true ↔ x.Clashes y := by
  simp only [Entry.conflictsWith, Bool.and_eq_true, beq_iff_eq, target_eq_iff]
  exact ⟨fun h => ⟨h.1.1, h.1.2, h.2⟩, fun h => ⟨⟨h.dialect, h.processor⟩, h.names⟩⟩

/-- The processors at two places of a list clash. -/
def ClashAt (xs : List Registered) (i j : Nat) : Prop :=
  i < j ∧ ∃ x y, xs[i]? = some x ∧ xs[j]? = some y ∧ x.Clashes y

/-- The first two places at which processors clash: no pair that clashes has an earlier first place,
and none with the same first place has an earlier second one. -/
structure FirstClash (xs : List Registered) (i j : Nat) : Prop where
  clash : ClashAt xs i j
  first : ∀ i' j', ClashAt xs i' j' → i < i' ∨ i = i' ∧ j ≤ j'

end Registered

/-- The processors of some dialects in the order in which they are registered. -/
def Dialect.registered (ds : List Dialect) : List Registered :=
  ds.flatMap fun d => d.processors.map (Registered.mk d.name d.qualifier d.precedence)

theorem Dialect.flatMap_entries (ds : List Dialect) :
    ds.flatMap Dialect.entries = (registered ds).map Registered.entry := by
  simp only [registered, List.map_flatMap, List.map_map]
  rfl

namespace Registered
variable {x : Registered} {xs : List Registered} {i j i' j' : Nat}

theorem clashAt_succ : ClashAt (x :: xs) (i + 1) (j + 1) ↔ ClashAt xs i j := by
  simp [ClashAt]

theorem clashAt_zero : ClashAt (x :: xs) 0 (j + 1) ↔ ∃ y, xs[j]? = some y ∧ x.Clashes y := by
  simp [ClashAt]

theorem not_clashAt_zero : ¬ClashAt xs i 0 := fun h => Nat.not_lt_zero _ h.1

/-- The clash of a processor with the first of those behind it that it clashes with. -/
theorem FirstClash.head {y : Registered} (hy : xs[j]? = some y) (hclash : x.Clashes y)
    (h : ∀ j' z, j' < j → xs[j']? = some z → ¬x.Clashes z) : FirstClash (x :: xs) 0 (j + 1) := by
  refine ⟨clashAt_zero.mpr ⟨y, hy, hclash⟩, fun i' j' h' => ?_⟩
  match i', j' with
  | i' + 1, _ => exact .inl i'.succ_pos
  | 0, 0 => exact (not_clashAt_zero h').elim
  | 0, j' + 1 =>
    obtain ⟨z, hz, hxz⟩ := clashAt_zero.mp h'
    exact .inr ⟨rfl, Nat.succ_le_succ (Nat.le_of_not_lt fun hlt => h j' z hlt hz hxz)⟩

/-- The first clash behind a processor that clashes with none of the others. -/
theorem FirstClash.cons (h : FirstClash xs i j) (hx : ∀ y ∈ xs, ¬x.Clashes y) :
    FirstClash (x :: xs) (i + 1) (j + 1) := by
  refine ⟨clashAt_succ.mpr h.clash, fun i' j' h' => ?_⟩
  match i', j' with
  | _, 0 => exact (not_clashAt_zero h').elim
  | 0, j' + 1 =>
    obtain ⟨y, hy, hclash⟩ := clashAt_zero.mp h'
    exact (hx y (List.mem_of_getElem? hy) hclash).elim
  | i' + 1, j' + 1 =>
    have := h.first i' j' (clashAt_succ.mp h')
    omega

theorem pairwise_iff_not_clashAt :
    (xs.Pairwise fun x y => ¬x.Clashes y) ↔ ∀ i j, ¬ClashAt xs i j := by
  rw [List.pairwise_iff_getElem]
  constructor
  · rintro h i j ⟨hlt, x, y, hx, hy, hclash⟩
    obtain ⟨hi, rfl⟩ := List.getElem?_eq_some_iff.mp hx
    obtain ⟨hj, rfl⟩ := List.getElem?_eq_some_iff.mp hy
    exact h i j hi hj hlt hclash
  · intro h i j hi hj hlt hclash
    exact h i j ⟨hlt, _, _, List.getElem?_eq_getElem hi, List.getElem?_eq_getElem hj, hclash⟩

theorem Clashes.rank_eq {y : Registered} (h : x.Clashes y) : x.rank = y.rank := by
  rw [rank, rank, h.dialect, h.processor]

/-- It is enough to look for clashes among processors of one rank. -/
theorem pairwise_of_filter_rank
    (h : ∀ k, (xs.filter (·.rank = k)).Pairwise fun x y => ¬x.Clashes y) :
    xs.Pairwise fun x y => ¬x.Clashes y := by
  induction xs with
  | nil => exact .nil
  | cons x xs ih =>
    refine List.pairwise_cons.mpr ⟨fun y hy hclash => ?_, ih fun k => (h k).sublist ?_⟩
    · have hx := h x.rank
      rw [List.filter_cons_of_pos (by simp)] at hx
      refine List.rel_of_pairwise_cons hx (List.mem_filter.mpr ⟨hy, ?_⟩) hclash
      simp [hclash.rank_eq]
    · exact (List.sublist_cons_self x xs).filter _

theorem FirstClash.unique (h : FirstClash xs i j) (h' : FirstClash xs i' j') :
    i = i' ∧ j = j' := by
  have := h.first i' j' h'.clash
  have := h'.first i j h.clash
  omega

end Registered

namespace Registry
open Registered (ClashAt FirstClash)
variable {xs : List Registered}

theorem not_clashAt_of_firstConflict? (h : firstConflict? (xs.map Registered.entry) = none)
    (i j : Nat) : ¬ClashAt xs i j := by
  induction xs generalizing i j with
  | nil => simp [ClashAt]
  | cons x xs ih =>
    rw [List.map_cons, firstConflict?] at h
    split at h
    · cases h
    · next hnone =>
      intro hclash
      match i, j with
      | _, 0 => exact Registered.not_clashAt_zero hclash
      | 0, j + 1 =>
        obtain ⟨y, hy, hxy⟩ := Registered.clashAt_zero.mp hclash
        refine List.find?_eq_none.mp hnone y.entry ?_ ((x.conflictsWith_iff y).mpr hxy)
        exact List.mem_map_of_mem (List.mem_of_getElem? hy)
      | i + 1, j + 1 => exact ih h i j (Registered.clashAt_succ.mp hclash)

theorem firstClash_of_firstConflict? {a b : Entry}
    (h : firstConflict? (xs.map Registered.entry) = some (a, b)) : ∃ i j x y,
      FirstClash xs i j ∧ xs[i]? = some x ∧ xs[j]? = some y ∧ a = x.entry ∧ b = y.entry := by
  induction xs with
  | nil => cases h
  | cons x xs ih =>
    rw [List.map_cons, firstConflict?] at h
    split at h
    · next b' hsome =>
      cases h
      obtain ⟨hxb, j, hj, hb, hbefore⟩ := List.find?_eq_some_iff_getElem.mp hsome
      rw [List.length_map] at hj
      rw [List.getElem_map] at hb
      subst hb
      have hget : xs[j]? = some xs[j] := List.getElem?_eq_getElem hj
      refine ⟨0, j + 1, x, xs[j], .head hget ((x.conflictsWith_iff _).mp hxb) ?_, rfl, by simp, rfl,
        rfl⟩
      intro j' z hlt hz hxz
      obtain ⟨_, rfl⟩ := List.getElem?_eq_some_iff.mp hz
      have hne := hbefore j' hlt
      rw [List.getElem_map, (x.conflictsWith_iff _).mpr hxz] at hne
      cases hne
    · next hnone =>
      obtain ⟨i, j, y, z, hfirst, hy, hz, ha, hb⟩ := ih h
      refine ⟨i + 1, j + 1, y, z, hfirst.cons fun w hw hclash => ?_, by simpa using hy,
        by simpa using hz, ha, hb⟩
      exact List.find?_eq_none.mp hnone w.entry (List.mem_map_of_mem hw)
        ((x.conflictsWith_iff w).mpr hclash)

end Registry

namespace Entry

def rank (a : Entry) : Int ×ₗ Int := toLex (a.dialectPrecedence, a.processor.precedence)

@[simp]
theorem rank_entry (x : Registered) : x.entry.rank = x.rank := rfl

theorem mayPrecede_iff (a b : Entry) : a.mayPrecede b = true ↔ a.rank ≤ b.rank := by
  simp [mayPrecede, rank, Prod.Lex.toLex_le_toLex]

/-- An entry stands in a list among those of its rank. -/
theorem mem_iff_of_filter_rank {as bs : List Entry}
    (h : ∀ k, as.filter (·.rank = k) = bs.filter (·.rank = k)) (a : Entry) : a ∈ as ↔ a ∈ bs := by
  simpa using congrArg (a ∈ ·) (h a.rank)

theorem rank_le_of_mem {a b : Entry} {as : List Entry}
    (h : (a :: as).Pairwise fun a b => a.rank ≤ b.rank) (hb : b ∈ a :: as) :
    a.rank ≤ b.rank := by
  obtain rfl | hb := List.mem_cons.mp hb
  · exact le_rfl
  · exact List.rel_of_pairwise_cons h hb

/-- Entries that are in order are known from those of each rank. -/
theorem eq_of_filter_rank {as bs : List Entry} (has : as.Pairwise fun a b => a.rank ≤ b.rank)
    (hbs : bs.Pairwise fun a b => a.rank ≤ b.rank)
    (h : ∀ k, as.filter (·.rank = k) = bs.filter (·.rank = k)) : as = bs := by
  have hmem := mem_iff_of_filter_rank h
  induction as generalizing bs with
  | nil =>
    have hnil : bs = [] :=
      List.eq_nil_iff_forall_not_mem.mpr fun b hb => by simpa using (hmem b).mpr hb
    exact hnil.symm
  | cons a as ih =>
    cases bs with
    | nil => simpa using (hmem a).mp List.mem_cons_self
    | cons b bs =>
      have hrank : a.rank = b.rank :=
        le_antisymm (rank_le_of_mem has ((hmem b).mpr List.mem_cons_self))
          (rank_le_of_mem hbs ((hmem a).mp List.mem_cons_self))
      obtain rfl : a = b := by
        have := h b.rank
        simp only [List.filter_cons, hrank, decide_true, if_true, List.cons.injEq] at this
        exact this.1
      have htail : ∀ k, as.filter (·.rank = k) = bs.filter (·.rank = k) := by
        intro k
        have := h k
        simp only [List.filter_cons] at this
        split at this
        · exact (List.cons.inj this).2
        · exact this
      exact congrArg (a :: ·) (ih has.tail hbs.tail htail (mem_iff_of_filter_rank htail))

end Entry

namespace Registry
open Registered (ClashAt FirstClash)

theorem insert_perm (a : Entry) (entries : List Entry) :
    (insert a entries).Perm (a :: entries) := by
  induction entries with
  | nil => exact .refl _
  | cons b entries ih =>
    rw [insert]
    split
    · exact .refl _
    · exact (ih.cons b).trans (.swap a b entries)

theorem sort_perm (entries : List Entry) : (sort entries).Perm entries := by
  induction entries with
  | nil => exact .refl _
  | cons a entries ih => exact (insert_perm a (sort entries)).trans (ih.cons a)

theorem insert_pairwise {a : Entry} {entries : List Entry}
    (h : entries.Pairwise fun a b => a.rank ≤ b.rank) :
    (insert a entries).Pairwise fun a b => a.rank ≤ b.rank := by
  induction entries with
  | nil => exact List.pairwise_singleton _ _
  | cons b entries ih =>
    rw [insert]
    split
    · next hab =>
      rw [Entry.mayPrecede_iff] at hab
      refine List.pairwise_cons.mpr ⟨fun c hc => ?_, h⟩
      obtain rfl | hc := List.mem_cons.mp hc
      · exact hab
      · exact hab.trans (List.rel_of_pairwise_cons h hc)
    · next hab =>
      rw [Entry.mayPrecede_iff, not_le] at hab
      refine List.pairwise_cons.mpr ⟨fun c hc => ?_, ih h.tail⟩
      obtain rfl | hc := List.mem_cons.mp ((insert_perm a entries).subset hc)
      · exact hab.le
      · exact List.rel_of_pairwise_cons h hc

theorem sort_pairwise (entries : List Entry) :
    (sort entries).Pairwise fun a b => a.rank ≤ b.rank := by
  induction entries with
  | nil => exact .nil
  | cons a entries ih => exact insert_pairwise ih

/-- An entry is put in front of all others of its rank. -/
theorem filter_rank_insert (a : Entry) (entries : List Entry) (k : Int ×ₗ Int) :
    (insert a entries).filter (·.rank = k) = (a :: entries).filter (·.rank = k) := by
  induction entries with
  | nil => rfl
  | cons b entries ih =>
    rw [insert]
    split
    · rfl
    · next hab =>
      rw [Entry.mayPrecede_iff, not_le] at hab
      -- What it is put behind has another rank.
      by_cases ha : a.rank = k
      · have hb : b.rank ≠ k := fun hb => (hab.trans_eq (ha.trans hb.symm)).false
        rw [List.filter_cons_of_neg (by simpa using hb), ih]
        simp [ha, hb]
      · rw [List.filter_cons, ih]
        simp [List.filter_cons, ha]

theorem filter_rank_sort (entries : List Entry) (k : Int ×ₗ Int) :
    (sort entries).filter (·.rank = k) = entries.filter (·.rank = k) := by
  induction entries with
  | nil => rfl
  | cons a entries ih =>
    rw [sort, List.foldr_cons, ← sort, filter_rank_insert, List.filter_cons, List.filter_cons, ih]

/-- Two lists of dialects register the same processors, and those of equal rank in the same order.
It does not matter in which order the dialects come, in which order the processors stand in them and
how those of different ranks are mixed. -/
def KeepsTies (ds ds' : List Dialect) : Prop :=
  ∀ k, (Dialect.registered ds').filter (·.rank = k) = (Dialect.registered ds).filter (·.rank = k)

/-- Entries that processors are called by: each of those that were registered stands in them once,
they are in the order of the ranks, and where ranks are equal in that of registration. -/
structure Dispatches (xs : List Registered) (entries : List Entry) : Prop where
  once : entries.Perm (xs.map Registered.entry)
  sorted : entries.Pairwise fun a b => a.rank ≤ b.rank
  stable : ∀ k, entries.filter (·.rank = k) = (xs.filter (·.rank = k)).map Registered.entry

theorem dispatches_sort (xs : List Registered) :
    Dispatches xs (sort (xs.map Registered.entry)) where
  once := sort_perm _
  sorted := sort_pairwise _
  stable k := by
    rw [filter_rank_sort, List.filter_map]
    rfl

theorem Dispatches.unique {xs ys : List Registered} {as bs : List Entry} (has : Dispatches xs as)
    (hbs : Dispatches ys bs) (h : ∀ k, ys.filter (·.rank = k) = xs.filter (·.rank = k)) :
    as = bs := by
  refine Entry.eq_of_filter_rank has.sorted hbs.sorted fun k => ?_
  rw [has.stable, hbs.stable, h]

theorem ofDialects_cases (ds : List Dialect) :
    (∃ i j x y, FirstClash (Dialect.registered ds) i j ∧ (Dialect.registered ds)[i]? = some x ∧
      (Dialect.registered ds)[j]? = some y ∧ ofDialects ds = .error (.conflict x.id y.id)) ∨
    (∀ i j, ¬ClashAt (Dialect.registered ds) i j) ∧ ofDialects ds =
      .ok ⟨sort ((Dialect.registered ds).map Registered.entry), ds.map Dialect.name⟩ := by
  rw [ofDialects, Dialect.flatMap_entries]
  cases h : firstConflict? ((Dialect.registered ds).map Registered.entry) with
  | none => exact .inr ⟨not_clashAt_of_firstConflict? h, rfl⟩
  | some ab =>
    obtain ⟨i, j, x, y, hfirst, hx, hy, ha, hb⟩ := firstClash_of_firstConflict? h
    exact .inl ⟨i, j, x, y, hfirst, hx, hy, by simp only [ha, hb]; rfl⟩

/-- Rearranging the processors makes none clash, since those that clash have the same rank. -/
theorem not_clashAt_of_keepsTies {ds ds' : List Dialect} (hties : KeepsTies ds ds')
    (h : ∀ i j, ¬ClashAt (Dialect.registered ds) i j) (i j : Nat) :
    ¬ClashAt (Dialect.registered ds') i j := by
  rw [← Registered.pairwise_iff_not_clashAt] at h
  revert i j
  rw [← Registered.pairwise_iff_not_clashAt]
  exact Registered.pairwise_of_filter_rank fun k => hties k ▸ h.filter _

/-- Registering fails with the first two processors that clash, and it fails with nothing else.
Otherwise every processor is called at the place that its rank and, among equal ranks, its
registration give it; and the entries stay the same however the dialects and what is in them are
rearranged as long as this keeps the order among equal ranks. -/
theorem ofDialects_spec (ds : List Dialect) :
    (∀ e, ofDialects ds = .error e ↔ ∃ i j x y, FirstClash (Dialect.registered ds) i j ∧
      (Dialect.registered ds)[i]? = some x ∧ (Dialect.registered ds)[j]? = some y ∧
        e = .conflict x.id y.id) ∧
    ((∃ e, ofDialects ds = .error e) ↔ ∃ i j, ClashAt (Dialect.registered ds) i j) ∧
    ∀ r, ofDialects ds = .ok r → Dispatches (Dialect.registered ds) r.entries ∧
      r.dialects = ds.map Dialect.name ∧ ∀ ds', KeepsTies ds ds' →
        ∃ r', ofDialects ds' = .ok r' ∧ r'.entries = r.entries := by
  obtain ⟨i, j, x, y, hfirst, hx, hy, hds⟩ | ⟨hclash, hds⟩ := ofDialects_cases ds
  · rw [hds]
    refine ⟨fun e => ⟨fun he => ⟨i, j, x, y, hfirst, hx, hy, (Except.error.inj he).symm⟩, ?_⟩,
      ⟨fun _ => ⟨i, j, hfirst.clash⟩, fun _ => ⟨_, rfl⟩⟩, fun r hr => by cases hr⟩
    rintro ⟨i', j', x', y', hfirst', hx', hy', rfl⟩
    obtain ⟨rfl, rfl⟩ := hfirst.unique hfirst'
    rw [Option.some.inj (hx.symm.trans hx'), Option.some.inj (hy.symm.trans hy')]
  · rw [hds]
    refine ⟨fun e => ⟨nofun, ?_⟩, ⟨nofun, fun ⟨i, j, h⟩ => (hclash i j h).elim⟩, ?_⟩
    · rintro ⟨i, j, -, -, hfirst, -⟩
      exact (hclash i j hfirst.clash).elim
    rintro r ⟨⟩
    refine ⟨dispatches_sort _, rfl, fun ds' hties => ?_⟩
    obtain ⟨i, j, -, -, hfirst, -⟩ | ⟨-, hds'⟩ := ofDialects_cases ds'
    · exact (not_clashAt_of_keepsTies hties hclash i j hfirst.clash).elim
    · exact ⟨_, hds', ((dispatches_sort _).unique (dispatches_sort _) hties).symm⟩

/-- The later dialect comes first by its precedence, and of the processors of the other one only the
two with equal precedences have to stay in order. -/
theorem ofDialects_rearranged :
    let p := fun name precedence => Processor.forAttribute name precedence fun _ => pure .proceed
    let ds :=
      [⟨"d", "x", 10, [p "late" 50, p "early" 5, p "tie" 50]⟩, ⟨"first", "y", 1, [p "any" 99]⟩]
    let ds' :=
      [⟨"first", "y", 1, [p "any" 99]⟩, ⟨"d", "x", 10, [p "early" 5, p "late" 50, p "tie" 50]⟩]
    ∃ r r', ofDialects ds = .ok r ∧ KeepsTies ds ds' ∧ ofDialects ds' = .ok r' ∧
      r'.entries = r.entries ∧ r.ids = ["first:any", "d:early", "d:late", "d:tie"] := by
  intro p ds ds'
  have hties : KeepsTies ds ds' := by
    intro k
    by_cases hearly : toLex (10, 5) = k
    · subst hearly
      rfl
    by_cases hany : toLex (1, 99) = k
    · subst hany
      rfl
    simp [ds, ds', p, Dialect.registered, Registered.rank, Processor.forAttribute, hearly, hany,
      List.filter_cons]
  have hconflict : (firstConflict? (ds.flatMap Dialect.entries)).isNone = true := by
    decide +kernel
  rw [Option.isNone_iff_eq_none] at hconflict
  have hds : ofDialects ds = .ok ⟨sort (ds.flatMap Dialect.entries), ["d", "first"]⟩ := by
    simp only [ofDialects, hconflict]
    rfl
  obtain ⟨r', hr', hentries⟩ := ((ofDialects_spec ds).2.2 _ hds).2.2 ds' hties
  exact ⟨_, r', hds, hties, hr', hentries, by decide +kernel⟩

end Registry
end NaturalTemplate
