import NaturalTemplate.Proofs.Markup.Endings
import NaturalTemplate.Proofs.Processing.Leaves
import NaturalTemplate.Proofs.Standard.Termination

/-!
# How elements end that are processed

The standard processors set and remove attributes, set the body to a text, and take children away.
When an element is put out its children are exchanged for what they became, which is nothing where
there were none. So a processed element ends as one that was changed: it closes itself only as long
as it has no children.
-/
namespace NaturalTemplate.Standard
open Markup

variable {ev : Evaluator} {pending : List Entry} {children : Bool} {e e' : Element} {r s : Run}

/-! ## What the processors leave -/

/-- What is left of an element while its processors are called. Where its children are not to be
processed there is no element among them. -/
def IsLeft (e : Element) (children : Bool) (e' : Element) : Prop :=
  e.Continues e' ∧ (children = false → Node.elements e'.children = [])

theorem isLeft_self (e : Element) : IsLeft e true e := ⟨.refl e, fun h => Bool.noConfusion h⟩

theorem stable_isLeft (e : Element) (children : Bool) :
    Stable Set.univ (IsLeft e children) where
  setAttribute h _ _ _ := ⟨h.1.trans (.withAttributes _ _), h.2⟩
  removeAttribute h _ _ := ⟨h.1.trans (.withAttributes _ _), h.2⟩
  setBody h body := by
    refine ⟨h.1.trans (.setChildren _ _), fun _ => ?_⟩
    rw [children_setChildren, elements_bodyNodes]
  keepFirstElement {e'} h := by
    have hsub := keepFirstElement_sublist e'.children
    refine ⟨h.1.trans (.withChildren fun hnil => ?_), fun hchildren => ?_⟩
    · rw [hnil]
      rfl
    · have helements := Node.elements_sublist hsub
      rw [h.2 hchildren] at helements
      exact List.sublist_nil.mp helements

theorem IsLeft.takeAttributes (h : IsLeft e children e') (p : Entry) :
    IsLeft e children (takeAttributes e' (p.target.claimed e')).2 := by
  rw [takeAttributes_claimed]
  exact ⟨h.1.trans (.withAttributes _ _), h.2⟩

/-- What the processors leave of an element that is put out, or repeated. -/
def LeavesOutcome (e : Element) : Outcome → Prop
  | .keep e' children => IsLeft e children e'
  | .iterate e' _ _ _ _ => e.Continues e'
  | .drop | .splice _ | .halt _ => True

theorem leavesOutcome_of_settle (hpending : pending.Sublist registry.entries)
    (he : IsLeft e children e') {outcome : Outcome}
    (h : settle ev pending children e' r = .ok outcome s) : LeavesOutcome e outcome := by
  induction pending, children, e' using settle.induct generalizing r with
  | case1 pending children e' hnext =>
    rw [settle_of_next?_eq_none hnext] at h
    cases h
    exact he
  | case2 pending children e' p others hnext ihproceed ihskip =>
    have hothers : others.Sublist registry.entries := (Entry.sublist_of_next? hnext).trans hpending
    have hp := hpending.subset (Entry.mem_of_next? hnext).1
    rw [settle_of_next? hnext] at h
    obtain ⟨⟨directive, e''⟩, t, hcall, h⟩ := eq_ok_of_bind h
    obtain ⟨he'', hanswer⟩ := (stable_isLeft e children).of_call hp (fun _ _ => trivial)
      (fun _ _ _ _ _ _ _ => trivial) hcall (he.takeAttributes p)
    cases hanswer with
    | proceed => exact ihproceed e'' hothers he'' h
    | skipChildren hbody =>
      refine ihskip e'' hothers ⟨he''.1, fun _ => ?_⟩ h
      rw [hbody, elements_bodyNodes]
    | removeBody =>
      cases h
      refine ⟨he''.1.trans (.setChildren e'' []), fun _ => ?_⟩
      rw [children_setChildren, Node.elements_nil]
    | iterate =>
      cases h
      exact he''.1
    | removeNode | replace =>
      cases h
      trivial

theorem continues_of_leaves {v : Visiting} (hpending : v.pending.Sublist registry.entries)
    (h : v.Leaves ev registry.entries e) : v.element.Continues e := by
  induction h with
  | asMade hfuel hsettled => exact (leavesOutcome_of_settle hpending (isLeft_self _) hsettled).1
  | @withBody v e s t fuel body hfuel hsettled hbody =>
    refine (leavesOutcome_of_settle hpending (isLeft_self _) hsettled).1.trans (.withChildren ?_)
    intro hnil
    rw [hnil] at hbody
    cases hbody
    rfl
  | @ofClone v w e hclone hleaves ih =>
    obtain ⟨-, hsettled, -, -⟩ := hclone
    have hothers := (shrinks_of_settle hpending hsettled).2.1
    exact (leavesOutcome_of_settle hpending (isLeft_self _) hsettled).trans
      (ih (hothers.trans hpending))

/-! ## Whatever is put out was left -/

/-- Whether an element is what is left by a visit of its own element, or by one that is made in it
of an element inside. -/
def Comes (ev : Evaluator) (v : Visiting) (x : Element) : Prop :=
  v.Leaves ev registry.entries x ∨
    ∃ w, Visiting.Makes ev registry.entries v w ∧ w.pending = registry.entries ∧
      w.element ∈ Node.elements v.element.children ∧ w.Leaves ev registry.entries x

theorem Comes.of_inside {v w : Visiting} {x : Element} (h : Comes ev w x)
    (hinside : Visiting.Inside ev registry.entries v w)
    (hsub : Node.elements [w.element.toNode] ⊆ Node.elements v.element.children) :
    Comes ev v x := by
  rw [Node.elements_toNode] at hsub
  have hmake : Visiting.Makes ev registry.entries v w := .single (.inr hinside)
  obtain hleaves | ⟨u, hmakes, hpending, helement, hleaves⟩ := h
  · obtain ⟨-, hpending, -, -, -⟩ := hinside
    exact .inr ⟨w, hmake, hpending, hsub List.mem_cons_self, hleaves⟩
  · exact .inr ⟨u, hmake.trans hmakes, hpending, hsub (List.mem_cons_of_mem _ helement), hleaves⟩

theorem Comes.of_clone {v w : Visiting} {x : Element} (h : Comes ev w x)
    (hclone : Visiting.Clones ev registry.entries v w)
    (hsub : Node.elements w.element.children ⊆ Node.elements v.element.children) :
    Comes ev v x := by
  obtain hleaves | ⟨u, hmakes, hpending, helement, hleaves⟩ := h
  · exact .inl (.ofClone hclone hleaves)
  · exact .inr ⟨u, .head (.inl hclone) hmakes, hpending, hsub helement, hleaves⟩

theorem comes_of_mem_visit (v : Visiting) (hpending : v.pending.Sublist registry.entries)
    {emitted : Emitted} (h : v.emitted ev registry.entries = .ok emitted s) {x : Element}
    (hx : x ∈ Node.elements emitted.nodes) : Comes ev v x := by
  obtain ⟨fuel, pending, e, start⟩ := v
  induction fuel generalizing pending e start emitted s with
  | zero => cases h
  | succ fuel ih =>
    obtain ⟨outcome, u, t, hsettled, hfollow, -⟩ := eq_ok_of_visit h
    have hshrinks := shrinks_of_settle hpending hsettled
    have hleft := leavesOutcome_of_settle hpending (isLeft_self e) hsettled
    -- The nodes that are processed inside are children of the element, or take its place, and all
    -- elements in them were inside it before.
    have hinside {nodes : List Node} {body : Emitted} {w : Run} (hnodes : outcome.inside = nodes)
        (hsub : Node.elements nodes ⊆ Node.elements e.children)
        (hbody : emitAll ev (visit ev registry.entries fuel registry.entries) nodes u = .ok body w)
        (hx : x ∈ Node.elements body.nodes) :
        Comes ev ⟨fuel + 1, pending, e, start⟩ x := by
      obtain ⟨before, y, after, first, t, inner, w, rfl, hbefore, hvisit, hx⟩ :=
        exists_of_mem_emitAll hbody hx
      refine (ih hx registry.entries y t (.refl _) hvisit).of_inside
        (.intro rfl rfl hsettled hnodes hbefore) fun z hz => hsub ?_
      exact (Node.elements_sublist_of_mem (by simp)).subset hz
    cases outcome with
    | keep e' children =>
      cases children with
      | false =>
        cases hfollow
        rw [Node.elements_toNode, hleft.2 rfl] at hx
        obtain rfl := List.mem_singleton.mp hx
        exact .inl (.asMade (Nat.succ_ne_zero fuel) hsettled)
      | true =>
        obtain ⟨body, hbody, rfl⟩ := Running.eq_ok_of_around hfollow
        rw [Node.elements_toNode] at hx
        obtain rfl | hx := List.mem_cons.mp hx
        · exact .inl (.withBody rfl hsettled hbody)
        · exact hinside rfl hshrinks.elements.subset hbody hx
    | splice nodes => exact hinside rfl hshrinks.subset hfollow hx
    | iterate e' others items binding status =>
      obtain ⟨done, item, rest, first, w, inner, u', rfl, hdone, hbody, hx⟩ :=
        exists_of_mem_emitItems hfollow hx
      rw [Nat.zero_add] at hbody
      exact (ih hx others e' _ (hshrinks.2.1.trans hpending) hbody).of_clone
        (.intro rfl hsettled hdone rfl) hshrinks.1.elements.subset
    | drop | halt =>
      cases hfollow
      rw [Node.elements_nil] at hx
      cases hx

/-- Each element that comes out of a run is what the run leaves of one that came in. -/
theorem exists_leaves_of_emit {nodes : List Node} {c : Context} {emitted : Emitted}
    (h : registry.emit ev nodes { context := c } = .ok emitted s) {x : Element}
    (hx : x ∈ Node.elements emitted.nodes) :
    ∃ e ∈ Node.elements nodes, registry.Leaves ev nodes { context := c } e x := by
  obtain ⟨before, e, after, first, t, inner, u, rfl, hbefore, hvisit, hx⟩ :=
    exists_of_mem_emitAll h hx
  have hsub : Node.elements [e.toNode] ⊆ Node.elements (before ++ e.toNode :: after) :=
    (Node.elements_sublist_of_mem (by simp)).subset
  rw [Node.elements_toNode] at hsub
  obtain hleaves | ⟨w, hmakes, hpending, helement, hleaves⟩ :=
    comes_of_mem_visit ⟨registry.fuel e, registry.entries, e, t⟩ (.refl _) hvisit hx
  · exact ⟨e, hsub List.mem_cons_self, .intro (.intro rfl hbefore .refl) rfl rfl hleaves⟩
  · exact ⟨w.element, hsub (List.mem_cons_of_mem _ helement),
      .intro (.intro rfl hbefore hmakes) hpending rfl hleaves⟩

/-! ## What becomes of elements -/

/-- What can become of an element: it is changed, or the standard dialect processes it, wherever it
stands and whatever is bound then. -/
inductive Becomes : Element → Element → Prop where
  | edited (e : Element) (x : Edit) : Becomes e (x.apply e)
  | processed {r : Registry} (hr : Registry.ofDialects [dialect] = .ok r) {ev : Evaluator}
    {nodes : List Node} {c : Context} {e e' : Element}
    (h : r.Leaves ev nodes { context := c } e e') : Becomes e e'

theorem Becomes.continues (h : Becomes e e') : e.Continues e' := by
  cases h with
  | edited e x => exact .apply e x
  | processed hr h =>
    obtain rfl : registry = _ := Except.ok.inj (ofDialects_dialect.symm.trans hr)
    obtain ⟨-, hpending, rfl, hleaves⟩ := h
    exact continues_of_leaves (hpending ▸ .refl _) hleaves

theorem continues_of_becomes (h : Relation.ReflTransGen Becomes e e') : e.Continues e' := by
  induction h with
  | refl => exact .refl e
  | tail _ hstep ih => exact ih.trans hstep.continues

/-- Whatever becomes of an element that is not void, it closes itself exactly if it has no end tag
of its own, and then it has no children and nothing is written behind its start tag. Once it has
children it keeps its ending for good: an end tag with its name, or none if it was read without
one. Nothing but what became of elements comes out of a run. -/
theorem ends_of_becomes {e e₁ e₂ : Element} (hfrom : e.Arises) (hvoid : isVoid e.name = false)
    (hfirst : Relation.ReflTransGen Becomes e e₁) (hthen : Relation.ReflTransGen Becomes e₁ e₂) :
    (e₂.tag.selfClosing = true ↔ e₂.endTag = .void) ∧
      (e₂.tag.selfClosing = true →
        e₂.children = [] ∧ e₂.toNode.render = e₂.tag.render) ∧
      (e₁.children ≠ [] →
        e₂.endTag = e₁.endTag ∧
          ((∃ raw, e₂.endTag = .explicit raw ∧ ClosesNamed e₂.name raw) ∨
            e₂.endTag = .implicit ∧ e.endTag = .implicit)) ∧
      ∀ r, Registry.ofDialects [dialect] = .ok r → ∀ ev nodes c emitted s,
        r.emit ev nodes { context := c } = .ok emitted s →
          ∀ x ∈ Node.elements emitted.nodes, ∃ y ∈ Node.elements nodes, Becomes y x := by
  have hcontinues := (continues_of_becomes hfirst).trans (continues_of_becomes hthen)
  have hends := hcontinues.endsWell hvoid (hfrom.endsWell hvoid)
  refine ⟨hends.selfClosing_iff, fun hself => ?_, fun hchildren => ?_, ?_⟩
  · exact ⟨hends.children_eq_nil (hends.selfClosing_iff.mp hself), hends.render_eq hself⟩
  · have hends₁ := (continues_of_becomes hfirst).endsWell hvoid (hfrom.endsWell hvoid)
    have hend : e₁.endTag ≠ .void := fun hend => hchildren (hends₁.children_eq_nil hend)
    have hkept := (continues_of_becomes hthen).endTag hend
    refine ⟨hkept, ?_⟩
    cases hending : e₂.endTag with
    | explicit raw => exact .inl ⟨raw, rfl, hends.closesNamed hending⟩
    | implicit => exact .inr ⟨rfl, hcontinues.implicit hending⟩
    | void => exact absurd (hkept.symm.trans hending) hend
  · intro r hr ev nodes c emitted s hrun x hx
    obtain rfl : registry = r := Except.ok.inj (ofDialects_dialect.symm.trans hr)
    obtain ⟨y, hy, hleaves⟩ := exists_leaves_of_emit hrun hx
    exact ⟨y, hy, .processed hr hleaves⟩

/-- An element that closes itself gets a text when it is processed, and loses it again. -/
theorem ends_of_becomes_emptied :
    let c : Context := { root := [("x", .value (.integer 1))] }
    ∃ d e emitted s e₁, parseSource {} (.ofString "<p th:text=\"${x}\"/>") = .ok d ∧
      e ∈ d.elements ∧ e.toNode.render = "<p th:text=\"${x}\"/>" ∧ isVoid e.name = false ∧
      registry.emit .standard d.nodes { context := c } = .ok emitted s ∧
      e₁ ∈ Node.elements emitted.nodes ∧ e₁.toNode.render = "<p>1</p>" ∧ Becomes e e₁ ∧
      (e₁.setChildren []).toNode.render = "<p></p>" ∧ (e₁.setChildren []).endTag = e₁.endTag ∧
      ∃ raw, (e₁.setChildren []).endTag = .explicit raw ∧
        ClosesNamed (e₁.setChildren []).name raw := by
  intro c
  have hcheck : (parseSource {} (.ofString "<p th:text=\"${x}\"/>")).toOption.any (fun d =>
      (d.elements.all fun e => decide (e.toNode.render = "<p th:text=\"${x}\"/>" ∧
        isVoid e.name = false ∧ e.endTag = .void)) &&
      passes (fun emitted _ => (Node.elements emitted.nodes).any fun e₁ =>
        decide (e₁.toNode.render = "<p>1</p>" ∧ e₁.children.isEmpty = false ∧
          (e₁.setChildren []).toNode.render = "<p></p>"))
        (registry.emit .standard d.nodes { context := c })) = true := by
    decide +kernel
  obtain ⟨d, hparse, hcheck⟩ := exists_of_any_toOption hcheck
  obtain ⟨hall, hcheck⟩ := (Bool.and_eq_true _ _).mp hcheck
  obtain ⟨emitted, s, hrun, hcheck⟩ := exists_of_passes hcheck
  obtain ⟨e₁, he₁, hcheck⟩ := List.any_eq_true.mp hcheck
  obtain ⟨hrender₁, hchildren, hrender₂⟩ := of_decide_eq_true hcheck
  obtain ⟨e, he, hleaves⟩ := exists_leaves_of_emit hrun he₁
  obtain ⟨hrender, hvoid, hend⟩ := of_decide_eq_true (List.all_eq_true.mp hall e he)
  have hbecomes : Becomes e e₁ := .processed ofDialects_dialect hleaves
  have hfilled : e₁.children ≠ [] := fun hnil => by simp [hnil] at hchildren
  obtain ⟨-, -, hkept, -⟩ := ends_of_becomes (.parsed hparse he) hvoid (.single hbecomes)
    (.single (.edited e₁ (.setChildren [])))
  obtain ⟨hsame, hnamed | ⟨-, himplicit⟩⟩ := hkept hfilled
  · exact ⟨d, e, emitted, s, e₁, hparse, he, hrender, hvoid, hrun, he₁, hrender₁, hbecomes,
      hrender₂, hsame, hnamed⟩
  · rw [hend] at himplicit
    contradiction

end NaturalTemplate.Standard
