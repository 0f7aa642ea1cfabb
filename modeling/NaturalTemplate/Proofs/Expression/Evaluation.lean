import NaturalTemplate.Proofs.Context.Frame
import NaturalTemplate.Proofs.Expression.Reading

/-!
# What is read has the value of the derivation

The value of an expression depends on the values of names only, not on which of them were asked for
before. So where a text is read as a derivation, it is evaluated like the derivation itself, step by
step, and asks for the same values.
-/
namespace NaturalTemplate
open Grammar

/-! ## What the value of an expression depends on -/

/-- Contexts in which every name has the same value. -/
def Context.SameValues (c d : Context) : Prop := ∀ name, d.value? name = c.value? name

theorem Context.sameValues_touchAll (c : Context) (names : List String) :
    c.SameValues (c.touchAll names) := by
  intro name
  have hframe : c.Frame ∅ (c.touchAll names) := Context.frame_touchAll c names
  exact hframe.value? (Set.notMem_empty name)

/-- Whether the value of a name can be asked for by an expression: that of a variable, or of the
selected object. -/
def IsReadable (name : String) : Prop :=
  isIdentifier name = true ∨ name = Context.selectionName

/-- Contexts in which every name that an expression can ask for has the same value. -/
def Context.SameReadable (c d : Context) : Prop :=
  ∀ name, IsReadable name → d.value? name = c.value? name

theorem Context.SameReadable.selection?_eq {c d : Context} (h : c.SameReadable d) :
    d.selection? = c.selection? :=
  h selectionName (.inr rfl)

namespace Path

variable {c d : Context}

theorem eval_congr (h : c.SameReadable d) (path : Path) : path.eval d = path.eval c := by
  cases path with
  | nil => rfl
  | cons name path =>
    rw [eval, eval]
    split
    · next hname => rw [h name (.inl hname)]
    · rfl

theorem evalSelected_congr (h : c.SameReadable d) (path : Path) :
    path.evalSelected d = path.evalSelected c := by
  simp only [evalSelected, h.selection?_eq, eval_congr h]

theorem readsSelected_congr (h : c.SameReadable d) (path : Path) :
    path.readsSelected d = path.readsSelected c := by
  rw [readsSelected, readsSelected, h.selection?_eq]

theorem isReadable_of_mem_reads {path : Path} {name : String} (h : name ∈ path.reads) :
    IsReadable name := by
  cases path with
  | nil => cases h
  | cons first path =>
    rw [reads] at h
    split at h
    · next hfirst =>
      obtain rfl := List.mem_singleton.mp h
      exact .inl hfirst
    · cases h

theorem isReadable_of_mem_readsSelected {path : Path} {name : String}
    (h : name ∈ path.readsSelected c) : IsReadable name := by
  obtain rfl | h := List.mem_cons.mp h
  · exact .inr rfl
  · split at h
    · cases h
    · exact isReadable_of_mem_reads h

end Path

namespace Piece

variable {c d : Context}

theorem text_congr (h : c.SameReadable d) (p : Piece) : p.text d = p.text c := by
  cases p <;> simp only [text, Path.eval_congr h, Path.evalSelected_congr h]

theorem textAll_congr (h : c.SameReadable d) (ps : List Piece) : textAll d ps = textAll c ps := by
  induction ps with
  | nil => rfl
  | cons p ps ih => simp only [textAll, text_congr h, ih]

theorem reads_congr (h : c.SameReadable d) (p : Piece) : p.reads d = p.reads c := by
  cases p <;> simp only [reads, Path.readsSelected_congr h]

theorem readsAll_congr (h : c.SameReadable d) (ps : List Piece) :
    readsAll d ps = readsAll c ps := by
  induction ps with
  | nil => rfl
  | cons p ps ih => rw [readsAll, readsAll, text_congr h, reads_congr h, ih]

theorem isReadable_of_mem_readsAll {ps : List Piece} {name : String} (h : name ∈ readsAll c ps) :
    IsReadable name := by
  induction ps with
  | nil => cases h
  | cons p ps ih =>
    obtain h | h := List.mem_append.mp h
    · cases p with
      | «variable» path => exact Path.isReadable_of_mem_reads h
      | selected path => exact Path.isReadable_of_mem_readsSelected h
      | char | unterminated => cases h
    · split at h
      · exact ih h
      · cases h

end Piece

namespace Expr

variable {c d : Context}

theorem eval_congr (h : c.SameReadable d) (e : Expr) : e.eval d = e.eval c := by
  induction e <;>
    simp_all only [eval, Path.eval_congr h, Path.evalSelected_congr h, Piece.textAll_congr h]

theorem evalsTo_congr (h : c.SameReadable d) (e : Expr) (kind : Value → Bool) :
    e.evalsTo d kind = e.evalsTo c kind := by
  rw [evalsTo, evalsTo, eval_congr h]

theorem reads_congr (h : c.SameReadable d) (e : Expr) : e.reads d = e.reads c := by
  induction e with
  | literal | «variable» | malformed => rfl
  | selected path => exact Path.readsSelected_congr h path
  | substitution pieces => exact Piece.readsAll_congr h pieces
  | not e ih => exact ih
  | add left right ihleft ihright | compare _ _ left right ihleft ihright
  | equal left right ihleft ihright | differ left right ihleft ihright
  | and left right ihleft ihright | or left right ihleft ihright
  | guarded left right ihleft ihright | elvis left right ihleft ihright =>
    rw [reads, reads, ihleft, ihright, evalsTo_congr h]
  | conditional condition yes no ihcondition ihyes ihno =>
    rw [reads, reads, ihcondition, ihyes, ihno, evalsTo_congr h, evalsTo_congr h]

/-- An expression asks for the values of variables and of the selected object, and for no other. -/
theorem isReadable_of_mem_reads {e : Expr} {name : String} (h : name ∈ e.reads c) :
    IsReadable name := by
  induction e with
  | literal | malformed => cases h
  | «variable» path => exact Path.isReadable_of_mem_reads h
  | selected path => exact Path.isReadable_of_mem_readsSelected h
  | substitution pieces => exact Piece.isReadable_of_mem_readsAll h
  | not e ih => exact ih h
  | add left right ihleft ihright | compare _ _ left right ihleft ihright
  | equal left right ihleft ihright | differ left right ihleft ihright
  | and left right ihleft ihright | or left right ihleft ihright
  | guarded left right ihleft ihright | elvis left right ihleft ihright =>
    obtain h | h := List.mem_append.mp h
    · exact ihleft h
    · split at h
      · exact ihright h
      · cases h
  | conditional condition yes no ihcondition ihyes ihno =>
    obtain h | h := List.mem_append.mp h
    · exact ihcondition h
    · split at h
      · exact ihyes h
      · split at h
        · exact ihno h
        · cases h

end Expr

namespace Evaluator

variable {c d : Context}

theorem value_congr (h : c.SameReadable d) (text : String) :
    standard.value d text = standard.value c text := by
  simp only [standard, Expr.eval_congr h]

theorem reads_congr (h : c.SameReadable d) (text : String) :
    standard.reads d text = standard.reads c text :=
  Expr.reads_congr h _

end Evaluator

/-! ## Step by step -/

theorem Context.touchAll_append (c : Context) (names more : List String) :
    c.touchAll (names ++ more) = (c.touchAll names).touchAll more := List.foldl_append

namespace Evaluation

variable {α β : Type} {x y : Evaluation α} {value value' : Context → Except ExpressionError α}
  {names names' : Context → List String}

/-- The end of an evaluation. -/
def ended (result : Except ExpressionError α) (c : Context) :
    EStateM.Result ExpressionError Context α :=
  match result with
  | .ok a => .ok a c
  | .error cause => .error cause c

/-- Whatever was asked for before, an evaluation comes to what it would have come to at first, and
asks for the values of some names. -/
def Comes (x : Evaluation α) (value : Context → Except ExpressionError α)
    (names : Context → List String) : Prop :=
  ∀ c asked, x (c.touchAll asked) = ended (value c) (c.touchAll (asked ++ names c))

namespace Comes

theorem congr (hx : Comes x value names) (hvalue : ∀ c, value' c = value c)
    (hnames : ∀ c, names' c = names c) : Comes x value' names' := by
  intro c asked
  rw [hx, hvalue, hnames]

theorem ofExcept (result : Except ExpressionError α) :
    Comes (Evaluation.ofExcept result) (fun _ => result) fun _ => [] := by
  intro c asked
  rw [List.append_nil]
  cases result <;> rfl

theorem pure (a : α) : Comes (Pure.pure a) (fun _ => .ok a) fun _ => [] := ofExcept (.ok a)

theorem lookUp (name : String) :
    Comes (Evaluation.lookUp name) (fun c => .ok (c.value? name)) fun _ => [name] := by
  intro c asked
  have hsame := c.sameValues_touchAll asked name
  simp only [Evaluation.lookUp, ended, hsame, Context.touchAll_append]
  rfl

theorem ite (test : Bool) (hx : Comes x value names) (hy : Comes y value' names') :
    Comes (if test then x else y) (fun c => if test then value c else value' c)
      fun c => if test then names c else names' c := by
  cases test with
  | true => exact hx
  | false => exact hy

/-- What comes after an evaluation, unless that fails. -/
theorem bind {k : α → Evaluation β} {next : α → Context → Except ExpressionError β}
    {more : α → Context → List String} (hx : Comes x value names)
    (hk : ∀ a, Comes (k a) (next a) (more a)) :
    Comes (x >>= k) (fun c => value c >>= fun a => next a c) fun c =>
      names c ++ match value c with
        | .ok a => more a c
        | .error _ => [] := by
  intro c asked
  show EStateM.bind x k _ = _
  rw [EStateM.bind, hx]
  cases hvalue : value c with
  | error cause =>
    simp only [hvalue, List.append_nil]
    rfl
  | ok a =>
    have hnext := hk a c (asked ++ names c)
    rw [List.append_assoc] at hnext
    simp only [hvalue]
    exact hnext

end Comes

/-! ## The steps of derivations -/

/-- An evaluation that comes to what an expression says, and asks for what the expression reads. -/
abbrev Follows (x : Evaluation Value) (e : Expr) : Prop :=
  Comes x (fun c => e.eval c) fun c => e.reads c

theorem follow_eq (v : Value) (names : List Identifier) :
    Path.follow v (names.map Identifier.name) = names.foldlM property v := by
  induction names generalizing v with
  | nil => rfl
  | cons name names ih =>
    rw [List.map_cons, List.foldlM_cons]
    cases v with
    | object entries =>
      rw [Path.follow, if_pos name.valid]
      exact ih _
    | _ =>
      rw [Path.follow, if_pos name.valid]
      · rfl
      · simp

theorem follows_path (name : Identifier) (names : List Identifier) :
    Follows (path name names) (.variable (name.name :: names.map Identifier.name)) := by
  refine ((Comes.lookUp name.name).bind fun v => .ofExcept _).congr (fun c => ?_) fun c => ?_
  · rw [Expr.eval, Path.eval, if_pos name.valid, follow_eq]
    rfl
  · rw [Expr.reads, Path.reads, if_pos name.valid]
    rfl

theorem follows_selected (name : Identifier) (names : List Identifier) :
    Follows (Term.selected name names).run
      (.selected (name.name :: names.map Identifier.name)) := by
  have hafter (o : Option Value) :
      Comes (o.elim (path name names) fun v => properties v (name :: names))
        (fun c => o.elim (Expr.eval c (.variable (name.name :: names.map Identifier.name)))
          fun v => (name :: names).foldlM property v)
        fun c => o.elim (Expr.reads c (.variable (name.name :: names.map Identifier.name)))
          fun _ => [] := by
    cases o with
    | some v => exact .ofExcept _
    | none => exact follows_path name names
  have hrun : (Term.selected name names).run =
      Evaluation.lookUp Context.selectionName >>= fun o =>
        o.elim (path name names) fun v => properties v (name :: names) := by
    rw [Term.run]
    congr 1
    funext o
    cases o <;> rfl
  rw [hrun]
  refine ((Comes.lookUp Context.selectionName).bind hafter).congr (fun c => ?_) fun c => ?_
  · simp only [Expr.eval, Path.evalSelected, Context.selection?]
    cases hvalue : c.value? Context.selectionName with
    | some v => exact follow_eq v (name :: names)
    | none => rfl
  · cases hvalue : c.value? Context.selectionName <;>
      simp [Expr.reads, Path.readsSelected, Context.selection?, hvalue]

variable {u v w : Evaluation Value} {d e f : Expr}

/-- Two operands that are both evaluated. -/
theorem follows_both (hu : Follows u d) (hv : Follows v e)
    (join : Value → Value → Except ExpressionError Value) {both : Expr}
    (heval : ∀ c, both.eval c = d.eval c >>= fun a => e.eval c >>= fun b => join a b)
    (hreads : ∀ c, both.reads c =
      d.reads c ++ if d.evalsTo c fun _ => true then e.reads c else []) :
    Follows (u >>= fun a => v >>= fun b => ofExcept (join a b)) both := by
  refine (hu.bind fun a => hv.bind fun b => .ofExcept _).congr heval fun c => ?_
  rw [hreads, Expr.evalsTo]
  cases hd : d.eval c with
  | error cause => rfl
  | ok a => cases he : e.eval c <;> simp

theorem follows_operands (o : Operator) (hu : Follows u d) (hv : Follows v e) :
    Follows (o.run u v) (o.toExpr d e) := by
  cases o with
  | or =>
    refine (hu.bind fun a => .ite a.isTruthy (.pure _) (hv.bind fun b => .pure _)).congr
      (fun c => rfl) fun c => ?_
    show (Expr.or d e).reads c = _
    rw [Expr.reads, Expr.evalsTo]
    cases hd : d.eval c with
    | error cause => rfl
    | ok a => cases hb : e.eval c <;> cases ha : a.isTruthy <;> simp [ha]
  | and =>
    refine (hu.bind fun a => .ite a.isTruthy (hv.bind fun b => .pure _) (.pure _)).congr
      (fun c => rfl) fun c => ?_
    show (Expr.and d e).reads c = _
    rw [Expr.reads, Expr.evalsTo]
    cases hd : d.eval c with
    | error cause => rfl
    | ok a => cases hb : e.eval c <;> cases ha : a.isTruthy <;> simp [ha]
  | equal =>
    exact follows_both hu hv (fun a b => .ok (.bool (a.looselyEquals b))) (fun _ => rfl)
      fun _ => rfl
  | differ =>
    exact follows_both hu hv (fun a b => .ok (.bool !(a.looselyEquals b))) (fun _ => rfl)
      fun _ => rfl
  | order relation word =>
    refine follows_both hu hv (Operator.test relation word) (fun c => ?_) fun _ => rfl
    show (Expr.compare _ _ d e).eval c = _
    rw [Expr.eval]
    refine congrArg _ (funext fun a => congrArg _ (funext fun b => ?_))
    simp only [Operator.test]
    cases a.order? b <;> rfl
  | add => exact follows_both hu hv Value.add (fun _ => rfl) fun _ => rfl

/-! ## Literal substitutions -/

theorem follows_names (p : Names) : Follows p.run (.variable p.path) :=
  follows_path p.first.name p.properties

theorem follows_namesSelected (p : Names) : Follows p.runSelected (.selected p.path) :=
  follows_selected p.first.name p.properties

theorem comes_part (p : Part) :
    Comes p.run (fun c => p.piece.text c) fun c => p.piece.reads c := by
  cases p with
  | char k => exact .pure _
  | «variable» p =>
    refine ((follows_names p).bind fun v => .ofExcept _).congr (fun c => rfl) fun c => ?_
    cases (Expr.variable p.path).eval c <;> exact (List.append_nil _).symm
  | selected p =>
    refine ((follows_namesSelected p).bind fun v => .ofExcept _).congr (fun c => rfl) fun c => ?_
    cases (Expr.selected p.path).eval c <;> exact (List.append_nil _).symm

theorem comes_parts (ps : List Part) :
    Comes (Part.runAll ps) (fun c => Piece.textAll c (ps.map Part.piece))
      fun c => Piece.readsAll c (ps.map Part.piece) := by
  induction ps with
  | nil => exact .pure _
  | cons p ps ih =>
    refine ((comes_part p).bind fun s => ih.bind fun t => .pure _).congr (fun c => rfl) fun c => ?_
    rw [List.map_cons, Piece.readsAll]
    cases hp : p.piece.text c with
    | error cause => rfl
    | ok s => cases Piece.textAll c (ps.map Part.piece) <;> simp [Except.isOk, Except.toBool]

/-! ## Derivations -/

theorem follows_atom (a : Atom) : Follows a.run a.toExpr := by
  cases a with
  | «variable» p => exact follows_names p
  | selected p => exact follows_namesSelected p
  | string cs => exact .pure _
  | number n => exact .pure _
  | bool b => exact .pure _
  | null => exact .pure _
  | substitution s =>
    refine ((comes_parts s.parts).bind fun t => .pure _).congr (fun c => ?_) fun c => ?_
    · simp only [Atom.toExpr, Expr.eval]
      cases Piece.textAll c (s.parts.map Part.piece) <;> rfl
    · simp only [Atom.toExpr, Expr.reads]
      cases Piece.textAll c (s.parts.map Part.piece) <;> simp

/-- A derivation is evaluated like the expression that it is. -/
theorem follows_phrase {l : Level} (p : Phrase l) : Follows p.run p.toExpr := by
  induction p with
  | tighter _ p ih => exact ih
  | atom a => exact follows_atom a
  | bracket _ p _ ih => exact ih
  | not n p ih =>
    refine (ih.bind fun a => .pure _).congr (fun c => rfl) fun c => ?_
    simp only [Phrase.toExpr, Expr.reads]
    cases p.toExpr.eval c <;> simp
  | binary o left gap right ihleft ihright => exact follows_operands o ihleft ihright
  | conditional condition _ _ yes _ _ no ihcondition ihyes ihno =>
    refine (ihcondition.bind fun a => .ite a.isTruthy ihyes ihno).congr (fun c => rfl) fun c => ?_
    rw [Phrase.toExpr, Expr.reads, Expr.evalsTo, Expr.evalsTo]
    cases condition.toExpr.eval c with
    | error cause => rfl
    | ok a => cases ha : a.isTruthy <;> simp [ha]
  | guarded condition _ _ yes ihcondition ihyes =>
    refine (ihcondition.bind fun a => .ite a.isTruthy ihyes (.pure _)).congr
      (fun c => rfl) fun c => ?_
    rw [Phrase.toExpr, Expr.reads, Expr.evalsTo]
    cases condition.toExpr.eval c with
    | error cause => rfl
    | ok a => cases ha : a.isTruthy <;> simp [ha]
  | elvis value _ _ default ihvalue ihdefault =>
    refine (ihvalue.bind fun a => .ite a.isNull ihdefault (.pure _)).congr
      (fun c => rfl) fun c => ?_
    rw [Phrase.toExpr, Expr.reads, Expr.evalsTo]
    cases value.toExpr.eval c with
    | error cause => rfl
    | ok a => cases ha : a.isNull <;> simp [ha]

end Evaluation

/-- A text that is read as a derivation has the value of the derivation, or the error, and leaves
the context with the same values asked for. -/
theorem Evaluator.evaluate_of_parse {text : String} {p : Phrase .expression}
    (h : Expr.parse text.toList = p.toExpr) (c : Context) :
    Evaluator.standard.evaluate text c =
      match p.run c with
      | .ok v d => (.ok v, d)
      | .error cause d => (.error (.expression text cause), d) := by
  have hrun : p.run c = Evaluation.ended (p.toExpr.eval c) (c.touchAll (p.toExpr.reads c)) :=
    Evaluation.follows_phrase p c []
  simp only [evaluate, standard, h, hrun]
  cases p.toExpr.eval c <;> rfl

end NaturalTemplate
