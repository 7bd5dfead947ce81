import Mathlib.Data.List.Forall2
import Mathlib.Logic.Equiv.Basic
import MemLint.Analysis
import MemLint.Proofs.Check.Mirror
import MemLint.Proofs.Tree

/-! Names are opaque to the checks. A renaming that keeps names apart and respects the primitives is
applied to every name of a file; each check then goes the same way through the file, and what it
finds is renamed. -/

namespace MemLint.Check

variable {σ τ φ ψ : Type} {S : σ → τ → Prop} {g : φ → ψ} {r : String → String}

/-! ### Findings and reports -/

/-- The renaming keeps names apart, leaves the empty name alone, and neither adds to the primitives
nor takes from them. -/
structure Primitives.Respects (p : Primitives) (r : String → String) : Prop where
  injective : r.Injective
  empty : r "" = ""
  alloc : ∀ name, r name ∈ p.alloc ↔ name ∈ p.alloc
  free : ∀ name, r name ∈ p.free ↔ name ∈ p.free
  null : ∀ name, r name ∈ p.null ↔ name ∈ p.null

/-- The same suspicion about the image of the name. -/
structure Renamed (r : String → String) (x y : Diagnostic) : Prop where
  checker : y.checker = x.checker
  kind : y.kind = x.kind
  name : y.name = r x.name

/-- The same error, or the same suspicions in the same order about the images of the names. -/
inductive SameUpTo (r : String → String) :
    Except StructuralError (List Diagnostic) → Except StructuralError (List Diagnostic) → Prop where
  | error (e : StructuralError) : SameUpTo r (.error e) (.error e)
  | ok {xs ys : List Diagnostic} (h : xs.Forall₂ (Renamed r) ys) : SameUpTo r (.ok xs) (.ok ys)

theorem Pass.Mirrors.report {p : Pass σ φ} {q : Pass τ ψ} (h : p.Mirrors S g r q)
    {diagnose : φ → Diagnostic} {diagnose' : ψ → Diagnostic}
    (hg : ∀ x, Renamed r (diagnose x) (diagnose' (g x))) {s : σ} {t : τ} (hst : S s t)
    (checker : String) (limit depth : Nat) (ds : List Decl) :
    SameUpTo r (report checker limit diagnose (p.decls depth ds s))
      (report checker limit diagnose' (q.decls depth (ds.map (Decl.rename r)) t)) := by
  rcases h.decls depth ds s t hst with ⟨f, hs, ht⟩ | ⟨s', t', xs, hs, ht, -⟩
  · rw [hs, ht]
    exact .error _
  · rw [hs, ht]
    apply SameUpTo.ok
    rw [List.forall₂_map_left_iff, List.map_map, List.forall₂_map_right_iff]
    exact List.forall₂_same.2 fun x _ => hg x

/-! ### The bounds check -/

namespace Bounds

def Finding.rename (r : String → String) : Finding → Finding
  | outOfBounds name i capacity => outOfBounds (r name) i capacity
  | unsupported kind => unsupported kind

theorem Finding.renamed (hr : r "" = "") (x : Finding) :
    Renamed r x.diagnostic (x.rename r).diagnostic := by
  cases x with
  | outOfBounds name i capacity => exact ⟨rfl, rfl, rfl⟩
  | unsupported kind => exact ⟨rfl, rfl, hr.symm⟩

theorem mirrors_declareArray (hr : r.Injective) (name : String) (size : Expr) :
    (declareArray name size).Mirrors (Table.Carried r) (Finding.rename r)
      (declareArray (r name) (size.rename r)) := by
  cases size with
  | intLit n =>
    show Walk.Mirrors _ _ (if 0 ≤ n then _ else _) (if 0 ≤ n then _ else _)
    split
    · exact Walk.mirrors_update fun s t h => h.set hr name n
    · exact Walk.mirrors_skip
  | _ => exact Walk.mirrors_skip

theorem mirrors_access (name : String) (i : Expr) :
    (access name i).Mirrors (Table.Carried r) (Finding.rename r)
      (access (r name) (i.rename r)) := by
  apply Walk.mirrors_look
  intro caps caps' h
  rw [h name]
  cases caps.get? name with
  | none => exact Walk.mirrors_skip
  | some capacity =>
    cases i with
    | intLit n =>
      show Walk.Mirrors _ _ (if n < 0 ∨ capacity ≤ n then _ else _)
        (if n < 0 ∨ capacity ≤ n then _ else _)
      split
      · exact Walk.mirrors_note [Finding.outOfBounds name n capacity]
      · exact Walk.mirrors_skip
    | _ => exact Walk.mirrors_skip

theorem mirrors_expr (hr : r.Injective) (d : Nat) (e : Expr) :
    (expr d e).Mirrors (Table.Carried r) (Finding.rename r) (expr d (e.rename r)) := by
  induction d generalizing e with
  | zero => exact Walk.mirrors_fail .tooDeep
  | succ d ih =>
    cases e with
    | absent => exact Walk.mirrors_fail .absentExpr
    | foreign kind => exact Walk.mirrors_note [Finding.unsupported kind]
    | ident | varRef | addr | intLit | stringLit => exact Walk.mirrors_skip
    | call f args =>
      rw [Expr.rename_call]
      exact Walk.mirrors_all fun a _ => ih a
    | deref x => exact ih x
    | binary op left right => exact (ih left).andThen (ih right)
    | assign target value => exact (ih target).andThen (ih value)
    | index name i => exact (ih i).andThen (mirrors_access name i)
    | arrayDecl name size => exact (ih size).andThen (mirrors_declareArray hr name size)

theorem mirrors_declare (hr : r.Injective) (d : Nat) (name : String) (e : Expr) :
    (declare d name e).Mirrors (Table.Carried r) (Finding.rename r)
      (declare d (r name) (e.rename r)) := by
  have herase : ∀ s t : Capacities, s.Carried r t → (s.erase name).Carried r (t.erase (r name)) :=
    fun s t h => h.erase hr name
  exact (mirrors_ifExpr e (mirrors_expr hr d e)).andThen (Walk.mirrors_update herase)

theorem pass_mirrors (hr : r.Injective) :
    pass.Mirrors (Table.Carried r) (Finding.rename r) r pass where
  expr := mirrors_expr hr
  declare := mirrors_declare hr
  declareGlobal := mirrors_declare hr
  enter := carried_enter fun _ _ prm h => h.erase hr prm.name
  unsupported _ := rfl

end Bounds

/-! ### Primitives -/

namespace Primitives.Respects

variable {p : Primitives}

theorem isAlloc (h : p.Respects r) (name : String) : p.isAlloc (r name) = p.isAlloc name := by
  rw [Bool.eq_iff_iff]
  simp [Primitives.isAlloc, h.alloc]

theorem isFree (h : p.Respects r) (name : String) : p.isFree (r name) = p.isFree name := by
  rw [Bool.eq_iff_iff]
  simp [Primitives.isFree, h.free]

theorem isNull (h : p.Respects r) (name : String) : p.isNull (r name) = p.isNull name := by
  rw [Bool.eq_iff_iff]
  simp [Primitives.isNull, h.null]

theorem isAllocCall (h : p.Respects r) (e : Expr) :
    p.isAllocCall (e.rename r) = p.isAllocCall e := by
  cases e with
  | call f args => exact h.isAlloc f
  | _ => rfl

theorem isNullExpr (h : p.Respects r) (e : Expr) :
    p.isNullExpr (e.rename r) = p.isNullExpr e := by
  cases e with
  | ident name => exact h.isNull name
  | _ => rfl

theorem freedName? (h : p.Respects r) (f : String) (args : List Expr) :
    p.freedName? (r f) (args.map (Expr.rename r)) = (p.freedName? f args).map r := by
  unfold Primitives.freedName?
  rw [h.isFree f]
  split
  · cases args with
    | nil => rfl
    | cons a args => exact a.name?_rename r
  · rfl

end Primitives.Respects

/-! ### The memory check -/

namespace Memory

def Finding.rename (r : String → String) : Finding → Finding
  | leak name => leak (r name)
  | doubleFree name => doubleFree (r name)
  | uninitialized name => uninitialized (r name)
  | nullDereference name => nullDereference (r name)
  | unsupported kind => unsupported kind

theorem Finding.renamed (hr : r "" = "") (x : Finding) :
    Renamed r x.diagnostic (x.rename r).diagnostic := by
  cases x with
  | unsupported kind => exact ⟨rfl, rfl, hr.symm⟩
  | _ => exact ⟨rfl, rfl, rfl⟩

theorem marks_of_carried {s t : State} (h : s.Carried r t) (name : String) :
    marks t (r name) = marks s name := by
  rw [marks, marks, h name]

theorem mirrors_read (name : String) :
    (read name).Mirrors (Table.Carried r) (Finding.rename r) (read (r name)) := by
  apply Walk.mirrors_look
  intro s t h
  rw [marks_of_carried h name]
  split
  · exact Walk.mirrors_note [Finding.uninitialized name]
  · exact Walk.mirrors_skip

theorem mirrors_deref (name : String) :
    (deref name).Mirrors (Table.Carried r) (Finding.rename r) (deref (r name)) := by
  apply (mirrors_read name).andThen
  apply Walk.mirrors_look
  intro s t h
  rw [marks_of_carried h name]
  split
  · exact Walk.mirrors_note [Finding.nullDereference name]
  · exact Walk.mirrors_skip

theorem mirrors_free (hr : r.Injective) (name : String) :
    (free name).Mirrors (Table.Carried r) (Finding.rename r) (free (r name)) := by
  apply Walk.mirrors_look
  intro s t h
  rw [marks_of_carried h name]
  dsimp only
  split
  · exact Walk.mirrors_note [Finding.doubleFree name]
  · split
    · exact Walk.mirrors_update fun s t h => h.set hr name _
    · exact Walk.mirrors_skip

theorem resizes_rename (hr : r.Injective) (name : String) (e : Expr) :
    resizes (r name) (e.rename r) = resizes name e := by
  cases e with
  | call f args =>
    cases args with
    | nil => rfl
    | cons a args =>
      show ((a.rename r).name? == some (r name)) = (a.name? == some name)
      rw [a.name?_rename r, Bool.eq_iff_iff]
      cases a.name? with
      | none => simp
      | some other => simp [hr.eq_iff]
  | _ => rfl

theorem mirrors_allocate (hr : r.Injective) (name : String) (value : Expr) :
    (allocate name value).Mirrors (Table.Carried r) (Finding.rename r)
      (allocate (r name) (value.rename r)) := by
  apply Walk.mirrors_look
  intro s t h
  rw [marks_of_carried h name, resizes_rename hr]
  refine Walk.Mirrors.andThen ?_ (Walk.mirrors_update fun s t h => h.set hr name _)
  split
  · exact Walk.mirrors_note [Finding.leak name]
  · exact Walk.mirrors_skip

theorem source?_rename (e : Expr) : source? (e.rename r) = (source? e).map r := by
  induction e using Expr.induct with
  | assign target value ih => exact ih
  | _ => rfl

variable {p : Primitives}

theorem mirrors_bind (hr : p.Respects r) {visit : Expr → Walk State Finding} {value : Expr}
    (h : (visit value).Mirrors (Table.Carried r) (Finding.rename r) (visit (value.rename r)))
    (name : String) :
    (bind p visit name value).Mirrors (Table.Carried r) (Finding.rename r)
      (bind p visit (r name) (value.rename r)) := by
  have hset : ∀ m, ∀ s t : State, s.Carried r t → (s.set name m).Carried r (t.set (r name) m) :=
    fun m s t h => h.set hr.injective name m
  unfold bind
  rw [hr.isAllocCall, hr.isNullExpr]
  split
  · exact h.andThen (mirrors_allocate hr.injective name value)
  split
  · exact Walk.mirrors_update (hset _)
  apply h.andThen
  rw [source?_rename]
  cases source? value with
  | none => exact Walk.mirrors_update fun s t h => h.erase hr.injective name
  | some other =>
    simp only [Option.map_some, hr.injective.eq_iff]
    split
    · exact Walk.mirrors_skip
    · apply Walk.mirrors_update
      intro s t h
      rw [marks_of_carried h other]
      exact hset _ s t h

theorem mirrors_assign (hr : p.Respects r) {visit : Expr → Walk State Finding}
    (h : ∀ e, (visit e).Mirrors (Table.Carried r) (Finding.rename r) (visit (e.rename r)))
    (target value : Expr) :
    (assign p visit target value).Mirrors (Table.Carried r) (Finding.rename r)
      (assign p visit (target.rename r) (value.rename r)) := by
  have hother (kind : String) := (Walk.mirrors_note (S := Table.Carried r) (g := Finding.rename r)
    [Finding.unsupported kind]).andThen (h value)
  cases target with
  | ident name | varRef name => exact mirrors_bind hr (h value) name
  | deref x => exact (h value).andThen (h (.deref x))
  | index name i => exact (h value).andThen (h (.index name i))
  | absent => exact Walk.mirrors_fail .absentTarget
  | _ => exact hother _

theorem mirrors_expr (hr : p.Respects r) (d : Nat) (e : Expr) :
    (expr p d e).Mirrors (Table.Carried r) (Finding.rename r) (expr p d (e.rename r)) := by
  induction d generalizing e with
  | zero => exact Walk.mirrors_fail .tooDeep
  | succ d ih =>
    cases e with
    | absent => exact Walk.mirrors_fail .absentExpr
    | foreign kind => exact Walk.mirrors_note [Finding.unsupported kind]
    | intLit | stringLit => exact Walk.mirrors_skip
    | ident name | varRef name => exact mirrors_read name
    | addr name =>
      apply Walk.mirrors_update
      intro s t h
      rw [marks_of_carried h name]
      exact h.set hr.injective name _
    | deref x =>
      rw [Expr.rename, expr, expr, x.name?_rename r]
      cases x.name? with
      | some name => exact mirrors_deref name
      | none => exact ih x
    | index name i => exact (mirrors_deref name).andThen (ih i)
    | arrayDecl name size =>
      have herase : ∀ s t : State, s.Carried r t → (s.erase name).Carried r (t.erase (r name)) :=
        fun s t h => h.erase hr.injective name
      exact (ih size).andThen (Walk.mirrors_update herase)
    | call f args =>
      have hargs : (Walk.all (args.map (expr p d))).Mirrors (Table.Carried r) (Finding.rename r)
          (Walk.all ((args.map (Expr.rename r)).map (expr p d))) := Walk.mirrors_all fun a _ => ih a
      rw [Expr.rename_call, expr, expr, hr.freedName?]
      cases p.freedName? f args with
      | some name => exact (mirrors_read name).andThen (mirrors_free hr.injective name)
      | none => exact hargs
    | binary op left right => exact (ih left).andThen (ih right)
    | assign target value => exact mirrors_assign hr ih target value

theorem mirrors_declare (hr : p.Respects r) (d : Nat) (name : String) (e : Expr) :
    (declare p d name e).Mirrors (Table.Carried r) (Finding.rename r)
        (declare p d (r name) (e.rename r)) ∧
      (declareGlobal p d name e).Mirrors (Table.Carried r) (Finding.rename r)
        (declareGlobal p d (r name) (e.rename r)) := by
  have hset : ∀ m, ∀ s t : State, s.Carried r t → (s.set name m).Carried r (t.set (r name) m) :=
    fun m s t h => h.set hr.injective name m
  have hbind := mirrors_bind hr (mirrors_expr hr d e) name
  cases e with
  | absent => exact ⟨Walk.mirrors_update (hset _), Walk.mirrors_update (hset _)⟩
  | _ => exact ⟨hbind, hbind⟩

theorem pass_mirrors (hr : p.Respects r) :
    (pass p).Mirrors (Table.Carried r) (Finding.rename r) r (pass p) where
  expr := mirrors_expr hr
  declare d name e := (mirrors_declare hr d name e).1
  declareGlobal d name e := (mirrors_declare hr d name e).2
  enter := carried_enter fun _ _ prm h => h.erase hr.injective prm.name
  unsupported _ := rfl

end Memory

/-! ### The pointer check -/

theorem signatures_rename (hr : r.Injective) (ds : List Decl) :
    (signatures ds).Carried r (signatures (ds.map (Decl.rename r))) := by
  unfold signatures
  suffices h : ∀ s t : Signatures, s.Carried r t → Table.Carried r (ds.foldl _ s)
      ((ds.map (Decl.rename r)).foldl _ t) from h .empty .empty Table.carried_empty
  induction ds with
  | nil => exact fun s t h => h
  | cons d ds ih =>
    intro s t h
    apply ih
    cases d with
    | func name params ret body =>
      have hp : (params.map (Param.rename r)).map Param.isPointer = params.map Param.isPointer := by
        rw [List.map_map]
        rfl
      show (s.set name ⟨params.map Param.isPointer, ret.isPointer⟩).Carried r
        (t.set (r name) ⟨(params.map (Param.rename r)).map Param.isPointer, ret.isPointer⟩)
      rw [hp]
      exact h.set hr name _
    | _ => exact h

namespace Pointer

def Finding.rename (r : String → String) : Finding → Finding
  | nullDereference name => nullDereference (r name)
  | invalidFree name => invalidFree (r name)
  | doubleFree name => doubleFree (r name)
  | argumentCount f expected got => argumentCount (r f) expected got
  | nonPointer f position => nonPointer (r f) position
  | unsupported kind => unsupported kind

theorem Finding.renamed (hr : r "" = "") (x : Finding) :
    Renamed r x.diagnostic (x.rename r).diagnostic := by
  cases x with
  | unsupported kind => exact ⟨rfl, rfl, hr.symm⟩
  | _ => exact ⟨rfl, rfl, rfl⟩

/-- The second context is that of the renamed file. -/
structure Context.Renames (r : String → String) (c c' : Context) : Prop where
  respects : c.primitives.Respects r
  primitives : c'.primitives = c.primitives
  signatures : c.signatures.Carried r c'.signatures

namespace Context.Renames

variable {c c' : Context} {s t : State}

theorem givesPointer (hc : c.Renames r c') (f : String) :
    c'.givesPointer (r f) = c.givesPointer f := by
  rw [Context.givesPointer, Context.givesPointer, hc.primitives, hc.respects.isAlloc,
    hc.signatures f]

theorem isLive (hc : c.Renames r c') (h : s.Carried r t) (name : String) :
    c'.isLive t (r name) = c.isLive s name := by
  rw [Context.isLive, Context.isLive, hc.primitives, hc.respects.isNull, h name]

theorem isPointer (hc : c.Renames r c') (h : s.Carried r t) (e : Expr) :
    c'.isPointer t (e.rename r) = c.isPointer s e := by
  induction e using Expr.induct with
  | ident name =>
    show (c'.primitives.isNull (r name) || c'.isLive t (r name)) =
      (c.primitives.isNull name || c.isLive s name)
    rw [hc.primitives, hc.respects.isNull, hc.isLive h]
  | call f args => exact hc.givesPointer f
  | assign target value _ ih => exact ih
  | binary op left right ih =>
    cases op with
    | add | sub => exact ih
    | _ => rfl
  | _ => rfl

theorem produces (hc : c.Renames r c') (h : s.Carried r t) (e : Expr) :
    c'.produces t (e.rename r) = c.produces s e := by
  induction e using Expr.induct with
  | ident name | varRef name =>
    show (if c'.isLive t (r name) then Hold.live else Hold.dead) =
      if c.isLive s name then Hold.live else Hold.dead
    rw [hc.isLive h]
  | call f args =>
    show (if c'.givesPointer (r f) then Hold.live else Hold.dead) =
      if c.givesPointer f then Hold.live else Hold.dead
    rw [hc.givesPointer]
  | assign target value _ ih => exact ih
  | binary op left right ih =>
    cases op with
    | add | sub =>
      show (if c'.isPointer t (left.rename r) then c'.produces t (left.rename r) else Hold.dead) =
        if c.isPointer s left then c.produces s left else Hold.dead
      rw [hc.isPointer h, ih]
    | _ => rfl
  | _ => rfl

theorem mirrors_deref (hc : c.Renames r c') (name : String) :
    (c.deref name).Mirrors (Table.Carried r) (Finding.rename r) (c'.deref (r name)) := by
  apply Walk.mirrors_look
  intro s t h
  rw [hc.isLive h]
  split
  · exact Walk.mirrors_skip
  · exact Walk.mirrors_note [Finding.nullDereference name]

theorem mirrors_free (hr : r.Injective) (name : String) :
    (Context.free name).Mirrors (Table.Carried r) (Finding.rename r) (Context.free (r name)) := by
  apply Walk.mirrors_look
  intro s t h
  rw [h name]
  cases s.get? name with
  | none => exact Walk.mirrors_note [Finding.invalidFree name]
  | some hold =>
    cases hold with
    | dead => exact Walk.mirrors_note [Finding.doubleFree name]
    | live => exact Walk.mirrors_update fun s t h => h.set hr name _

theorem mirrors_bind (hc : c.Renames r c') {visit visit' : Expr → Walk State Finding}
    {value : Expr}
    (h : (visit value).Mirrors (Table.Carried r) (Finding.rename r) (visit' (value.rename r)))
    (name : String) :
    (c.bind visit name value).Mirrors (Table.Carried r) (Finding.rename r)
      (c'.bind visit' (r name) (value.rename r)) := by
  apply h.andThen
  apply Walk.mirrors_update
  intro s t hst
  rw [hc.produces hst]
  exact hst.set hc.respects.injective name _

theorem nonPointers (hc : c.Renames r c') (h : s.Carried r t) (f : String) (pointer : List Bool)
    (args : List Expr) :
    c'.nonPointers t (r f) pointer (args.map (Expr.rename r)) =
      (c.nonPointers s f pointer args).map (Finding.rename r) := by
  unfold Context.nonPointers
  rw [List.map_filterMap, List.zip_map_right, List.zipIdx_map, List.filterMap_map]
  congr 1
  funext ⟨⟨wanted, arg⟩, i⟩
  show (if wanted && !c'.isPointer t (arg.rename r) then some (Finding.nonPointer (r f) i) else none) =
    (if wanted && !c.isPointer s arg then some (Finding.nonPointer f i) else none).map
      (Finding.rename r)
  rw [hc.isPointer h]
  split <;> rfl

theorem mirrors_checkCall (hc : c.Renames r c') (f : String) (args : List Expr) :
    (c.checkCall f args).Mirrors (Table.Carried r) (Finding.rename r)
      (c'.checkCall (r f) (args.map (Expr.rename r))) := by
  apply Walk.mirrors_look
  intro s t h
  rw [hc.signatures f, List.length_map]
  cases c.signatures.get? f with
  | none => exact Walk.mirrors_skip
  | some sig =>
    dsimp only
    split
    · rw [hc.nonPointers h]
      exact Walk.mirrors_note _
    · exact Walk.mirrors_note [Finding.argumentCount f sig.pointer.length args.length]

theorem mirrors_call (hc : c.Renames r c') {visit visit' : Expr → Walk State Finding}
    (h : ∀ e, (visit e).Mirrors (Table.Carried r) (Finding.rename r) (visit' (e.rename r)))
    (f : String) (args : List Expr) :
    (c.call visit f args).Mirrors (Table.Carried r) (Finding.rename r)
      (c'.call visit' (r f) (args.map (Expr.rename r))) := by
  have hargs : (Walk.all (args.map visit)).Mirrors (Table.Carried r) (Finding.rename r)
      (Walk.all ((args.map (Expr.rename r)).map visit')) := Walk.mirrors_all fun a _ => h a
  unfold Context.call
  rw [hc.primitives, hc.respects.freedName?]
  cases c.primitives.freedName? f args with
  | none => exact hargs.andThen (hc.mirrors_checkCall f args)
  | some name =>
    simp only [Option.map_some, hc.respects.isNull]
    split
    · exact Walk.mirrors_skip
    · exact mirrors_free hc.respects.injective name

theorem mirrors_assign (hc : c.Renames r c') {visit visit' : Expr → Walk State Finding}
    (h : ∀ e, (visit e).Mirrors (Table.Carried r) (Finding.rename r) (visit' (e.rename r)))
    (target value : Expr) :
    (c.assign visit target value).Mirrors (Table.Carried r) (Finding.rename r)
      (c'.assign visit' (target.rename r) (value.rename r)) := by
  have hother (kind : String) := (Walk.mirrors_note (S := Table.Carried r) (g := Finding.rename r)
    [Finding.unsupported kind]).andThen (h value)
  cases target with
  | ident name | varRef name => exact hc.mirrors_bind (h value) name
  | deref x => exact (h value).andThen (h (.deref x))
  | index name i => exact (h value).andThen (h (.index name i))
  | absent => exact Walk.mirrors_fail .absentTarget
  | _ => exact hother _

theorem mirrors_expr (hc : c.Renames r c') (d : Nat) (e : Expr) :
    (c.expr d e).Mirrors (Table.Carried r) (Finding.rename r) (c'.expr d (e.rename r)) := by
  induction d generalizing e with
  | zero => exact Walk.mirrors_fail .tooDeep
  | succ d ih =>
    cases e with
    | absent => exact Walk.mirrors_fail .absentExpr
    | foreign kind => exact Walk.mirrors_note [Finding.unsupported kind]
    | ident | varRef | addr | intLit | stringLit => exact Walk.mirrors_skip
    | deref x =>
      rw [Expr.rename, expr, expr, x.name?_rename r]
      cases x.name? with
      | some name => exact hc.mirrors_deref name
      | none => exact ih x
    | index name i => exact (ih i).andThen (hc.mirrors_deref name)
    | arrayDecl name size =>
      have hset : ∀ s t : State, s.Carried r t →
          (s.set name .live).Carried r (t.set (r name) .live) :=
        fun s t h => h.set hc.respects.injective name .live
      exact (ih size).andThen (Walk.mirrors_update hset)
    | call f args =>
      rw [Expr.rename_call]
      exact hc.mirrors_call ih f args
    | binary op left right => exact (ih left).andThen (ih right)
    | assign target value => exact hc.mirrors_assign ih target value

theorem mirrors_declare (hc : c.Renames r c') (d : Nat) (name : String) (e : Expr) :
    (c.declare d name e).Mirrors (Table.Carried r) (Finding.rename r)
      (c'.declare d (r name) (e.rename r)) := by
  have hbind := hc.mirrors_bind (hc.mirrors_expr d e) name
  cases e with
  | absent => exact Walk.mirrors_update fun s t h => h.erase hc.respects.injective name
  | _ => exact hbind

theorem carried_param (hr : r.Injective) (s t : State) (prm : Param) (h : s.Carried r t) :
    (if prm.isPointer then s.set prm.name .live else s.erase prm.name).Carried r
      (if (prm.rename r).isPointer then t.set (r prm.name) .live else t.erase (r prm.name)) := by
  show Table.Carried r _ (if prm.isPointer then _ else _)
  split
  · exact h.set hr prm.name .live
  · exact h.erase hr prm.name

theorem pass_mirrors (hc : c.Renames r c') :
    c.pass.Mirrors (Table.Carried r) (Finding.rename r) r c'.pass where
  expr := hc.mirrors_expr
  declare := hc.mirrors_declare
  declareGlobal := hc.mirrors_declare
  enter := carried_enter (carried_param hc.respects.injective)
  unsupported _ := rfl

end Context.Renames

end Pointer

/-! ### Files -/

/-- Each check finds in a renamed file what it finds in the file, about the renamed names. -/
theorem check_of_renamed_file {o : Options} {r : String → String} (hr : o.primitives.Respects r)
    (c : Settings.Checker) (ds : List Decl) :
    SameUpTo r (Analysis.check o ds c) (Analysis.check o (ds.map (Decl.rename r)) c) := by
  cases c with
  | bounds =>
    exact (Bounds.pass_mirrors hr.injective).report (Bounds.Finding.renamed hr.empty)
      Table.carried_empty Bounds.checker o.depth o.depth ds
  | memory =>
    exact (Memory.pass_mirrors hr).report (Memory.Finding.renamed hr.empty)
      Table.carried_empty Memory.checker o.depth o.depth ds
  | pointer =>
    have hc : Pointer.Context.Renames r ⟨o.primitives, signatures ds⟩
        ⟨o.primitives, signatures (ds.map (Decl.rename r))⟩ :=
      ⟨hr, rfl, signatures_rename hr.injective ds⟩
    exact hc.pass_mirrors.report (Pointer.Finding.renamed hr.empty)
      Table.carried_empty Pointer.checker o.depth o.depth ds

/-- Two names that are no primitives may change places. -/
theorem Primitives.respects_swap {p : Primitives} {a b : String} (hempty : "" ≠ a ∧ "" ≠ b)
    (halloc : a ∉ p.alloc ∧ b ∉ p.alloc) (hfree : a ∉ p.free ∧ b ∉ p.free)
    (hnull : a ∉ p.null ∧ b ∉ p.null) : p.Respects (Equiv.swap a b) := by
  have hmem {names : List String} (h : a ∉ names ∧ b ∉ names) (name : String) :
      Equiv.swap a b name ∈ names ↔ name ∈ names := by
    by_cases ha : name = a
    · simp [ha, h.1, h.2]
    · by_cases hb : name = b
      · simp [hb, h.1, h.2]
      · rw [Equiv.swap_apply_of_ne_of_ne ha hb]
  exact ⟨(Equiv.swap a b).injective, Equiv.swap_apply_of_ne_of_ne hempty.1 hempty.2, hmem halloc,
    hmem hfree, hmem hnull⟩

/-- A pointer that is used after it was freed, under two names. -/
theorem check_of_renamed_file_at_swap :
    Primitives.default.Respects (Equiv.swap "p" "q") ∧
      SameUpTo (Equiv.swap "p" "q")
        (Analysis.check {} [.var "p" (.call "malloc" [.intLit 4]),
          .stmt (.expr (.call "free" [.varRef "p"])), .stmt (.expr (.deref (.varRef "p")))] .pointer)
        (Analysis.check {} ([.var "p" (.call "malloc" [.intLit 4]),
          .stmt (.expr (.call "free" [.varRef "p"])), .stmt (.expr (.deref (.varRef "p")))].map
            (Decl.rename (Equiv.swap "p" "q"))) .pointer) := by
  have hr : Primitives.default.Respects (Equiv.swap "p" "q") :=
    Primitives.respects_swap (by decide) (by decide) (by decide) (by decide)
  exact ⟨hr, check_of_renamed_file (o := {}) hr .pointer _⟩

end MemLint.Check
