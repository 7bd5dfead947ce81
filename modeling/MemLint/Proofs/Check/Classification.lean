import Mathlib.Data.List.Forall2
import MemLint.Proofs.Check.Composition

/-! Whether a reference is known to hold a pointer. The parser tells such references from the others
by the declarations in force; the bounds check and the memory check never ask. Where any of the
references of a file are told otherwise, both go the same way through the file from the same states,
as long as the names of the null pointer are left alone: one of these is null only where it is no
reference to a pointer. -/

namespace MemLint.Check

variable {σ φ : Type}

/-! ### Trees with some references told otherwise -/

/-- Any of the references in the expression are told otherwise, in either direction. The names of
the null pointer stay as they are. -/
inductive Reclassified (p : Primitives) : Expr → Expr → Prop where
  | same (e : Expr) : Reclassified p e e
  | toPointer {name : String} (h : p.isNull name = false) :
      Reclassified p (.ident name) (.varRef name)
  | toPlain {name : String} (h : p.isNull name = false) :
      Reclassified p (.varRef name) (.ident name)
  | call {f : String} {args args' : List Expr} (h : args.Forall₂ (Reclassified p) args') :
      Reclassified p (.call f args) (.call f args')
  | deref {x x' : Expr} (h : Reclassified p x x') : Reclassified p (.deref x) (.deref x')
  | binary {op : BinOp} {left left' right right' : Expr} (hl : Reclassified p left left')
      (hr : Reclassified p right right') :
      Reclassified p (.binary op left right) (.binary op left' right')
  | assign {target target' value value' : Expr} (ht : Reclassified p target target')
      (hv : Reclassified p value value') :
      Reclassified p (.assign target value) (.assign target' value')
  | index {name : String} {i i' : Expr} (h : Reclassified p i i') :
      Reclassified p (.index name i) (.index name i')
  | arrayDecl {name : String} {size size' : Expr} (h : Reclassified p size size') :
      Reclassified p (.arrayDecl name size) (.arrayDecl name size')

inductive ReclassifiedStmt (p : Primitives) : Stmt → Stmt → Prop where
  | same (s : Stmt) : ReclassifiedStmt p s s
  | block {ss ss' : List Stmt} (h : ss.Forall₂ (ReclassifiedStmt p) ss') :
      ReclassifiedStmt p (.block ss) (.block ss')
  | expr {x x' : Expr} (h : Reclassified p x x') : ReclassifiedStmt p (.expr x) (.expr x')
  | decl {name : String} {init init' : Expr} (h : Reclassified p init init') :
      ReclassifiedStmt p (.decl name init) (.decl name init')
  | cond {test test' : Expr} {yes yes' no no' : Stmt} (ht : Reclassified p test test')
      (hy : ReclassifiedStmt p yes yes') (hn : ReclassifiedStmt p no no') :
      ReclassifiedStmt p (.cond test yes no) (.cond test' yes' no')
  | loop {init init' body body' : Stmt} {test test' post post' : Expr}
      (hi : ReclassifiedStmt p init init') (ht : Reclassified p test test')
      (hp : Reclassified p post post') (hb : ReclassifiedStmt p body body') :
      ReclassifiedStmt p (.loop init test post body) (.loop init' test' post' body')
  | ret {x x' : Expr} (h : Reclassified p x x') : ReclassifiedStmt p (.ret x) (.ret x')

inductive ReclassifiedDecl (p : Primitives) : Decl → Decl → Prop where
  | same (d : Decl) : ReclassifiedDecl p d d
  | func {name : String} {params : List Param} {ret : DeclType} {body body' : Stmt}
      (h : ReclassifiedStmt p body body') :
      ReclassifiedDecl p (.func name params ret body) (.func name params ret body')
  | var {name : String} {init init' : Expr} (h : Reclassified p init init') :
      ReclassifiedDecl p (.var name init) (.var name init')
  | stmt {s s' : Stmt} (h : ReclassifiedStmt p s s') : ReclassifiedDecl p (.stmt s) (.stmt s')

/-! ### What the checks see of an expression -/

theorem map_eq_of_forall₂ {α β : Type} {R : α → α → Prop} {f : α → β} {as bs : List α}
    (h : as.Forall₂ R bs) (hf : ∀ a b, R a b → f a = f b) : as.map f = bs.map f := by
  induction h with
  | nil => rfl
  | cons hab _ ih => rw [List.map_cons, List.map_cons, hf _ _ hab, ih]

namespace Reclassified

variable {p : Primitives} {e e' : Expr}

theorem name? (h : Reclassified p e e') : e.name? = e'.name? := by
  cases h <;> rfl

theorem isAllocCall (h : Reclassified p e e') : p.isAllocCall e = p.isAllocCall e' := by
  cases h <;> rfl

/-- No name of the null pointer is told otherwise. -/
theorem isNullExpr (h : Reclassified p e e') : p.isNullExpr e = p.isNullExpr e' := by
  cases h with
  | toPointer hn => exact hn
  | toPlain hn => exact hn.symm
  | _ => rfl

theorem freedName? {args args' : List Expr} (h : args.Forall₂ (Reclassified p) args')
    (f : String) : p.freedName? f args = p.freedName? f args' := by
  cases h with
  | nil => rfl
  | cons ha _ =>
    show (if p.isFree f then _ else none) = if p.isFree f then _ else none
    rw [List.head?_cons, List.head?_cons, Option.bind_some, Option.bind_some, ha.name?]

theorem ifExpr (h : Reclassified p e e') {v w : Walk σ φ} (hvw : v = w) :
    Check.ifExpr e v = Check.ifExpr e' w := by
  subst hvw
  cases h <;> rfl

end Reclassified

theorem ReclassifiedStmt.ifStmt {p : Primitives} {s s' : Stmt} (h : ReclassifiedStmt p s s')
    {v w : Walk σ φ} (hvw : v = w) : Check.ifStmt s v = Check.ifStmt s' w := by
  subst hvw
  cases h <;> rfl

/-! ### Passes -/

/-- What the pass does with expressions and declarations does not depend on how references are
told. -/
structure Pass.Unclassified (P : Pass σ φ) (p : Primitives) : Prop where
  expr : ∀ {e e'}, Reclassified p e e' → ∀ d, P.expr d e = P.expr d e'
  declare : ∀ {e e'}, Reclassified p e e' → ∀ d name, P.declare d name e = P.declare d name e'
  declareGlobal : ∀ {e e'}, Reclassified p e e' → ∀ d name,
    P.declareGlobal d name e = P.declareGlobal d name e'

namespace Pass.Unclassified

variable {P : Pass σ φ} {p : Primitives}

theorem stmt (h : P.Unclassified p) {s s' : Stmt} (hs : ReclassifiedStmt p s s') (d : Nat) :
    P.stmt d s = P.stmt d s' := by
  induction d generalizing s s' with
  | zero => rfl
  | succ d ih =>
    cases hs with
    | same => rfl
    | block hss =>
      rw [Pass.stmt, Pass.stmt, map_eq_of_forall₂ hss fun _ _ hs => ih hs]
    | expr hx => exact h.expr hx d
    | decl hinit => exact h.declare hinit d _
    | cond htest hyes hno =>
      have hno := hno.ifStmt (congrArg Walk.fork (ih hno))
      rw [Pass.stmt, Pass.stmt, h.expr htest, ih hyes, hno]
    | loop hinit htest hpost hbody =>
      have hinit := hinit.ifStmt (ih hinit)
      have htest := htest.ifExpr (h.expr htest d)
      have hpost := hpost.ifExpr (h.expr hpost d)
      rw [Pass.stmt, Pass.stmt, hinit, htest, hpost, ih hbody]
    | ret hx => exact hx.ifExpr (h.expr hx d)

theorem decl (h : P.Unclassified p) {dl dl' : Decl} (hdl : ReclassifiedDecl p dl dl') (d : Nat) :
    P.decl d dl = P.decl d dl' := by
  cases hdl with
  | same => rfl
  | @func _ params _ _ _ hbody =>
    have hwalk := h.stmt hbody d
    exact hbody.ifStmt (by rw [hwalk])
  | var hinit => exact h.declareGlobal hinit d _
  | stmt hs => exact h.stmt hs d

theorem decls (h : P.Unclassified p) {ds ds' : List Decl}
    (hds : ds.Forall₂ (ReclassifiedDecl p) ds') (d : Nat) : P.decls d ds = P.decls d ds' := by
  unfold Pass.decls
  rw [map_eq_of_forall₂ hds fun _ _ hdl => h.decl hdl d]

end Pass.Unclassified

/-! ### The bounds check -/

namespace Bounds

variable {p : Primitives}

/-- Only a literal is looked at as an index, and a literal is told in one way. -/
theorem access_reclassified {i i' : Expr} (h : Reclassified p i i') (name : String) :
    access name i = access name i' := by
  cases h with
  | same => rfl
  | _ =>
    funext caps
    simp only [access, Walk.look]
    cases caps.get? name <;> rfl

theorem declareArray_reclassified {size size' : Expr} (h : Reclassified p size size')
    (name : String) : declareArray name size = declareArray name size' := by
  cases h <;> rfl

theorem expr_reclassified {e e' : Expr} (h : Reclassified p e e') (d : Nat) :
    expr d e = expr d e' := by
  induction d generalizing e e' with
  | zero => rfl
  | succ d ih =>
    cases h with
    | same | toPointer _ | toPlain _ => rfl
    | call hargs => rw [expr, expr, map_eq_of_forall₂ hargs fun _ _ ha => ih ha]
    | deref hx => exact ih hx
    | binary hl hr => rw [expr, expr, ih hl, ih hr]
    | assign ht hv => rw [expr, expr, ih ht, ih hv]
    | index hi => rw [expr, expr, ih hi, access_reclassified hi]
    | arrayDecl hs => rw [expr, expr, ih hs, declareArray_reclassified hs]

theorem declare_reclassified {e e' : Expr} (h : Reclassified p e e') (d : Nat) (name : String) :
    declare d name e = declare d name e' := by
  rw [declare, declare, h.ifExpr (expr_reclassified h d)]

theorem pass_unclassified (p : Primitives) : pass.Unclassified p :=
  ⟨expr_reclassified, declare_reclassified, declare_reclassified⟩

end Bounds

/-! ### The memory check -/

namespace Memory

variable {p : Primitives} {visit : Expr → Walk State Finding}

theorem resizes_reclassified {e e' : Expr} (h : Reclassified p e e') (name : String) :
    resizes name e = resizes name e' := by
  cases h with
  | call hargs =>
    cases hargs with
    | nil => rfl
    | cons ha _ => exact congrArg (· == some name) ha.name?
  | _ => rfl

theorem source?_reclassified {e e' : Expr} (h : Reclassified p e e') : source? e = source? e' := by
  induction e using Expr.induct generalizing e' with
  | assign target value ih _ =>
    cases h with
    | same => rfl
    | @assign _ target' _ _ ht _ =>
      show source? target = source? target'
      exact ih ht
  | _ => cases h <;> rfl

theorem bind_reclassified (hvisit : ∀ {e e'}, Reclassified p e e' → visit e = visit e')
    {e e' : Expr} (h : Reclassified p e e') (name : String) :
    bind p visit name e = bind p visit name e' := by
  have hallocate : allocate name e = allocate name e' := by
    unfold allocate
    rw [resizes_reclassified h]
  unfold bind
  rw [h.isAllocCall, h.isNullExpr, hvisit h, hallocate, source?_reclassified h]

theorem assign_reclassified (hvisit : ∀ {e e'}, Reclassified p e e' → visit e = visit e')
    {target target' value value' : Expr} (ht : Reclassified p target target')
    (hv : Reclassified p value value') :
    assign p visit target value = assign p visit target' value' := by
  have hbind (name : String) := bind_reclassified hvisit hv name
  have htarget := hvisit ht
  have hvalue := hvisit hv
  cases ht with
  | toPointer _ | toPlain _ => exact hbind _
  | same =>
    cases target with
    | ident name | varRef name => exact hbind name
    | absent => rfl
    | _ => simp only [assign, hvalue]
  | _ => simp only [assign, hvalue, htarget, Expr.kindName]

theorem expr_reclassified {e e' : Expr} (h : Reclassified p e e') (d : Nat) :
    expr p d e = expr p d e' := by
  induction d generalizing e e' with
  | zero => rfl
  | succ d ih =>
    cases h with
    | same | toPointer _ | toPlain _ => rfl
    | call hargs =>
      rw [expr, expr, Reclassified.freedName? hargs, map_eq_of_forall₂ hargs fun _ _ ha => ih ha]
    | deref hx => rw [expr, expr, hx.name?, ih hx]
    | binary hl hr => rw [expr, expr, ih hl, ih hr]
    | assign ht hv => exact assign_reclassified ih ht hv
    | index hi => rw [expr, expr, ih hi]
    | arrayDecl hs => rw [expr, expr, ih hs]

/-- Only an initialiser that is missing is not bound, and that is told in one way. -/
theorem pass_unclassified (p : Primitives) : (pass p).Unclassified p := by
  refine ⟨expr_reclassified, fun h d name => ?_, fun h d name => ?_⟩
  all_goals
    have hbind := bind_reclassified (fun h => expr_reclassified h d) h name
    cases h with
    | same => rfl
    | _ => exact hbind

end Memory

/-! ### Files -/

/-- The bounds check and the memory check report the same, be it diagnostics or an error, of two
files that differ in how they tell any of their references, names of the null pointer apart. -/
theorem classification_irrelevant (o : Options) {ds ds' : List Decl}
    (h : ds.Forall₂ (ReclassifiedDecl o.primitives) ds') :
    Bounds.analyzeFile o ds = Bounds.analyzeFile o ds' ∧
      Memory.analyzeFile o ds = Memory.analyzeFile o ds' := by
  constructor
  · rw [Bounds.analyzeFile, Bounds.analyzeFile, (Bounds.pass_unclassified _).decls h]
  · rw [Memory.analyzeFile, Memory.analyzeFile, (Memory.pass_unclassified _).decls h]

/-- A copy that is freed twice and a null pointer that is dereferenced, whichever of the references
are known to hold pointers. -/
theorem classification_irrelevant_at_copy :
    let file (told : String → Expr) : List Decl :=
      [.var "p" (.call "malloc" [.intLit 4]), .var "q" (told "p"),
        .func "f" [] (.base .void) (.block [.expr (.call "free" [told "q"]),
          .cond (told "p") (.expr (.call "free" [.varRef "q"])) .absent,
          .expr (.assign (told "p") (.ident "NULL")), .expr (.deref (told "p"))])]
    (file .ident).Forall₂ (ReclassifiedDecl .default) (file .varRef) ∧
      Bounds.analyzeFile {} (file .ident) = Bounds.analyzeFile {} (file .varRef) ∧
      Memory.analyzeFile {} (file .ident) = Memory.analyzeFile {} (file .varRef) ∧
      Memory.analyzeFile {} (file .ident) = .ok
        [Memory.Finding.diagnostic (.doubleFree "q"),
          Memory.Finding.diagnostic (.nullDereference "p")] := by
  intro file
  have hp : Reclassified .default (.ident "p") (.varRef "p") := .toPointer rfl
  have hq : Reclassified .default (.ident "q") (.varRef "q") := .toPointer rfl
  have hbody : ReclassifiedStmt .default
      (.block [.expr (.call "free" [.ident "q"]),
        .cond (.ident "p") (.expr (.call "free" [.varRef "q"])) .absent,
        .expr (.assign (.ident "p") (.ident "NULL")), .expr (.deref (.ident "p"))])
      (.block [.expr (.call "free" [.varRef "q"]),
        .cond (.varRef "p") (.expr (.call "free" [.varRef "q"])) .absent,
        .expr (.assign (.varRef "p") (.ident "NULL")), .expr (.deref (.varRef "p"))]) :=
    .block (.cons (.expr (.call (.cons hq .nil))) (.cons (.cond hp (.same _) (.same _))
      (.cons (.expr (.assign hp (.same _))) (.cons (.expr (.deref hp)) .nil))))
  have hfile : (file .ident).Forall₂ (ReclassifiedDecl .default) (file .varRef) :=
    .cons (.same _) (.cons (.var hp) (.cons (.func hbody) .nil))
  obtain ⟨hbounds, hmemory⟩ := classification_irrelevant {} hfile
  exact ⟨hfile, hbounds, hmemory, by decide⟩

/-- A name of the null pointer is another matter: as a reference to a pointer it is a variable. -/
example : Memory.analyzeFile {} [.var "p" (.ident "NULL"), .stmt (.expr (.deref (.ident "p")))] ≠
    Memory.analyzeFile {} [.var "p" (.varRef "NULL"), .stmt (.expr (.deref (.ident "p")))] := by
  decide

end MemLint.Check
