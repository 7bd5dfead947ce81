import MemLint.Tree

/-! What holds of every node of a tree, and how deep a tree nests. Children that a node may lack are
asked for nothing when they are absent; all other children count, also when they are absent. -/

namespace MemLint

/-- What is asked of the nodes of a tree, each taken on its own. -/
structure NodeRule where
  expr : Expr → Prop
  stmt : Stmt → Prop := fun _ => True
  decl : Decl → Prop := fun _ => True

namespace Expr

/-- Induction with all the arguments of a call at once. -/
theorem induct {P : Expr → Prop} (absent : P .absent) (foreign : ∀ kind, P (.foreign kind))
    (ident : ∀ name, P (.ident name)) (varRef : ∀ name, P (.varRef name))
    (intLit : ∀ v, P (.intLit v)) (stringLit : ∀ v, P (.stringLit v))
    (call : ∀ f args, (∀ a ∈ args, P a) → P (.call f args)) (addr : ∀ name, P (.addr name))
    (deref : ∀ x, P x → P (.deref x))
    (binary : ∀ op left right, P left → P right → P (.binary op left right))
    (assign : ∀ target value, P target → P value → P (.assign target value))
    (index : ∀ name i, P i → P (.index name i))
    (arrayDecl : ∀ name size, P size → P (.arrayDecl name size)) (e : Expr) : P e :=
  @Expr.rec P (fun args => ∀ a ∈ args, P a) absent foreign ident varRef intLit stringLit call addr
    deref binary assign index arrayDecl (by simp)
    (fun _ _ ha has => List.forall_mem_cons.2 ⟨ha, has⟩) e

mutual

/-- The rule holds of the expression and of every expression below it. -/
def Every (R : NodeRule) : Expr → Prop
  | call f args => R.expr (call f args) ∧ EveryOf R args
  | deref x => R.expr (deref x) ∧ x.Every R
  | binary op left right => R.expr (binary op left right) ∧ left.Every R ∧ right.Every R
  | assign target value => R.expr (assign target value) ∧ target.Every R ∧ value.Every R
  | index name i => R.expr (index name i) ∧ i.Every R
  | arrayDecl name size => R.expr (arrayDecl name size) ∧ size.Every R
  | e => R.expr e

def EveryOf (R : NodeRule) : List Expr → Prop
  | [] => True
  | e :: es => e.Every R ∧ EveryOf R es

end

/-- The same for an expression that may be absent. -/
def EveryIf (R : NodeRule) (e : Expr) : Prop := e = absent ∨ e.Every R

mutual

/-- The number of expressions on the longest way down. -/
def height : Expr → Nat
  | absent => 0
  | call _ args => heightOf args + 1
  | deref x => x.height + 1
  | binary _ left right => max left.height right.height + 1
  | assign target value => max target.height value.height + 1
  | index _ i => i.height + 1
  | arrayDecl _ size => size.height + 1
  | _ => 1

def heightOf : List Expr → Nat
  | [] => 0
  | e :: es => max e.height (heightOf es)

end

theorem everyOf_iff {R : NodeRule} {es : List Expr} : EveryOf R es ↔ ∀ e ∈ es, e.Every R := by
  induction es with
  | nil => simp [EveryOf]
  | cons e es ih => simp [EveryOf, ih]

theorem heightOf_le_iff {es : List Expr} {n : Nat} : heightOf es ≤ n ↔ ∀ e ∈ es, e.height ≤ n := by
  induction es with
  | nil => simp [heightOf]
  | cons e es ih => rw [heightOf, Nat.max_le, ih, List.forall_mem_cons]

/-- The rule holds of the node itself. -/
theorem Every.here {R : NodeRule} {e : Expr} (h : e.Every R) : R.expr e := by
  cases e <;> simp only [Every] at h
  case call | deref | binary | assign | index | arrayDecl => exact h.1
  all_goals exact h

theorem Every.args {R : NodeRule} {f : String} {args : List Expr} (h : (call f args).Every R) :
    ∀ a ∈ args, a.Every R := by
  simp only [Every] at h
  exact everyOf_iff.1 h.2

end Expr

namespace Stmt

mutual

/-- The rule holds of the statement and of everything below it. -/
def Every (R : NodeRule) : Stmt → Prop
  | block ss => R.stmt (block ss) ∧ EveryOf R ss
  | expr x => R.stmt (expr x) ∧ x.Every R
  | decl name init => R.stmt (decl name init) ∧ init.EveryIf R
  | cond test yes no =>
    R.stmt (cond test yes no) ∧ test.Every R ∧ yes.Every R ∧ (no = absent ∨ no.Every R)
  | loop init test post body =>
    R.stmt (loop init test post body) ∧ (init = absent ∨ init.Every R) ∧ test.EveryIf R ∧
      post.EveryIf R ∧ body.Every R
  | ret x => R.stmt (ret x) ∧ x.EveryIf R
  | s => R.stmt s

def EveryOf (R : NodeRule) : List Stmt → Prop
  | [] => True
  | s :: ss => s.Every R ∧ EveryOf R ss

end

mutual

/-- The number of statements and expressions on the longest way down. -/
def height : Stmt → Nat
  | absent => 0
  | block ss => heightOf ss + 1
  | expr x => x.height + 1
  | decl _ init => init.height + 1
  | cond test yes no => max test.height (max yes.height no.height) + 1
  | loop init test post body =>
    max (max init.height test.height) (max post.height body.height) + 1
  | ret x => x.height + 1
  | _ => 1

def heightOf : List Stmt → Nat
  | [] => 0
  | s :: ss => max s.height (heightOf ss)

end

theorem everyOf_iff {R : NodeRule} {ss : List Stmt} : EveryOf R ss ↔ ∀ s ∈ ss, s.Every R := by
  induction ss with
  | nil => simp [EveryOf]
  | cons s ss ih => simp [EveryOf, ih]

theorem heightOf_le_iff {ss : List Stmt} {n : Nat} : heightOf ss ≤ n ↔ ∀ s ∈ ss, s.height ≤ n := by
  induction ss with
  | nil => simp [heightOf]
  | cons s ss ih => rw [heightOf, Nat.max_le, ih, List.forall_mem_cons]

end Stmt

namespace Decl

/-- The rule holds of the declaration and of everything below it. -/
def Every (R : NodeRule) : Decl → Prop
  | func name params ret body =>
    R.decl (func name params ret body) ∧ (body = .absent ∨ body.Every R)
  | var name init => R.decl (var name init) ∧ init.EveryIf R
  | stmt s => R.decl (stmt s) ∧ s.Every R
  | d => R.decl d

/-- The number of statements and expressions on the longest way down. -/
def height : Decl → Nat
  | func _ _ _ body => body.height
  | var _ init => init.height
  | stmt s => s.height
  | _ => 0

end Decl

/-! ### Well-formed trees -/

/-- Every node is there and of a known kind, and what is assigned to can be assigned to. -/
def NodeRule.wellFormed : NodeRule where
  expr
    | .absent | .foreign _ => False
    | .assign target _ => target.assignable
    | _ => True
  stmt
    | .absent | .foreign _ => False
    | _ => True
  decl
    | .absent | .foreign _ => False
    | _ => True

namespace Expr

def WellFormed (e : Expr) : Prop := e.Every .wellFormed

@[simp] theorem not_wellFormed_absent : ¬ absent.WellFormed := id

theorem WellFormed.ne_absent {e : Expr} (h : e.WellFormed) : e ≠ absent := by
  rintro rfl
  exact not_wellFormed_absent h

@[simp] theorem not_wellFormed_foreign (kind : String) : ¬ (foreign kind).WellFormed := id

@[simp] theorem wellFormed_ident (name : String) : (ident name).WellFormed := trivial

@[simp] theorem wellFormed_varRef (name : String) : (varRef name).WellFormed := trivial

@[simp] theorem wellFormed_intLit (v : Int) : (intLit v).WellFormed := trivial

@[simp] theorem wellFormed_stringLit (v : String) : (stringLit v).WellFormed := trivial

@[simp] theorem wellFormed_addr (name : String) : (addr name).WellFormed := trivial

@[simp] theorem wellFormed_call {f : String} {args : List Expr} :
    (call f args).WellFormed ↔ ∀ a ∈ args, a.WellFormed :=
  (Iff.of_eq (true_and _)).trans everyOf_iff

@[simp] theorem wellFormed_deref {x : Expr} : (deref x).WellFormed ↔ x.WellFormed :=
  Iff.of_eq (true_and _)

@[simp] theorem wellFormed_binary {op : BinOp} {left right : Expr} :
    (binary op left right).WellFormed ↔ left.WellFormed ∧ right.WellFormed := Iff.of_eq (true_and _)

@[simp] theorem wellFormed_assign {target value : Expr} :
    (assign target value).WellFormed ↔
      target.assignable ∧ target.WellFormed ∧ value.WellFormed := Iff.rfl

@[simp] theorem wellFormed_index {name : String} {i : Expr} :
    (index name i).WellFormed ↔ i.WellFormed := Iff.of_eq (true_and _)

@[simp] theorem wellFormed_arrayDecl {name : String} {size : Expr} :
    (arrayDecl name size).WellFormed ↔ size.WellFormed := Iff.of_eq (true_and _)

end Expr

namespace Stmt

def WellFormed (s : Stmt) : Prop := s.Every .wellFormed

@[simp] theorem not_wellFormed_absent : ¬ absent.WellFormed := id

@[simp] theorem not_wellFormed_foreign (kind : String) : ¬ (foreign kind).WellFormed := id

@[simp] theorem wellFormed_block {ss : List Stmt} :
    (block ss).WellFormed ↔ ∀ s ∈ ss, s.WellFormed :=
  (Iff.of_eq (true_and _)).trans everyOf_iff

@[simp] theorem wellFormed_expr {x : Expr} : (expr x).WellFormed ↔ x.WellFormed :=
  Iff.of_eq (true_and _)

@[simp] theorem wellFormed_decl {name : String} {init : Expr} :
    (decl name init).WellFormed ↔ init = .absent ∨ init.WellFormed := Iff.of_eq (true_and _)

@[simp] theorem wellFormed_cond {test : Expr} {yes no : Stmt} :
    (cond test yes no).WellFormed ↔
      test.WellFormed ∧ yes.WellFormed ∧ (no = absent ∨ no.WellFormed) := Iff.of_eq (true_and _)

@[simp] theorem wellFormed_loop {init body : Stmt} {test post : Expr} :
    (loop init test post body).WellFormed ↔
      (init = absent ∨ init.WellFormed) ∧ (test = .absent ∨ test.WellFormed) ∧
        (post = .absent ∨ post.WellFormed) ∧ body.WellFormed := Iff.of_eq (true_and _)

@[simp] theorem wellFormed_ret {x : Expr} :
    (ret x).WellFormed ↔ x = .absent ∨ x.WellFormed := Iff.of_eq (true_and _)

@[simp] theorem wellFormed_jump (kind : Jump) : (jump kind).WellFormed := trivial

end Stmt

namespace Decl

def WellFormed (d : Decl) : Prop := d.Every .wellFormed

@[simp] theorem not_wellFormed_absent : ¬ absent.WellFormed := id

@[simp] theorem not_wellFormed_foreign (kind : String) : ¬ (foreign kind).WellFormed := id

@[simp] theorem wellFormed_func {name : String} {params : List Param} {ret : DeclType}
    {body : Stmt} : (func name params ret body).WellFormed ↔ body = .absent ∨ body.WellFormed :=
  Iff.of_eq (true_and _)

@[simp] theorem wellFormed_var {name : String} {init : Expr} :
    (var name init).WellFormed ↔ init = .absent ∨ init.WellFormed := Iff.of_eq (true_and _)

@[simp] theorem wellFormed_stmt {s : Stmt} : (stmt s).WellFormed ↔ s.WellFormed :=
  Iff.of_eq (true_and _)

end Decl

end MemLint
