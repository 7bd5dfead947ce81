import Mathlib.Logic.Function.Defs
import MemLint.Check.Pass
import MemLint.Table

/-! Renamed trees, and two runs side by side: one over a tree, one over the renamed tree. They are
compared step by step, once for the way all checks go through statements and files, so that a check
needs to be compared with itself only on expressions and declared names. -/

namespace MemLint

/-! ### Renamed trees -/

namespace Expr

mutual

/-- Every name is replaced by its image; the kinds of foreign nodes are no names. -/
def rename (r : String → String) : Expr → Expr
  | absent => absent
  | foreign kind => foreign kind
  | ident name => ident (r name)
  | varRef name => varRef (r name)
  | intLit v => intLit v
  | stringLit v => stringLit v
  | call f args => call (r f) (renameAll r args)
  | addr name => addr (r name)
  | deref x => deref (x.rename r)
  | binary op left right => binary op (left.rename r) (right.rename r)
  | assign target value => assign (target.rename r) (value.rename r)
  | index name i => index (r name) (i.rename r)
  | arrayDecl name size => arrayDecl (r name) (size.rename r)

def renameAll (r : String → String) : List Expr → List Expr
  | [] => []
  | e :: es => e.rename r :: renameAll r es

end

variable (r : String → String)

theorem renameAll_eq (es : List Expr) : renameAll r es = es.map (rename r) := by
  induction es with
  | nil => rfl
  | cons e es ih => exact congrArg (e.rename r :: ·) ih

theorem rename_call (f : String) (args : List Expr) :
    (call f args).rename r = call (r f) (args.map (rename r)) :=
  congrArg (call (r f)) (renameAll_eq r args)

theorem name?_rename (e : Expr) : (e.rename r).name? = e.name?.map r := by
  cases e <;> rfl

end Expr

namespace Stmt

mutual

def rename (r : String → String) : Stmt → Stmt
  | absent => absent
  | foreign kind => foreign kind
  | block ss => block (renameAll r ss)
  | expr x => expr (x.rename r)
  | decl name init => decl (r name) (init.rename r)
  | cond test yes no => cond (test.rename r) (yes.rename r) (no.rename r)
  | loop init test post body =>
    loop (init.rename r) (test.rename r) (post.rename r) (body.rename r)
  | ret x => ret (x.rename r)
  | jump kind => jump kind

def renameAll (r : String → String) : List Stmt → List Stmt
  | [] => []
  | s :: ss => s.rename r :: renameAll r ss

end

theorem renameAll_eq (r : String → String) (ss : List Stmt) :
    renameAll r ss = ss.map (rename r) := by
  induction ss with
  | nil => rfl
  | cons s ss ih => exact congrArg (s.rename r :: ·) ih

end Stmt

def Param.rename (r : String → String) (p : Param) : Param := { p with name := r p.name }

def Decl.rename (r : String → String) : Decl → Decl
  | absent => absent
  | foreign kind => foreign kind
  | func name params ret body => func (r name) (params.map (Param.rename r)) ret (body.rename r)
  | var name init => var (r name) (init.rename r)
  | stmt s => stmt (s.rename r)

/-! ### Renamed tables -/

namespace Table

variable {α : Type} {r : String → String} {s t : Table α}

/-- The second table holds under the image of a name what the first holds under the name. -/
def Carried (r : String → String) (s t : Table α) : Prop := ∀ name, t.get? (r name) = s.get? name

theorem carried_empty : (empty : Table α).Carried r empty := fun _ => rfl

theorem Carried.set (h : s.Carried r t) (hr : r.Injective) (name : String) (a : α) :
    (s.set name a).Carried r (t.set (r name) a) := by
  intro other
  rw [get?_set, get?_set, h other]
  simp only [hr.eq_iff]

theorem Carried.erase (h : s.Carried r t) (hr : r.Injective) (name : String) :
    (s.erase name).Carried r (t.erase (r name)) := by
  intro other
  rw [get?_erase, get?_erase, h other]
  simp only [hr.eq_iff]

end Table

/-! ### Two runs -/

namespace Check

variable {σ τ φ ψ : Type} {S : σ → τ → Prop} {g : φ → ψ} {r : String → String}

namespace Walk

/-- From related states both walks stop with the same fault, or they reach related states and the
second notes the images of what the first notes. -/
def Mirrors (S : σ → τ → Prop) (g : φ → ψ) (v : Walk σ φ) (w : Walk τ ψ) : Prop :=
  ∀ s t, S s t → (∃ f, v s = .error f ∧ w t = .error f) ∨
    ∃ s' t' xs, v s = .ok (s', xs) ∧ w t = .ok (t', xs.map g) ∧ S s' t'

variable {v v' : Walk σ φ} {w w' : Walk τ ψ}

theorem mirrors_fail (f : Fault) : (fail f : Walk σ φ).Mirrors S g (fail f) :=
  fun _ _ _ => .inl ⟨f, rfl, rfl⟩

theorem mirrors_update {f : σ → σ} {h : τ → τ} (H : ∀ s t, S s t → S (f s) (h t)) :
    (update f).Mirrors S g (update h) :=
  fun s t hst => .inr ⟨f s, h t, [], rfl, rfl, H s t hst⟩

theorem mirrors_skip : (skip : Walk σ φ).Mirrors S g (skip : Walk τ ψ) :=
  fun s t hst => .inr ⟨s, t, [], rfl, rfl, hst⟩

theorem mirrors_note (xs : List φ) : (note xs).Mirrors S g (note (xs.map g)) :=
  fun s t hst => .inr ⟨s, t, xs, rfl, rfl, hst⟩

theorem mirrors_look {v : σ → Walk σ φ} {w : τ → Walk τ ψ}
    (h : ∀ s t, S s t → (v s).Mirrors S g (w t)) : (look v).Mirrors S g (look w) :=
  fun s t hst => h s t hst s t hst

theorem Mirrors.andThen (hv : v.Mirrors S g w) (hv' : v'.Mirrors S g w') :
    (v.andThen v').Mirrors S g (w.andThen w') := by
  intro s t hst
  rcases hv s t hst with ⟨f, hs, ht⟩ | ⟨s', t', xs, hs, ht, hst'⟩
  · left
    exact ⟨f, by simp [Walk.andThen, hs], by simp [Walk.andThen, ht]⟩
  · rcases hv' s' t' hst' with ⟨f, hs', ht'⟩ | ⟨s'', t'', ys, hs', ht', hst''⟩
    · left
      exact ⟨f, by simp [Walk.andThen, hs, hs'], by simp [Walk.andThen, ht, ht']⟩
    · right
      exact ⟨s'', t'', xs ++ ys, by simp [Walk.andThen, hs, hs'], by simp [Walk.andThen, ht, ht'], hst''⟩

theorem Mirrors.fork (h : v.Mirrors S g w) : v.fork.Mirrors S g w.fork := by
  intro s t hst
  rcases h s t hst with ⟨f, hs, ht⟩ | ⟨s', t', xs, hs, ht, -⟩
  · left
    exact ⟨f, by simp [Walk.fork, hs], by simp [Walk.fork, ht]⟩
  · right
    exact ⟨s, t, xs, by simp [Walk.fork, hs], by simp [Walk.fork, ht], hst⟩

theorem mirrors_all {α β : Type} {f : α → Walk σ φ} {h : β → Walk τ ψ} {e : α → β} {as : List α}
    (H : ∀ a ∈ as, (f a).Mirrors S g (h (e a))) :
    (all (as.map f)).Mirrors S g (all ((as.map e).map h)) := by
  induction as with
  | nil => exact mirrors_skip
  | cons a as ih =>
    rw [List.map_cons, List.map_cons, List.map_cons, all_cons, all_cons]
    exact (H a List.mem_cons_self).andThen (ih fun b hb => H b (List.mem_cons_of_mem a hb))

end Walk

theorem mirrors_ifExpr (e : Expr) {v : Walk σ φ} {w : Walk τ ψ} (h : v.Mirrors S g w) :
    (ifExpr e v).Mirrors S g (ifExpr (e.rename r) w) := by
  cases e with
  | absent => exact Walk.mirrors_skip
  | _ => exact h

theorem mirrors_ifStmt (s : Stmt) {v : Walk σ φ} {w : Walk τ ψ} (h : v.Mirrors S g w) :
    (ifStmt s v).Mirrors S g (ifStmt (s.rename r) w) := by
  cases s with
  | absent => exact Walk.mirrors_skip
  | _ => exact h

/-- On what is not common to all passes, the second pass does with the renamed tree what the first
does with the tree. -/
structure Pass.Mirrors (S : σ → τ → Prop) (g : φ → ψ) (r : String → String) (p : Pass σ φ)
    (q : Pass τ ψ) : Prop where
  expr : ∀ d e, (p.expr d e).Mirrors S g (q.expr d (e.rename r))
  declare : ∀ d name e, (p.declare d name e).Mirrors S g (q.declare d (r name) (e.rename r))
  declareGlobal : ∀ d name e,
    (p.declareGlobal d name e).Mirrors S g (q.declareGlobal d (r name) (e.rename r))
  enter : ∀ params s t, S s t →
    S (p.enter params s) (q.enter (params.map (Param.rename r)) t)
  unsupported : ∀ kind, g (p.unsupported kind) = q.unsupported kind

namespace Pass.Mirrors

variable {p : Pass σ φ} {q : Pass τ ψ}

theorem note (h : p.Mirrors S g r q) (kind : String) :
    (Walk.note [p.unsupported kind]).Mirrors S g (Walk.note [q.unsupported kind]) := by
  rw [← h.unsupported kind]
  exact Walk.mirrors_note [p.unsupported kind]

theorem stmt (h : p.Mirrors S g r q) (d : Nat) (s : Stmt) :
    (p.stmt d s).Mirrors S g (q.stmt d (s.rename r)) := by
  induction d generalizing s with
  | zero => exact Walk.mirrors_fail .tooDeep
  | succ d ih =>
    cases s with
    | absent => exact Walk.mirrors_fail .absentStmt
    | foreign kind => exact h.note kind
    | block ss =>
      show (Walk.all (ss.map (p.stmt d))).Mirrors S g
        (Walk.all ((Stmt.renameAll r ss).map (q.stmt d)))
      rw [Stmt.renameAll_eq]
      exact Walk.mirrors_all fun s _ => ih s
    | expr x => exact h.expr d x
    | decl name init => exact h.declare d name init
    | cond test yes no =>
      exact (h.expr d test).andThen ((ih yes).fork.andThen (mirrors_ifStmt no (ih no).fork))
    | loop init test post body =>
      have hinit := mirrors_ifStmt (r := r) init (ih init)
      have htest := mirrors_ifExpr (r := r) test (h.expr d test)
      have hpost := mirrors_ifExpr (r := r) post (h.expr d post)
      exact (hinit.andThen (htest.andThen ((ih body).andThen hpost))).fork
    | ret x => exact mirrors_ifExpr x (h.expr d x)
    | jump kind => exact Walk.mirrors_skip

theorem decl (h : p.Mirrors S g r q) (depth : Nat) (d : Decl) :
    (p.decl depth d).Mirrors S g (q.decl depth (d.rename r)) := by
  cases d with
  | absent => exact Walk.mirrors_fail .absentDecl
  | foreign kind => exact h.note kind
  | func name params ret body =>
    have henter := Walk.mirrors_update (g := g) (h.enter params)
    exact mirrors_ifStmt body (henter.andThen (h.stmt depth body)).fork
  | var name init => exact h.declareGlobal depth name init
  | stmt s => exact h.stmt depth s

/-- A whole file. -/
theorem decls (h : p.Mirrors S g r q) (depth : Nat) (ds : List Decl) :
    (p.decls depth ds).Mirrors S g (q.decls depth (ds.map (Decl.rename r))) :=
  Walk.mirrors_all fun d _ => h.decl depth d

end Pass.Mirrors

/-- What a function does with its parameters, one after another. -/
theorem carried_enter {α : Type} {f : Table α → Param → Table α}
    (hf : ∀ s t prm, s.Carried r t → (f s prm).Carried r (f t (prm.rename r)))
    (params : List Param) (s t : Table α) (h : s.Carried r t) :
    (params.foldl f s).Carried r ((params.map (Param.rename r)).foldl f t) := by
  induction params generalizing s t with
  | nil => exact h
  | cons prm params ih => exact ih (f s prm) (f t (prm.rename r)) (hf s t prm h)

end Check

end MemLint
