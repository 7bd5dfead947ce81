import Mathlib.Algebra.BigOperators.Group.List.Basic
import Mathlib.Algebra.GroupWithZero.Nat
import MemLint.Proofs.Check.Simulation

/-! Counting what a check finds. A weight says how many findings a single expression is worth; the
sum of it over all that a check goes through is what the check finds, as long as it stays in the
states that the weight is meant for. It stays there if nothing disturbs it, which is a second weight
whose sum is zero. This is shown once for the way all checks go through statements, so that a check
needs to be counted only on expressions and declared names. -/

namespace MemLint

/-! ### Sums over trees -/

namespace Expr

variable {p : Check.Primitives} {weight : Expr → Nat}

mutual

/-- The sum of the weight over the expressions that a check goes through. A call that releases a
name leaves its arguments aside, and a name that is assigned to is not gone through. -/
def total (p : Check.Primitives) (weight : Expr → Nat) : Expr → Nat
  | absent => 0
  | call f args => weight (call f args) +
      if (p.freedName? f args).isSome then 0 else totalOf p weight args
  | deref x => weight (deref x) + x.total p weight
  | binary op left right =>
      weight (binary op left right) + (left.total p weight + right.total p weight)
  | assign target value => weight (assign target value) +
      ((if target.name?.isSome then 0 else target.total p weight) + value.total p weight)
  | index name i => weight (index name i) + i.total p weight
  | arrayDecl name size => weight (arrayDecl name size) + size.total p weight
  | e => weight e

def totalOf (p : Check.Primitives) (weight : Expr → Nat) : List Expr → Nat
  | [] => 0
  | e :: es => e.total p weight + totalOf p weight es

end

theorem totalOf_eq (es : List Expr) : totalOf p weight es = (es.map (total p weight)).sum := by
  induction es with
  | nil => rfl
  | cons e es ih => rw [totalOf, ih, List.map_cons, List.sum_cons]

theorem total_zero (e : Expr) : e.total p (fun _ => 0) = 0 := by
  induction e using Expr.induct with
  | call f args ih =>
    rw [total, totalOf_eq, List.sum_eq_zero (by simpa using ih)]
    simp
  | deref | binary | assign | index | arrayDecl => simp_all [total]
  | _ => rfl

end Expr

namespace Stmt

variable {p : Check.Primitives} {weight : Expr → Nat}

mutual

/-- The sum of the weight over the expressions that a check goes through. -/
def total (p : Check.Primitives) (weight : Expr → Nat) : Stmt → Nat
  | block ss => totalOf p weight ss
  | expr x => x.total p weight
  | decl _ init => init.total p weight
  | cond test yes no => test.total p weight + (yes.total p weight + no.total p weight)
  | loop init test post body =>
      init.total p weight + (test.total p weight + (body.total p weight + post.total p weight))
  | ret x => x.total p weight
  | _ => 0

def totalOf (p : Check.Primitives) (weight : Expr → Nat) : List Stmt → Nat
  | [] => 0
  | s :: ss => s.total p weight + totalOf p weight ss

end

theorem totalOf_eq (ss : List Stmt) : totalOf p weight ss = (ss.map (total p weight)).sum := by
  induction ss with
  | nil => rfl
  | cons s ss ih => rw [totalOf, ih, List.map_cons, List.sum_cons]

mutual

theorem total_zero (p : Check.Primitives) : (s : Stmt) → s.total p (fun _ => 0) = 0
  | absent | foreign _ | jump _ => rfl
  | block ss => totalOf_zero p ss
  | expr x | ret x | decl _ x => Expr.total_zero x
  | cond test yes no => by
    rw [total, Expr.total_zero, total_zero p yes, total_zero p no]
  | loop init test post body => by
    rw [total, total_zero p init, Expr.total_zero, total_zero p body, Expr.total_zero]

theorem totalOf_zero (p : Check.Primitives) : (ss : List Stmt) → totalOf p (fun _ => 0) ss = 0
  | [] => rfl
  | s :: ss => by rw [totalOf, total_zero p s, totalOf_zero p ss]

end

end Stmt

/-- The name is neither declared nor assigned to, and what is assigned to can be assigned to. -/
def NodeRule.spares (name : String) : NodeRule where
  expr
    | .assign target _ => target.assignable ∧ target.name? ≠ some name
    | .arrayDecl n _ => n ≠ name
    | _ => True
  stmt
    | .decl n _ => n ≠ name
    | _ => True

namespace Check

variable {σ φ : Type} {I : σ → Prop} {N : φ → Bool}

/-! ### Walks -/

namespace Walk

/-- From a state in `I` the walk, if nothing disturbs it and it gets through, stays in `I` and notes
`n` of the findings in `N`. -/
def Counts (I : σ → Prop) (N : φ → Bool) (disturbed n : Nat) (w : Walk σ φ) : Prop :=
  ∀ s s' xs, I s → disturbed = 0 → w s = .ok (s', xs) → I s' ∧ xs.countP N = n

variable {b b' n n' : Nat} {v w : Walk σ φ}

theorem Counts.congr (h : w.Counts I N b n) (hb : b = b') (hn : n = n') : w.Counts I N b' n' := by
  subst hb hn
  exact h

theorem counts_fail (f : Fault) : (fail f : Walk σ φ).Counts I N b n :=
  fun _ _ _ _ _ h => nomatch h

theorem counts_note (xs : List φ) : (note xs).Counts I N b (xs.countP N) := by
  intro s s' ys hs _ h
  cases h
  exact ⟨hs, rfl⟩

theorem counts_other {xs : List φ} (h : ∀ x ∈ xs, N x = false) : (note xs).Counts I N b 0 :=
  (counts_note xs).congr rfl (List.countP_eq_zero.2 fun x hx => by simp [h x hx])

theorem counts_skip : (skip : Walk σ φ).Counts I N b 0 := counts_note []

theorem counts_look {w : σ → Walk σ φ} (h : ∀ s, (w s).Counts I N b n) :
    (look w).Counts I N b n := fun s => h s s

theorem counts_update {f : σ → σ} (hf : ∀ s, I s → I (f s)) :
    (update f : Walk σ φ).Counts I N b 0 := by
  intro s s' xs hs _ h
  cases h
  exact ⟨hf s hs, rfl⟩

theorem Counts.andThen (hv : v.Counts I N b n) (hw : w.Counts I N b' n') :
    (v.andThen w).Counts I N (b + b') (n + n') := by
  intro s s'' zs hs hb h
  obtain ⟨hb, hb'⟩ := Nat.add_eq_zero_iff.1 hb
  obtain ⟨s', xs, ys, hxs, hys, rfl⟩ := andThen_eq_ok.1 h
  obtain ⟨hs', hn⟩ := hv s s' xs hs hb hxs
  obtain ⟨hs'', hn'⟩ := hw s' s'' ys hs' hb' hys
  exact ⟨hs'', by rw [List.countP_append, hn, hn']⟩

theorem Counts.andUpdate {f : σ → σ} (hv : v.Counts I N b n) (hf : ∀ s, I s → I (f s)) :
    (v.andThen (update f)).Counts I N b n :=
  (hv.andThen (counts_update hf)).congr (Nat.add_zero b) (Nat.add_zero n)

theorem Counts.fork (h : w.Counts I N b n) : w.fork.Counts I N b n := by
  intro s s' xs hs hb hw
  obtain ⟨rfl, s'', hw⟩ := fork_eq_ok.1 hw
  exact ⟨hs, (h _ s'' xs hs hb hw).2⟩

theorem counts_all {α : Type} {f : α → Walk σ φ} {b n : α → Nat} {as : List α}
    (h : ∀ a ∈ as, (f a).Counts I N (b a) (n a)) :
    (all (as.map f)).Counts I N (as.map b).sum (as.map n).sum := by
  induction as with
  | nil => exact counts_skip
  | cons a as ih =>
    simp only [List.map_cons, List.sum_cons, all_cons]
    exact (h a (by simp)).andThen (ih fun a' ha' => h a' (by simp [ha']))

end Walk

/-! ### Passes -/

variable {p : Primitives} {disturb weight : Expr → Nat} {R : NodeRule}

theorem counts_ifExpr {e : Expr} {w : Walk σ φ} (he : e.EveryIf R)
    (h : e.Every R → w.Counts I N (e.total p disturb) (e.total p weight)) :
    (ifExpr e w).Counts I N (e.total p disturb) (e.total p weight) := by
  rcases he with rfl | he
  · exact Walk.counts_skip
  · cases e with
    | absent => exact Walk.counts_skip
    | _ => exact h he

theorem counts_ifStmt {s : Stmt} {w : Walk σ φ} (hs : s = .absent ∨ s.Every R)
    (h : s.Every R → w.Counts I N (s.total p disturb) (s.total p weight)) :
    (ifStmt s w).Counts I N (s.total p disturb) (s.total p weight) := by
  rcases hs with rfl | hs
  · exact Walk.counts_skip
  · cases s with
    | absent => exact Walk.counts_skip
    | _ => exact h hs

/-- The pass notes what the weight says on what is not common to all passes. -/
structure Pass.Counts (I : σ → Prop) (N : φ → Bool) (R : NodeRule) (p : Primitives)
    (disturb weight : Expr → Nat) (q : Pass σ φ) : Prop where
  expr : ∀ d e, e.Every R → (q.expr d e).Counts I N (e.total p disturb) (e.total p weight)
  declare : ∀ d name e, R.stmt (.decl name e) → e.EveryIf R →
    (q.declare d name e).Counts I N (e.total p disturb) (e.total p weight)
  unsupported : ∀ kind, N (q.unsupported kind) = false

theorem Pass.Counts.stmt {q : Pass σ φ} (h : q.Counts I N R p disturb weight) (d : Nat) (s : Stmt)
    (hs : s.Every R) : (q.stmt d s).Counts I N (s.total p disturb) (s.total p weight) := by
  induction d generalizing s with
  | zero => exact Walk.counts_fail .tooDeep
  | succ d ih =>
    cases s with
    | absent => exact Walk.counts_fail .absentStmt
    | foreign kind => exact Walk.counts_other (List.forall_mem_singleton.2 (h.unsupported kind))
    | block ss =>
      rw [Stmt.total, Stmt.total, Stmt.totalOf_eq, Stmt.totalOf_eq]
      exact Walk.counts_all fun s hmem => ih s (Stmt.everyOf_iff.1 hs.2 s hmem)
    | expr x => exact h.expr d x hs.2
    | decl name init => exact h.declare d name init hs.1 hs.2
    | cond test yes no =>
      obtain ⟨-, htest, hyes, hno⟩ := hs
      refine (h.expr d test htest).andThen ((ih yes hyes).fork.andThen ?_)
      exact counts_ifStmt hno fun hno => (ih no hno).fork
    | loop init test post body =>
      obtain ⟨-, hinit, htest, hpost, hbody⟩ := hs
      refine .fork ((counts_ifStmt hinit (ih init)).andThen ?_)
      refine (counts_ifExpr htest (h.expr d test)).andThen ?_
      exact (ih body hbody).andThen (counts_ifExpr hpost (h.expr d post))
    | ret x => exact counts_ifExpr hs.2 (h.expr d x)
    | jump kind => exact Walk.counts_skip

end Check

end MemLint
