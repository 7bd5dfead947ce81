import MemLint.Check.Pass
import MemLint.Proofs.Tree

/-! One check follows another. Whenever the second check gets through a tree, the first one does as
well; their states stay linked, and the findings of the first are covered by those of the second.
This is shown once for the way all checks go through statements and files, so that two checks need
to be compared only on expressions and declared names. -/

namespace MemLint.Check

variable {σ τ φ ψ : Type}

/-- How the states and the findings of two checks belong together. -/
structure Link (σ τ φ ψ : Type) where
  states : σ → τ → Prop
  covers : List φ → List ψ → Prop
  covers_nil : ∀ ys, covers [] ys
  covers_append : ∀ {xs xs' ys ys'}, covers xs ys → covers xs' ys' →
    covers (xs ++ xs') (ys ++ ys')

namespace Walk

/-- From linked states, the first walk can go wherever the second one goes. -/
def Follows (L : Link σ τ φ ψ) (v : Walk σ φ) (w : Walk τ ψ) : Prop :=
  ∀ s t, L.states s t → ∀ t' ys, w t = .ok (t', ys) →
    ∃ s' xs, v s = .ok (s', xs) ∧ L.states s' t' ∧ L.covers xs ys

theorem andThen_eq_ok {v w : Walk σ φ} {s s'' : σ} {zs : List φ} :
    v.andThen w s = .ok (s'', zs) ↔
      ∃ s' xs ys, v s = .ok (s', xs) ∧ w s' = .ok (s'', ys) ∧ zs = xs ++ ys := by
  unfold andThen
  constructor
  · intro h
    split at h
    next => cases h
    next s' xs hv =>
      split at h
      next => cases h
      next ys hw =>
        cases h
        exact ⟨s', xs, ys, hv, hw, rfl⟩
  · rintro ⟨s', xs, ys, hv, hw, rfl⟩
    rw [hv]
    dsimp only
    rw [hw]

theorem fork_eq_ok {w : Walk σ φ} {s s' : σ} {xs : List φ} :
    w.fork s = .ok (s', xs) ↔ s' = s ∧ ∃ s'', w s = .ok (s'', xs) := by
  unfold fork
  constructor
  · intro h
    split at h
    next => cases h
    next s'' xs hw =>
      cases h
      exact ⟨rfl, s'', hw⟩
  · rintro ⟨rfl, s'', hw⟩
    rw [hw]

variable {L : Link σ τ φ ψ} {v v' : Walk σ φ} {w w' : Walk τ ψ}

theorem follows_fail (f : Fault) : v.Follows L (fail f) := fun _ _ _ _ _ h => nomatch h

theorem follows_update {f : σ → σ} {g : τ → τ} (h : ∀ s t, L.states s t → L.states (f s) (g t)) :
    (update f).Follows L (update g) := by
  intro s t hst t' ys ht
  cases ht
  exact ⟨f s, [], rfl, h s t hst, L.covers_nil []⟩

theorem follows_skip : (skip : Walk σ φ).Follows L (skip : Walk τ ψ) :=
  follows_update (f := id) (g := id) fun _ _ => id

theorem follows_note {xs : List φ} {ys : List ψ} (h : L.covers xs ys) :
    (note xs).Follows L (note ys) := by
  intro s t hst t' zs ht
  cases ht
  exact ⟨s, xs, rfl, hst, h⟩

theorem Follows.andThen (hv : v.Follows L w) (hv' : v'.Follows L w') :
    (v.andThen v').Follows L (w.andThen w') := by
  intro s t hst t'' zs ht
  obtain ⟨t', ys, ys', hw, hw', rfl⟩ := andThen_eq_ok.1 ht
  obtain ⟨s', xs, hs, hst', hx⟩ := hv s t hst t' ys hw
  obtain ⟨s'', xs', hs', hst'', hx'⟩ := hv' s' t' hst' t'' ys' hw'
  exact ⟨s'', xs ++ xs', andThen_eq_ok.2 ⟨s', xs, xs', hs, hs', rfl⟩, hst'', L.covers_append hx hx'⟩

theorem Follows.fork (h : v.Follows L w) : v.fork.Follows L w.fork := by
  intro s t hst t' ys ht
  obtain ⟨rfl, t'', hw⟩ := fork_eq_ok.1 ht
  obtain ⟨s', xs, hs, -, hx⟩ := h s _ hst t'' ys hw
  exact ⟨s, xs, fork_eq_ok.2 ⟨rfl, s', hs⟩, hst, hx⟩

theorem follows_all {α : Type} {f : α → Walk σ φ} {g : α → Walk τ ψ} {as : List α}
    (h : ∀ a ∈ as, (f a).Follows L (g a)) : (all (as.map f)).Follows L (all (as.map g)) := by
  induction as with
  | nil => exact follows_skip
  | cons a as ih =>
    rw [List.map_cons, List.map_cons, all_cons, all_cons]
    exact (h a (by simp)).andThen (ih fun b hb => h b (by simp [hb]))

end Walk

namespace Walk

variable {L : Link σ τ φ ψ} {v : Walk σ φ} {w : Walk τ ψ}

/-- The first check may look around before it follows. -/
theorem Follows.look_first {u : Walk σ φ} (h : v.Follows L w)
    (hu : ∀ s, ∃ xs, u s = .ok (s, xs) ∧ L.covers xs []) : (u.andThen v).Follows L w := by
  intro s t hst t' ys ht
  obtain ⟨xs, hs, hx⟩ := hu s
  obtain ⟨s', xs', hs', hst', hx'⟩ := h s t hst t' ys ht
  exact ⟨s', xs ++ xs', andThen_eq_ok.2 ⟨s, xs, xs', hs, hs', rfl⟩, hst', L.covers_append hx hx'⟩

/-- The second check may look around afterwards. -/
theorem Follows.look_last {u : Walk τ ψ} (h : v.Follows L w)
    (hu : ∀ t t' ys, u t = .ok (t', ys) → t' = t) : v.Follows L (w.andThen u) := by
  intro s t hst t'' zs ht
  obtain ⟨t', ys, ys', hw, hw', rfl⟩ := andThen_eq_ok.1 ht
  obtain rfl := hu t' t'' ys' hw'
  obtain ⟨s', xs, hs, hst', hx⟩ := h s t hst t'' ys hw
  refine ⟨s', xs, hs, hst', ?_⟩
  have := L.covers_append hx (L.covers_nil ys')
  rwa [List.append_nil] at this

/-! ### What a walk keeps -/

/-- The walk does not leave the states in `I`. -/
def Keeps (I : σ → Prop) (w : Walk σ φ) : Prop := ∀ s s' xs, I s → w s = .ok (s', xs) → I s'

variable {I : σ → Prop}

theorem keeps_update {f : σ → σ} (h : ∀ s, I s → I (f s)) : (update f : Walk σ φ).Keeps I := by
  intro s s' xs hs hw
  cases hw
  exact h s hs

theorem keeps_skip : (skip : Walk σ φ).Keeps I := keeps_update (f := id) fun _ => id

theorem keeps_note (xs : List φ) : (note xs : Walk σ φ).Keeps I := by
  intro s s' ys hs hw
  cases hw
  exact hs

theorem keeps_fail (f : Fault) : (fail f : Walk σ φ).Keeps I := fun _ _ _ _ h => nomatch h

theorem keeps_look {w : σ → Walk σ φ} (h : ∀ s, (w s).Keeps I) : (look w).Keeps I :=
  fun s s' xs hs hw => h s s s' xs hs hw

theorem Keeps.andThen {v w : Walk σ φ} (hv : v.Keeps I) (hw : w.Keeps I) :
    (v.andThen w).Keeps I := by
  intro s s'' zs hs h
  obtain ⟨s', xs, ys, hv', hw', -⟩ := andThen_eq_ok.1 h
  exact hw s' s'' ys (hv s s' xs hs hv') hw'

theorem keeps_fork (w : Walk σ φ) : w.fork.Keeps I := by
  intro s s' xs hs h
  obtain ⟨rfl, -⟩ := fork_eq_ok.1 h
  exact hs

theorem keeps_all {ws : List (Walk σ φ)} (h : ∀ w ∈ ws, w.Keeps I) : (all ws).Keeps I := by
  induction ws with
  | nil => exact keeps_skip
  | cons w ws ih =>
    rw [all_cons]
    exact (h w (by simp)).andThen (ih fun v hv => h v (by simp [hv]))

end Walk

theorem follows_ifExpr {L : Link σ τ φ ψ} {R : NodeRule} {e : Expr} {v : Walk σ φ} {w : Walk τ ψ}
    (he : e.EveryIf R) (h : e.Every R → v.Follows L w) : (ifExpr e v).Follows L (ifExpr e w) := by
  rcases he with rfl | he
  · exact Walk.follows_skip
  · cases e with
    | absent => exact Walk.follows_skip
    | _ => exact h he

theorem follows_ifStmt {L : Link σ τ φ ψ} {R : NodeRule} {s : Stmt} {v : Walk σ φ} {w : Walk τ ψ}
    (hs : s = .absent ∨ s.Every R) (h : s.Every R → v.Follows L w) :
    (ifStmt s v).Follows L (ifStmt s w) := by
  rcases hs with rfl | hs
  · exact Walk.follows_skip
  · cases s with
    | absent => exact Walk.follows_skip
    | _ => exact h hs

/-! ### Passes -/

/-- The first pass follows the second one on what is not common to all passes. -/
structure Pass.Follows (L : Link σ τ φ ψ) (R : NodeRule) (p : Pass σ φ) (q : Pass τ ψ) :
    Prop where
  expr : ∀ d e, e.Every R → (p.expr d e).Follows L (q.expr d e)
  declare : ∀ d name e, R.stmt (.decl name e) → e.EveryIf R →
    (p.declare d name e).Follows L (q.declare d name e)
  declareGlobal : ∀ d name e, R.decl (.var name e) → e.EveryIf R →
    (p.declareGlobal d name e).Follows L (q.declareGlobal d name e)
  enter : ∀ params s t, L.states s t → L.states (p.enter params s) (q.enter params t)
  unsupported : ∀ kind, L.covers [p.unsupported kind] [q.unsupported kind]

namespace Pass.Follows

variable {L : Link σ τ φ ψ} {R : NodeRule} {p : Pass σ φ} {q : Pass τ ψ}

theorem stmt (h : p.Follows L R q) (d : Nat) (s : Stmt) (hs : s.Every R) :
    (p.stmt d s).Follows L (q.stmt d s) := by
  induction d generalizing s with
  | zero => exact Walk.follows_fail .tooDeep
  | succ d ih =>
    cases s with
    | absent => exact Walk.follows_fail .absentStmt
    | foreign kind => exact Walk.follows_note (h.unsupported kind)
    | block ss =>
      have hss : ∀ s ∈ ss, s.Every R := Stmt.everyOf_iff.1 hs.2
      exact Walk.follows_all fun s hmem => ih s (hss s hmem)
    | expr x => exact h.expr d x hs.2
    | decl name init => exact h.declare d name init hs.1 hs.2
    | cond test yes no =>
      obtain ⟨-, htest, hyes, hno⟩ := hs
      refine (h.expr d test htest).andThen ((ih yes hyes).fork.andThen ?_)
      exact follows_ifStmt hno fun hno => (ih no hno).fork
    | loop init test post body =>
      obtain ⟨-, hinit, htest, hpost, hbody⟩ := hs
      refine .fork ((follows_ifStmt hinit (ih init)).andThen ?_)
      refine (follows_ifExpr htest (h.expr d test)).andThen ?_
      exact (ih body hbody).andThen (follows_ifExpr hpost (h.expr d post))
    | ret x => exact follows_ifExpr hs.2 (h.expr d x)
    | jump kind => exact Walk.follows_skip

theorem decl (h : p.Follows L R q) (depth : Nat) (d : Decl) (hd : d.Every R) :
    (p.decl depth d).Follows L (q.decl depth d) := by
  cases d with
  | absent => exact Walk.follows_fail .absentDecl
  | foreign kind => exact Walk.follows_note (h.unsupported kind)
  | func name params ret body =>
    refine follows_ifStmt hd.2 fun hbody => ?_
    exact ((Walk.follows_update (h.enter params)).andThen (h.stmt depth body hbody)).fork
  | var name init => exact h.declareGlobal depth name init hd.1 hd.2
  | stmt s => exact h.stmt depth s hd.2

/-- A whole file. -/
theorem decls (h : p.Follows L R q) (depth : Nat) (ds : List Decl) (hds : ∀ d ∈ ds, d.Every R) :
    (p.decls depth ds).Follows L (q.decls depth ds) :=
  Walk.follows_all fun d hmem => h.decl depth d (hds d hmem)

end Pass.Follows

/-! ### What passes keep -/

section Keeps

variable {I : σ → Prop}

theorem keeps_ifExpr (e : Expr) {w : Walk σ φ} (h : w.Keeps I) : (ifExpr e w).Keeps I := by
  cases e with
  | absent => exact Walk.keeps_skip
  | _ => exact h

theorem keeps_ifStmt (s : Stmt) {w : Walk σ φ} (h : w.Keeps I) : (ifStmt s w).Keeps I := by
  cases s with
  | absent => exact Walk.keeps_skip
  | _ => exact h

/-- The pass does not leave the states in `I` on what is not common to all passes. -/
structure Pass.Keeps (I : σ → Prop) (p : Pass σ φ) : Prop where
  expr : ∀ d e, (p.expr d e).Keeps I
  declare : ∀ d name e, (p.declare d name e).Keeps I
  declareGlobal : ∀ d name e, (p.declareGlobal d name e).Keeps I

namespace Pass.Keeps

variable {p : Pass σ φ}

theorem stmt (h : p.Keeps I) (d : Nat) (s : Stmt) : (p.stmt d s).Keeps I := by
  induction d generalizing s with
  | zero => exact Walk.keeps_fail .tooDeep
  | succ d ih =>
    cases s with
    | absent => exact Walk.keeps_fail .absentStmt
    | foreign kind => exact Walk.keeps_note _
    | block ss => exact Walk.keeps_all (List.forall_mem_map.2 fun s _ => ih s)
    | expr x => exact h.expr d x
    | decl name init => exact h.declare d name init
    | cond test yes no =>
      refine (h.expr d test).andThen ((Walk.keeps_fork _).andThen ?_)
      exact keeps_ifStmt no (Walk.keeps_fork _)
    | loop init test post body => exact Walk.keeps_fork _
    | ret x => exact keeps_ifExpr x (h.expr d x)
    | jump kind => exact Walk.keeps_skip

theorem decl (h : p.Keeps I) (depth : Nat) (d : Decl) : (p.decl depth d).Keeps I := by
  cases d with
  | absent => exact Walk.keeps_fail .absentDecl
  | foreign kind => exact Walk.keeps_note _
  | func name params ret body => exact keeps_ifStmt body (Walk.keeps_fork _)
  | var name init => exact h.declareGlobal depth name init
  | stmt s => exact h.stmt depth s

end Pass.Keeps

end Keeps

/-! ### Reports -/

theorem report_eq_ok {checker : String} {limit : Nat} {diagnose : φ → Diagnostic}
    {r : Except Fault (σ × List φ)} {ds : List Diagnostic} :
    report checker limit diagnose r = .ok ds ↔ ∃ s xs, r = .ok (s, xs) ∧ ds = xs.map diagnose := by
  rcases r with f | ⟨s, xs⟩
  · exact ⟨nofun, nofun⟩
  · constructor
    · rintro ⟨⟩
      exact ⟨s, xs, rfl, rfl⟩
    · rintro ⟨s, xs, ⟨⟩, rfl⟩
      rfl

end MemLint.Check
