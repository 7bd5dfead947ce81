import MemLint.Analysis
import MemLint.Proofs.Tree

/-! The checks on well-formed trees: they meet no node that they do not know, and the only fault
they can stop with is that the tree is higher than their depth. -/

namespace MemLint.Check

variable {σ φ : Type} {N : φ → Prop} {deep : Prop}

namespace Walk

/-- The walk notes nothing but `N`, and stops only as too deep, and only if the tree is `deep`. -/
def Clean (N : φ → Prop) (deep : Prop) (w : Walk σ φ) : Prop :=
  ∀ s, w s = .error .tooDeep ∧ deep ∨ ∃ s' xs, w s = .ok (s', xs) ∧ ∀ x ∈ xs, N x

theorem clean_skip : (skip : Walk σ φ).Clean N deep := fun s => .inr ⟨s, [], rfl, by simp⟩

theorem clean_note {xs : List φ} (h : ∀ x ∈ xs, N x) : (note xs : Walk σ φ).Clean N deep :=
  fun s => .inr ⟨s, xs, rfl, h⟩

theorem clean_update (f : σ → σ) : (update f : Walk σ φ).Clean N deep :=
  fun s => .inr ⟨f s, [], rfl, by simp⟩

theorem clean_look {w : σ → Walk σ φ} (h : ∀ s, (w s).Clean N deep) : (look w).Clean N deep :=
  fun s => h s s

theorem clean_tooDeep (h : deep) : (fail .tooDeep : Walk σ φ).Clean N deep :=
  fun _ => .inl ⟨rfl, h⟩

theorem Clean.andThen {v w : Walk σ φ} (hv : v.Clean N deep) (hw : w.Clean N deep) :
    (v.andThen w).Clean N deep := by
  intro s
  rcases hv s with ⟨hs, ho⟩ | ⟨s', xs, hs, hx⟩
  · exact .inl ⟨by simp [Walk.andThen, hs], ho⟩
  · rcases hw s' with ⟨hs', ho⟩ | ⟨s'', ys, hs', hy⟩
    · exact .inl ⟨by simp [Walk.andThen, hs, hs'], ho⟩
    · refine .inr ⟨s'', xs ++ ys, by simp [Walk.andThen, hs, hs'], fun x h => ?_⟩
      exact (List.mem_append.1 h).elim (hx x) (hy x)

theorem Clean.fork {w : Walk σ φ} (hw : w.Clean N deep) : w.fork.Clean N deep := by
  intro s
  rcases hw s with ⟨hs, ho⟩ | ⟨s', xs, hs, hx⟩
  · exact .inl ⟨by simp [Walk.fork, hs], ho⟩
  · exact .inr ⟨s, xs, by simp [Walk.fork, hs], hx⟩

theorem clean_all {ws : List (Walk σ φ)} (h : ∀ w ∈ ws, w.Clean N deep) :
    (all ws).Clean N deep := by
  induction ws with
  | nil => exact clean_skip
  | cons w ws ih =>
    rw [all_cons]
    exact (h w (by simp)).andThen (ih fun v hv => h v (by simp [hv]))

theorem Clean.mono {deep' : Prop} {w : Walk σ φ} (hw : w.Clean N deep) (h : deep → deep') :
    w.Clean N deep' := by
  intro s
  rcases hw s with ⟨hs, ho⟩ | hs
  · exact .inl ⟨hs, h ho⟩
  · exact .inr hs

end Walk

theorem clean_ifExpr {e : Expr} {w : Walk σ φ} (he : e = .absent ∨ e.WellFormed)
    (h : e.WellFormed → w.Clean N deep) : (ifExpr e w).Clean N deep := by
  rcases he with rfl | he
  · exact Walk.clean_skip
  · cases e with
    | absent => exact Walk.clean_skip
    | _ => exact h he

theorem clean_ifStmt {s : Stmt} {w : Walk σ φ} (hs : s = .absent ∨ s.WellFormed)
    (h : s.WellFormed → w.Clean N deep) : (ifStmt s w).Clean N deep := by
  rcases hs with rfl | hs
  · exact Walk.clean_skip
  · cases s with
    | absent => exact Walk.clean_skip
    | _ => exact h hs

/-- The finding is not about an unknown node. -/
def Known (diagnose : φ → Diagnostic) (x : φ) : Prop := (diagnose x).kind ≠ .unsupported

/-! ### Passes -/

/-- A pass goes cleanly through well-formed expressions and declarations, unless they are higher
than the depth it is given. -/
structure Pass.Tidy (p : Pass σ φ) (N : φ → Prop) : Prop where
  expr : ∀ d e, e.WellFormed → (p.expr d e).Clean N (d < e.height)
  declare : ∀ d name e, e = .absent ∨ e.WellFormed → (p.declare d name e).Clean N (d < e.height)
  declareGlobal : ∀ d name e, e = .absent ∨ e.WellFormed →
    (p.declareGlobal d name e).Clean N (d < e.height)

namespace Pass.Tidy

variable {p : Pass σ φ}

theorem stmt (h : p.Tidy N) (d : Nat) (s : Stmt) (hs : s.WellFormed) :
    (p.stmt d s).Clean N (d < s.height) := by
  -- on the depth, which the walk uses up by one at every level
  induction d generalizing s with
  | zero =>
    refine Walk.clean_tooDeep ?_
    cases s <;> simp_all [Stmt.height]
  | succ d ih =>
    cases s with
    | absent => exact (Stmt.not_wellFormed_absent hs).elim
    | foreign kind => exact (Stmt.not_wellFormed_foreign kind hs).elim
    | block ss =>
      refine Walk.clean_all fun w hw => ?_
      obtain ⟨s, hmem, rfl⟩ := List.mem_map.1 hw
      refine (ih s (Stmt.wellFormed_block.1 hs s hmem)).mono fun ho => ?_
      have := Stmt.heightOf_le_iff.1 (Nat.le_refl (Stmt.heightOf ss)) s hmem
      simp only [Stmt.height]
      omega
    | expr x =>
      refine (h.expr d x (Stmt.wellFormed_expr.1 hs)).mono fun ho => ?_
      simp only [Stmt.height]
      omega
    | decl name init =>
      refine (h.declare d name init (Stmt.wellFormed_decl.1 hs)).mono fun ho => ?_
      simp only [Stmt.height]
      omega
    | cond test yes no =>
      obtain ⟨htest, hyes, hno⟩ := Stmt.wellFormed_cond.1 hs
      simp only [Pass.stmt, Stmt.height]
      refine .andThen ?_ (.andThen ?_ (clean_ifStmt hno fun hno => ?_))
      · exact (h.expr d test htest).mono (by omega)
      · exact (ih yes hyes).fork.mono (by omega)
      · exact (ih no hno).fork.mono (by omega)
    | loop init test post body =>
      obtain ⟨hinit, htest, hpost, hbody⟩ := Stmt.wellFormed_loop.1 hs
      simp only [Pass.stmt, Stmt.height]
      refine .fork (.andThen (clean_ifStmt hinit fun hinit => ?_)
        (.andThen (clean_ifExpr htest fun htest => ?_)
          (.andThen ?_ (clean_ifExpr hpost fun hpost => ?_))))
      · exact (ih init hinit).mono (by omega)
      · exact (h.expr d test htest).mono (by omega)
      · exact (ih body hbody).mono (by omega)
      · exact (h.expr d post hpost).mono (by omega)
    | ret x =>
      refine clean_ifExpr (Stmt.wellFormed_ret.1 hs) fun hx => (h.expr d x hx).mono fun ho => ?_
      simp only [Stmt.height]
      omega
    | jump kind => exact Walk.clean_skip

theorem decl (h : p.Tidy N) (depth : Nat) (d : Decl) (hd : d.WellFormed) :
    (p.decl depth d).Clean N (depth < d.height) := by
  cases d with
  | absent => exact (Decl.not_wellFormed_absent hd).elim
  | foreign kind => exact (Decl.not_wellFormed_foreign kind hd).elim
  | func name params ret body =>
    refine clean_ifStmt (Decl.wellFormed_func.1 hd) fun hb => ?_
    exact ((Walk.clean_update _).andThen (h.stmt depth body hb)).fork
  | var name init => exact h.declareGlobal depth name init (Decl.wellFormed_var.1 hd)
  | stmt s => exact h.stmt depth s (Decl.wellFormed_stmt.1 hd)

/-- A whole file. -/
theorem decls (h : p.Tidy N) (depth : Nat) (ds : List Decl) (hds : ∀ d ∈ ds, d.WellFormed) :
    (p.decls depth ds).Clean N (∃ d ∈ ds, depth < d.height) := by
  refine Walk.clean_all fun w hw => ?_
  obtain ⟨d, hmem, rfl⟩ := List.mem_map.1 hw
  exact (h.decl depth d (hds d hmem)).mono fun ho => ⟨d, hmem, ho⟩

end Pass.Tidy

/-- The arguments of a call, walked one after another. -/
theorem clean_args {expr : Nat → Expr → Walk σ φ} {d : Nat}
    (ih : ∀ e : Expr, e.WellFormed → (expr d e).Clean N (d < e.height)) {f : String}
    {args : List Expr} (h : (Expr.call f args).WellFormed) :
    (Walk.all (args.map (expr d))).Clean N (d + 1 < (Expr.call f args).height) := by
  refine Walk.clean_all fun w hw => ?_
  obtain ⟨a, hmem, rfl⟩ := List.mem_map.1 hw
  refine (ih a (Expr.wellFormed_call.1 h a hmem)).mono fun ho => ?_
  have := Expr.heightOf_le_iff.1 (Nat.le_refl (Expr.heightOf args)) a hmem
  simp only [Expr.height]
  omega

theorem zero_lt_height {e : Expr} (h : e.WellFormed) : 0 < e.height := by
  cases e <;> simp_all [Expr.height]

/-! ### The bounds check -/

namespace Bounds

theorem clean_expr (d : Nat) (e : Expr) (he : e.WellFormed) :
    (expr d e).Clean (Known Finding.diagnostic) (d < e.height) := by
  induction d generalizing e with
  | zero => exact Walk.clean_tooDeep (zero_lt_height he)
  | succ d ih =>
    cases e with
    | absent => exact (Expr.not_wellFormed_absent he).elim
    | foreign kind => exact (Expr.not_wellFormed_foreign kind he).elim
    | ident | varRef | addr | intLit | stringLit => exact Walk.clean_skip
    | call f args => exact clean_args ih he
    | deref x =>
      refine (ih x (Expr.wellFormed_deref.1 he)).mono fun ho => ?_
      simp only [Expr.height]
      omega
    | binary op left right =>
      obtain ⟨hl, hr⟩ := Expr.wellFormed_binary.1 he
      simp only [expr, Expr.height]
      exact ((ih left hl).mono (by omega)).andThen ((ih right hr).mono (by omega))
    | assign target value =>
      obtain ⟨-, ht, hv⟩ := Expr.wellFormed_assign.1 he
      simp only [expr, Expr.height]
      exact ((ih target ht).mono (by omega)).andThen ((ih value hv).mono (by omega))
    | index name i =>
      simp only [expr, Expr.height]
      refine ((ih i (Expr.wellFormed_index.1 he)).mono (by omega)).andThen ?_
      refine Walk.clean_look fun caps => ?_
      split
      · split
        · exact Walk.clean_note (by simp [Known, Finding.diagnostic])
        · exact Walk.clean_skip
      · exact Walk.clean_skip
    | arrayDecl name size =>
      simp only [expr, Expr.height]
      refine ((ih size (Expr.wellFormed_arrayDecl.1 he)).mono (by omega)).andThen ?_
      unfold declareArray
      split
      · split
        · exact Walk.clean_update _
        · exact Walk.clean_skip
      · exact Walk.clean_skip

theorem clean_declare (d : Nat) (name : String) (e : Expr) (he : e = .absent ∨ e.WellFormed) :
    (declare d name e).Clean (Known Finding.diagnostic) (d < e.height) :=
  (clean_ifExpr he (clean_expr d e)).andThen (Walk.clean_update _)

theorem pass_tidy : pass.Tidy (Known Finding.diagnostic) :=
  ⟨clean_expr, clean_declare, clean_declare⟩

end Bounds

/-! ### The memory check -/

namespace Memory

theorem clean_read (name : String) : (read name).Clean (Known Finding.diagnostic) deep := by
  refine Walk.clean_look fun s => ?_
  split
  · exact Walk.clean_note (by simp [Known, Finding.diagnostic])
  · exact Walk.clean_skip

theorem clean_deref (name : String) : (deref name).Clean (Known Finding.diagnostic) deep := by
  refine (clean_read name).andThen (Walk.clean_look fun s => ?_)
  split
  · exact Walk.clean_note (by simp [Known, Finding.diagnostic])
  · exact Walk.clean_skip

theorem clean_free (name : String) : (free name).Clean (Known Finding.diagnostic) deep := by
  refine Walk.clean_look fun s => ?_
  dsimp only
  split
  · exact Walk.clean_note (by simp [Known, Finding.diagnostic])
  · split
    · exact Walk.clean_update _
    · exact Walk.clean_skip

theorem clean_allocate (name : String) (value : Expr) :
    (allocate name value).Clean (Known Finding.diagnostic) deep := by
  refine Walk.clean_look fun s => .andThen ?_ (Walk.clean_update _)
  split
  · exact Walk.clean_note (by simp [Known, Finding.diagnostic])
  · exact Walk.clean_skip

theorem clean_bind {p : Primitives} {visit : Expr → Walk State Finding} {name : String}
    {value : Expr} (h : (visit value).Clean (Known Finding.diagnostic) deep) :
    (bind p visit name value).Clean (Known Finding.diagnostic) deep := by
  unfold bind
  split
  · exact h.andThen (clean_allocate name value)
  · split
    · exact Walk.clean_update _
    · refine h.andThen ?_
      split
      · exact Walk.clean_update _
      · split
        · exact Walk.clean_skip
        · exact Walk.clean_update _

theorem clean_expr (p : Primitives) (d : Nat) (e : Expr) (he : e.WellFormed) :
    (expr p d e).Clean (Known Finding.diagnostic) (d < e.height) := by
  induction d generalizing e with
  | zero => exact Walk.clean_tooDeep (zero_lt_height he)
  | succ d ih =>
    cases e with
    | absent => exact (Expr.not_wellFormed_absent he).elim
    | foreign kind => exact (Expr.not_wellFormed_foreign kind he).elim
    | intLit | stringLit => exact Walk.clean_skip
    | ident name | varRef name => exact clean_read name
    | addr name => exact Walk.clean_update _
    | call f args =>
      simp only [expr]
      split
      next name _ => exact (clean_read name).andThen (clean_free name)
      next => exact clean_args ih he
    | deref x =>
      simp only [expr, Expr.height]
      split
      · exact clean_deref _
      · exact (ih x (Expr.wellFormed_deref.1 he)).mono (by omega)
    | binary op left right =>
      obtain ⟨hl, hr⟩ := Expr.wellFormed_binary.1 he
      simp only [expr, Expr.height]
      exact ((ih left hl).mono (by omega)).andThen ((ih right hr).mono (by omega))
    | assign target value =>
      obtain ⟨ha, ht, hv⟩ := Expr.wellFormed_assign.1 he
      have hv : (expr p d value).Clean (Known Finding.diagnostic)
          (d + 1 < (Expr.assign target value).height) :=
        (ih value hv).mono (by simp only [Expr.height]; omega)
      have ht : (expr p d target).Clean (Known Finding.diagnostic)
          (d + 1 < (Expr.assign target value).height) :=
        (ih target ht).mono (by simp only [Expr.height]; omega)
      cases target with
      | ident | varRef => exact clean_bind hv
      | deref | index => exact hv.andThen ht
      | _ => cases ha
    | index name i =>
      simp only [expr, Expr.height]
      exact (clean_deref name).andThen ((ih i (Expr.wellFormed_index.1 he)).mono (by omega))
    | arrayDecl name size =>
      simp only [expr, Expr.height]
      exact ((ih size (Expr.wellFormed_arrayDecl.1 he)).mono (by omega)).andThen
        (Walk.clean_update _)

theorem declare_of_ne {p : Primitives} {d : Nat} {name : String} {init : Expr}
    (h : init ≠ .absent) : declare p d name init = bind p (expr p d) name init := by
  unfold declare
  split
  · exact (h rfl).elim
  · rfl

theorem declareGlobal_of_ne {p : Primitives} {d : Nat} {name : String} {init : Expr}
    (h : init ≠ .absent) : declareGlobal p d name init = bind p (expr p d) name init := by
  unfold declareGlobal
  split
  · exact (h rfl).elim
  · rfl

theorem clean_declare (p : Primitives) (d : Nat) (name : String) (e : Expr)
    (he : e = .absent ∨ e.WellFormed) :
    (declare p d name e).Clean (Known Finding.diagnostic) (d < e.height) := by
  rcases he with rfl | he
  · exact Walk.clean_update _
  · rw [declare_of_ne he.ne_absent]
    exact clean_bind (clean_expr p d e he)

theorem clean_declareGlobal (p : Primitives) (d : Nat) (name : String) (e : Expr)
    (he : e = .absent ∨ e.WellFormed) :
    (declareGlobal p d name e).Clean (Known Finding.diagnostic) (d < e.height) := by
  rcases he with rfl | he
  · exact Walk.clean_update _
  · rw [declareGlobal_of_ne he.ne_absent]
    exact clean_bind (clean_expr p d e he)

theorem pass_tidy (p : Primitives) : (pass p).Tidy (Known Finding.diagnostic) :=
  ⟨clean_expr p, clean_declare p, clean_declareGlobal p⟩

end Memory

/-! ### The pointer check -/

namespace Pointer

namespace Context

variable (c : Context)

theorem clean_deref (name : String) : (c.deref name).Clean (Known Finding.diagnostic) deep := by
  refine Walk.clean_look fun s => ?_
  split
  · exact Walk.clean_skip
  · exact Walk.clean_note (by simp [Known, Finding.diagnostic])

theorem clean_free (name : String) : (free name).Clean (Known Finding.diagnostic) deep := by
  refine Walk.clean_look fun s => ?_
  split
  · exact Walk.clean_note (by simp [Known, Finding.diagnostic])
  · exact Walk.clean_note (by simp [Known, Finding.diagnostic])
  · exact Walk.clean_update _

theorem known_of_nonPointers {s : State} {f : String} {pointer : List Bool} {args : List Expr}
    {x : Finding} (hx : x ∈ c.nonPointers s f pointer args) : Known Finding.diagnostic x := by
  obtain ⟨⟨⟨wanted, arg⟩, i⟩, -, h⟩ := List.mem_filterMap.1 hx
  dsimp only at h
  split at h
  · cases h
    simp [Known, Finding.diagnostic]
  · cases h

theorem clean_checkCall (f : String) (args : List Expr) :
    (c.checkCall f args).Clean (Known Finding.diagnostic) deep := by
  refine Walk.clean_look fun s => ?_
  split
  · exact Walk.clean_skip
  · split
    · exact Walk.clean_note fun x hx => c.known_of_nonPointers hx
    · exact Walk.clean_note (by simp [Known, Finding.diagnostic])

theorem clean_call {visit : Expr → Walk State Finding} {f : String} {args : List Expr}
    (h : (Walk.all (args.map visit)).Clean (Known Finding.diagnostic) deep) :
    (c.call visit f args).Clean (Known Finding.diagnostic) deep := by
  unfold call
  split
  · split
    · exact Walk.clean_skip
    · exact clean_free _
  · exact h.andThen (c.clean_checkCall f args)

theorem clean_bind {visit : Expr → Walk State Finding} {name : String} {value : Expr}
    (h : (visit value).Clean (Known Finding.diagnostic) deep) :
    (c.bind visit name value).Clean (Known Finding.diagnostic) deep :=
  h.andThen (Walk.clean_update _)

theorem clean_expr (d : Nat) (e : Expr) (he : e.WellFormed) :
    (c.expr d e).Clean (Known Finding.diagnostic) (d < e.height) := by
  induction d generalizing e with
  | zero => exact Walk.clean_tooDeep (zero_lt_height he)
  | succ d ih =>
    cases e with
    | absent => exact (Expr.not_wellFormed_absent he).elim
    | foreign kind => exact (Expr.not_wellFormed_foreign kind he).elim
    | ident | varRef | addr | intLit | stringLit => exact Walk.clean_skip
    | call f args => exact c.clean_call (clean_args ih he)
    | deref x =>
      simp only [expr, Expr.height]
      split
      · exact c.clean_deref _
      · exact (ih x (Expr.wellFormed_deref.1 he)).mono (by omega)
    | binary op left right =>
      obtain ⟨hl, hr⟩ := Expr.wellFormed_binary.1 he
      simp only [expr, Expr.height]
      exact ((ih left hl).mono (by omega)).andThen ((ih right hr).mono (by omega))
    | assign target value =>
      obtain ⟨ha, ht, hv⟩ := Expr.wellFormed_assign.1 he
      have hv : (c.expr d value).Clean (Known Finding.diagnostic)
          (d + 1 < (Expr.assign target value).height) :=
        (ih value hv).mono (by simp only [Expr.height]; omega)
      have ht : (c.expr d target).Clean (Known Finding.diagnostic)
          (d + 1 < (Expr.assign target value).height) :=
        (ih target ht).mono (by simp only [Expr.height]; omega)
      cases target with
      | ident | varRef => exact c.clean_bind hv
      | deref | index => exact hv.andThen ht
      | _ => cases ha
    | index name i =>
      simp only [expr, Expr.height]
      exact ((ih i (Expr.wellFormed_index.1 he)).mono (by omega)).andThen (c.clean_deref name)
    | arrayDecl name size =>
      simp only [expr, Expr.height]
      exact ((ih size (Expr.wellFormed_arrayDecl.1 he)).mono (by omega)).andThen
        (Walk.clean_update _)

theorem declare_of_ne {d : Nat} {name : String} {init : Expr} (h : init ≠ .absent) :
    c.declare d name init = c.bind (c.expr d) name init := by
  unfold declare
  split
  · exact (h rfl).elim
  · rfl

theorem clean_declare (d : Nat) (name : String) (e : Expr) (he : e = .absent ∨ e.WellFormed) :
    (c.declare d name e).Clean (Known Finding.diagnostic) (d < e.height) := by
  rcases he with rfl | he
  · exact Walk.clean_update _
  · rw [c.declare_of_ne he.ne_absent]
    exact c.clean_bind (c.clean_expr d e he)

theorem pass_tidy : c.pass.Tidy (Known Finding.diagnostic) :=
  ⟨c.clean_expr, c.clean_declare, c.clean_declare⟩

end Context

end Pointer

/-! ### Reports -/

/-- What a checker reports for a file of well-formed declarations. -/
theorem report_clean {p : Pass σ φ} {diagnose : φ → Diagnostic}
    (h : p.Tidy (Known diagnose)) {ds : List Decl}
    (hds : ∀ d ∈ ds, d.WellFormed) (checker : String) (depth : Nat) (s : σ) :
    (∃ e, report checker depth diagnose (p.decls depth ds s) = .error e ∧ e.defect = .tooDeep ∧
      ∃ d ∈ ds, depth < d.height) ∨
    ∃ found, report checker depth diagnose (p.decls depth ds s) = .ok found ∧
      ∀ x ∈ found, x.kind ≠ .unsupported := by
  rcases h.decls depth ds hds s with ⟨hs, ho⟩ | ⟨s', xs, hs, hx⟩
  · exact .inl ⟨_, by rw [hs]; rfl, rfl, ho⟩
  · refine .inr ⟨_, by rw [hs]; rfl, fun x hmem => ?_⟩
    obtain ⟨y, hy, rfl⟩ := List.mem_map.1 hmem
    exact hx y hy

/-- Every checker goes through a file of well-formed declarations and knows all that it meets,
unless a declaration is higher than the depth. -/
theorem check_clean {ds : List Decl} (hds : ∀ d ∈ ds, d.WellFormed) (o : Options)
    (c : Settings.Checker) :
    (∃ e, Analysis.check o ds c = .error e ∧ e.defect = .tooDeep ∧ ∃ d ∈ ds, o.depth < d.height) ∨
    ∃ found, Analysis.check o ds c = .ok found ∧ ∀ x ∈ found, x.kind ≠ .unsupported := by
  cases c with
  | bounds => exact report_clean Bounds.pass_tidy hds ..
  | memory => exact report_clean (Memory.pass_tidy o.primitives) hds ..
  | pointer => exact report_clean (Pointer.Context.pass_tidy ⟨o.primitives, signatures ds⟩) hds ..

end MemLint.Check
