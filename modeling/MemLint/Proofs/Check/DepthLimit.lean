import MemLint.Proofs.Check.Composition

/-! The depth limit of a check. A walk with fewer levels to go stops as too deep, or it goes exactly
the way of a walk with more levels: same states, same findings, same fault. So a raised limit can
only lift the error that the tree is too deep. The levels to go are those that a guard counts. -/

namespace MemLint.Check

variable {σ φ : Type}

/-! ### Walks cut short -/

namespace Walk

/-- The first walk goes as the second one, unless it stops as too deep. -/
def CutsShort (v w : Walk σ φ) : Prop := ∀ s, v s = .error .tooDeep ∨ v s = w s

variable {v v' w w' : Walk σ φ}

theorem cutsShort_tooDeep (w : Walk σ φ) : (fail .tooDeep).CutsShort w := fun _ => .inl rfl

theorem CutsShort.refl (w : Walk σ φ) : w.CutsShort w := fun _ => .inr rfl

theorem CutsShort.andThen (hv : v.CutsShort w) (hv' : v'.CutsShort w') :
    (v.andThen v').CutsShort (w.andThen w') := by
  intro s
  rcases hv s with hs | hs
  · left
    simp [Walk.andThen, hs]
  cases hw : w s with
  | error f =>
    right
    simp [Walk.andThen, hs, hw]
  | ok r =>
    -- the second part starts where the first one of both walks ends
    obtain ⟨s', xs⟩ := r
    refine (hv' s').imp (fun hs' => ?_) fun hs' => ?_
    · simp [Walk.andThen, hs, hw, hs']
    · simp [Walk.andThen, hs, hw, hs']

/-- What comes last does not depend on the levels. -/
theorem CutsShort.followedBy (h : v.CutsShort w) (u : Walk σ φ) :
    (v.andThen u).CutsShort (w.andThen u) := h.andThen (.refl u)

theorem CutsShort.fork (h : v.CutsShort w) : v.fork.CutsShort w.fork := by
  intro s
  refine (h s).imp (fun hs => ?_) fun hs => ?_
  · simp [Walk.fork, hs]
  · simp [Walk.fork, hs]

theorem cutsShort_all {α : Type} {f g : α → Walk σ φ} {as : List α}
    (h : ∀ a, (f a).CutsShort (g a)) : (all (as.map f)).CutsShort (all (as.map g)) := by
  induction as with
  | nil => exact .refl skip
  | cons a as ih =>
    rw [List.map_cons, List.map_cons, all_cons, all_cons]
    exact (h a).andThen ih

end Walk

theorem cutsShort_ifExpr (e : Expr) {v w : Walk σ φ} (h : v.CutsShort w) :
    (ifExpr e v).CutsShort (ifExpr e w) := by
  cases e with
  | absent => exact .refl _
  | _ => exact h

theorem cutsShort_ifStmt (s : Stmt) {v w : Walk σ φ} (h : v.CutsShort w) :
    (ifStmt s v).CutsShort (ifStmt s w) := by
  cases s with
  | absent => exact .refl _
  | _ => exact h

/-! ### Passes -/

/-- With fewer levels a pass does the same with expressions and declarations, unless they are too
deep. -/
structure Pass.Limited (p : Pass σ φ) : Prop where
  expr : ∀ {d d'}, d ≤ d' → ∀ e, (p.expr d e).CutsShort (p.expr d' e)
  declare : ∀ {d d'}, d ≤ d' → ∀ name e, (p.declare d name e).CutsShort (p.declare d' name e)
  declareGlobal : ∀ {d d'}, d ≤ d' → ∀ name e,
    (p.declareGlobal d name e).CutsShort (p.declareGlobal d' name e)

namespace Pass.Limited

variable {p : Pass σ φ} {d d' : Nat}

theorem stmt (h : p.Limited) (hd : d ≤ d') (s : Stmt) : (p.stmt d s).CutsShort (p.stmt d' s) := by
  -- on the smaller depth; at zero the first walk stops whatever the statement is
  induction d generalizing d' s with
  | zero => exact Walk.cutsShort_tooDeep _
  | succ d ih =>
    obtain ⟨d', rfl⟩ := Nat.exists_eq_add_one.2 (Nat.lt_of_lt_of_le d.succ_pos hd)
    have hd := Nat.le_of_succ_le_succ hd
    cases s with
    | absent | foreign | jump => exact .refl _
    | block ss => exact Walk.cutsShort_all (ih hd)
    | expr x => exact h.expr hd x
    | decl name init => exact h.declare hd name init
    | cond test yes no =>
      have hno := cutsShort_ifStmt no (ih hd no).fork
      exact (h.expr hd test).andThen ((ih hd yes).fork.andThen hno)
    | loop init test post body =>
      have hinit := cutsShort_ifStmt init (ih hd init)
      have htest := cutsShort_ifExpr test (h.expr hd test)
      have hpost := cutsShort_ifExpr post (h.expr hd post)
      exact (hinit.andThen (htest.andThen ((ih hd body).andThen hpost))).fork
    | ret x => exact cutsShort_ifExpr x (h.expr hd x)

theorem decl (h : p.Limited) (hd : d ≤ d') (dl : Decl) :
    (p.decl d dl).CutsShort (p.decl d' dl) := by
  cases dl with
  | absent | foreign => exact .refl _
  | func name params ret body =>
    have henter := Walk.CutsShort.refl (Walk.update (p.enter params) : Walk σ φ)
    exact cutsShort_ifStmt body (henter.andThen (h.stmt hd body)).fork
  | var name init => exact h.declareGlobal hd name init
  | stmt s => exact h.stmt hd s

/-- A whole file. -/
theorem decls (h : p.Limited) (hd : d ≤ d') (ds : List Decl) :
    (p.decls d ds).CutsShort (p.decls d' ds) := Walk.cutsShort_all (h.decl hd)

end Pass.Limited

/-! ### The bounds check -/

namespace Bounds

theorem cutsShort_expr {d d' : Nat} (hd : d ≤ d') (e : Expr) :
    (expr d e).CutsShort (expr d' e) := by
  induction d generalizing d' e with
  | zero => exact Walk.cutsShort_tooDeep _
  | succ d ih =>
    obtain ⟨d', rfl⟩ := Nat.exists_eq_add_one.2 (Nat.lt_of_lt_of_le d.succ_pos hd)
    have hd := Nat.le_of_succ_le_succ hd
    cases e with
    | absent | foreign | ident | varRef | addr | intLit | stringLit => exact .refl _
    | call f args => exact Walk.cutsShort_all (ih hd)
    | deref x => exact ih hd x
    | binary op left right => exact (ih hd left).andThen (ih hd right)
    | assign target value => exact (ih hd target).andThen (ih hd value)
    | index name i => exact (ih hd i).followedBy _
    | arrayDecl name size => exact (ih hd size).followedBy _

theorem pass_limited : pass.Limited where
  expr := cutsShort_expr
  declare hd _ e := (cutsShort_ifExpr e (cutsShort_expr hd e)).followedBy (.update _)
  declareGlobal hd _ e := (cutsShort_ifExpr e (cutsShort_expr hd e)).followedBy (.update _)

end Bounds

/-! ### The memory check -/

namespace Memory

variable {p : Primitives} {visit visit' : Expr → Walk State Finding}

theorem cutsShort_bind (h : ∀ e, (visit e).CutsShort (visit' e)) (name : String) (value : Expr) :
    (bind p visit name value).CutsShort (bind p visit' name value) := by
  unfold bind
  split
  · exact (h value).followedBy _
  · split
    · exact .refl _
    · exact (h value).followedBy _

theorem cutsShort_assign (h : ∀ e, (visit e).CutsShort (visit' e)) (target value : Expr) :
    (assign p visit target value).CutsShort (assign p visit' target value) := by
  cases target with
  | absent => exact .refl _
  | ident name | varRef name => exact cutsShort_bind h name value
  | deref | index => exact (h value).andThen (h _)
  | _ => exact (Walk.CutsShort.refl (.note _)).andThen (h value)

theorem cutsShort_expr {d d' : Nat} (hd : d ≤ d') (e : Expr) :
    (expr p d e).CutsShort (expr p d' e) := by
  induction d generalizing d' e with
  | zero => exact Walk.cutsShort_tooDeep _
  | succ d ih =>
    obtain ⟨d', rfl⟩ := Nat.exists_eq_add_one.2 (Nat.lt_of_lt_of_le d.succ_pos hd)
    have hd := Nat.le_of_succ_le_succ hd
    cases e with
    | absent | foreign | ident | varRef | addr | intLit | stringLit => exact .refl _
    | call f args =>
      simp only [expr]
      cases p.freedName? f args with
      | some name => exact .refl _
      | none => exact Walk.cutsShort_all (ih hd)
    | deref x =>
      simp only [expr]
      cases x.name? with
      | some name => exact .refl _
      | none => exact ih hd x
    | binary op left right => exact (ih hd left).andThen (ih hd right)
    | assign target value => exact cutsShort_assign (ih hd) target value
    | index name i => exact (Walk.CutsShort.refl _).andThen (ih hd i)
    | arrayDecl name size => exact (ih hd size).followedBy (.update _)

theorem cutsShort_declare {d d' : Nat} (hd : d ≤ d') (name : String) (e : Expr) :
    (declare p d name e).CutsShort (declare p d' name e) := by
  cases e with
  | absent => exact .refl _
  | _ => exact cutsShort_bind (cutsShort_expr hd) name _

theorem cutsShort_declareGlobal {d d' : Nat} (hd : d ≤ d') (name : String) (e : Expr) :
    (declareGlobal p d name e).CutsShort (declareGlobal p d' name e) := by
  cases e with
  | absent => exact .refl _
  | _ => exact cutsShort_bind (cutsShort_expr hd) name _

theorem pass_limited (p : Primitives) : (pass p).Limited :=
  ⟨cutsShort_expr, cutsShort_declare, cutsShort_declareGlobal⟩

end Memory

/-! ### The pointer check -/

namespace Pointer.Context

variable {c : Context} {visit visit' : Expr → Walk State Finding}

theorem cutsShort_bind (h : ∀ e, (visit e).CutsShort (visit' e)) (name : String) (value : Expr) :
    (c.bind visit name value).CutsShort (c.bind visit' name value) := (h value).followedBy _

theorem cutsShort_call (h : ∀ e, (visit e).CutsShort (visit' e)) (f : String) (args : List Expr) :
    (c.call visit f args).CutsShort (c.call visit' f args) := by
  unfold call
  cases c.primitives.freedName? f args with
  | some name => exact .refl _
  | none => exact (Walk.cutsShort_all h).followedBy _

theorem cutsShort_assign (h : ∀ e, (visit e).CutsShort (visit' e)) (target value : Expr) :
    (c.assign visit target value).CutsShort (c.assign visit' target value) := by
  cases target with
  | absent => exact .refl _
  | ident name | varRef name => exact cutsShort_bind h name value
  | deref | index => exact (h value).andThen (h _)
  | _ => exact (Walk.CutsShort.refl (.note _)).andThen (h value)

theorem cutsShort_expr {d d' : Nat} (hd : d ≤ d') (e : Expr) :
    (c.expr d e).CutsShort (c.expr d' e) := by
  induction d generalizing d' e with
  | zero => exact Walk.cutsShort_tooDeep _
  | succ d ih =>
    obtain ⟨d', rfl⟩ := Nat.exists_eq_add_one.2 (Nat.lt_of_lt_of_le d.succ_pos hd)
    have hd := Nat.le_of_succ_le_succ hd
    cases e with
    | absent | foreign | ident | varRef | addr | intLit | stringLit => exact .refl _
    | call f args => exact cutsShort_call (ih hd) f args
    | deref x =>
      simp only [expr]
      cases x.name? with
      | some name => exact .refl _
      | none => exact ih hd x
    | binary op left right => exact (ih hd left).andThen (ih hd right)
    | assign target value => exact cutsShort_assign (ih hd) target value
    | index name i => exact (ih hd i).followedBy _
    | arrayDecl name size => exact (ih hd size).followedBy (.update _)

theorem cutsShort_declare {d d' : Nat} (hd : d ≤ d') (name : String) (e : Expr) :
    (c.declare d name e).CutsShort (c.declare d' name e) := by
  cases e with
  | absent => exact .refl _
  | _ => exact cutsShort_bind (cutsShort_expr hd) name _

theorem pass_limited (c : Context) : c.pass.Limited :=
  ⟨cutsShort_expr, cutsShort_declare, cutsShort_declare⟩

end Pointer.Context

/-! ### Guards -/

namespace Guard

/-- The levels that are left under a guard. -/
def left (g : Guard) : Nat := (g.limit - g.depth).toNat

theorem left_start (checker : String) (o : Options) :
    ({ checker, limit := o.depth } : Guard).left = o.depth := by
  simp [left]

theorem enter_eq_ok {g g' : Guard} : g.enter = .ok g' ↔ 0 < g.left ∧ g'.leave = g := by
  obtain ⟨checker, limit, depth⟩ := g
  obtain ⟨checker', limit', depth'⟩ := g'
  simp only [enter, leave, left]
  split
  next h =>
    simp only [Except.ok.injEq, Guard.mk.injEq]
    constructor
    · rintro ⟨rfl, rfl, rfl⟩
      exact ⟨by omega, rfl, rfl, by omega⟩
    · rintro ⟨-, rfl, rfl, hdepth⟩
      exact ⟨rfl, rfl, by omega⟩
  next h =>
    refine ⟨fun hok => ?_, fun hleft => ?_⟩
    · cases hok
    · omega

theorem left_of_leave {g g' : Guard} (hleft : 0 < g.left) (h : g'.leave = g) :
    g.left = g'.left + 1 := by
  subst h
  simp only [left, leave] at *
  omega

end Guard

/-- A walk of an inspection has as many levels to go as are left under its guard. One level down is
one entry of the guard, which leaving takes back; where the guard refuses, the walk stops, with the
same error. -/
theorem inspection_guarded (p : Primitives) (sigs : Signatures) (c : Settings.Checker) (g : Guard) :
    (∀ g', g.enter = .ok g' → g.left = g'.left + 1 ∧ g'.leave = g) ∧
    ∀ e, g.enter = .error e → e = Fault.tooDeep.error g.checker g.limit ∧
      (∀ s, (inspection p sigs c).pass.stmt g.left s = .fail .tooDeep) ∧
      ∀ x, (inspection p sigs c).pass.expr g.left x = .fail .tooDeep := by
  refine ⟨fun g' h => ?_, fun e h => ?_⟩
  · obtain ⟨hleft, hleave⟩ := Guard.enter_eq_ok.1 h
    exact ⟨Guard.left_of_leave hleft hleave, hleave⟩
  · have hstop : ¬ g.depth < g.limit ∧ tooDeep g.checker g.limit = e := by
      unfold Guard.enter at h
      split at h
      next => cases h
      next hdepth => exact ⟨hdepth, Except.error.inj h⟩
    have hleft : g.left = 0 := by
      rw [Guard.left]
      omega
    rw [hleft]
    refine ⟨hstop.2.symm, fun s => rfl, fun x => ?_⟩
    cases c <;> rfl

/-- A check starts with a guard that nothing has entered. -/
theorem check_eq_guarded (o : Options) (ds : List Decl) (c : Settings.Checker) :
    Analysis.check o ds c =
      let k := inspection o.primitives (signatures ds) c
      let g : Guard := { checker := k.checker, limit := o.depth }
      report g.checker g.limit k.diagnose (k.pass.decls g.left ds k.start) := by
  simp only [Guard.left_start]
  exact check_eq_report o ds c

/-! ### Reports -/

theorem inspection_limited (p : Primitives) (sigs : Signatures) (c : Settings.Checker) :
    (inspection p sigs c).pass.Limited := by
  cases c with
  | bounds => exact Bounds.pass_limited
  | memory => exact Memory.pass_limited p
  | pointer => exact Pointer.Context.pass_limited ⟨p, sigs⟩

/-- What the reports of two runs have to do with each other, the first of which has the lower limit:
the first is too deep, or both are the same list, or both are the same malformed tree. -/
inductive OnlyDeeper (checker : String) (limit : Nat) :
    Except StructuralError (List Diagnostic) → Except StructuralError (List Diagnostic) → Prop where
  | tooDeep (r : Except StructuralError (List Diagnostic)) :
      OnlyDeeper checker limit (.error (tooDeep checker limit)) r
  | ok (ds : List Diagnostic) : OnlyDeeper checker limit (.ok ds) (.ok ds)
  | malformed {e : StructuralError} (h : e.defect = .malformed) :
      OnlyDeeper checker limit (.error e) (.error e)

theorem Walk.CutsShort.report {v w : Walk σ φ} (h : v.CutsShort w) (s : σ) (checker : String)
    (diagnose : φ → Diagnostic) (n m : Nat) :
    OnlyDeeper checker n (report checker n diagnose (v s)) (report checker m diagnose (w s)) := by
  rcases h s with hs | hs
  · rw [hs]
    exact .tooDeep _
  · rw [hs]
    cases w s with
    | ok r => exact .ok _
    | error f =>
      -- only the text of the depth error has the limit in it
      cases f with
      | tooDeep => exact .tooDeep _
      | _ => exact .malformed rfl

theorem depth_of_pos (p : Primitives) {n : Int} (hn : 1 ≤ n) : (Options.mk p n).depth = n.toNat :=
  if_neg (Int.not_le.2 hn)

theorem checker_name (p : Primitives) (sigs : Signatures) (c : Settings.Checker) :
    (inspection p sigs c).checker = c.name := by
  cases c <;> rfl

/-- Under a raised limit a check says the same, unless under the lower one the file was too deep. -/
theorem raised_limit_lifts_depth_error (c : Settings.Checker) (p : Primitives) (file : List Decl)
    {n m : Int} (hn : 1 ≤ n) (hnm : n ≤ m) :
    OnlyDeeper c.name n.toNat (Analysis.check ⟨p, n⟩ file c) (Analysis.check ⟨p, m⟩ file c) := by
  have hdepth : (Options.mk p n).depth ≤ (Options.mk p m).depth := by
    rw [depth_of_pos p hn, depth_of_pos p (Int.le_trans hn hnm)]
    exact Int.toNat_le_toNat hnm
  have hwalk := (inspection_limited p (signatures file) c).decls hdepth file
  rw [check_eq_report, check_eq_report, ← depth_of_pos p hn, ← checker_name p (signatures file) c]
  exact hwalk.report _ _ _ _ _

/-- A block in which a freed name is freed again, around a missing statement: too deep at one level,
and malformed at any higher limit. -/
theorem raised_limit_lifts_depth_error_at_block :
    let file : List Decl := [.stmt (.block [.expr (.call "free" [.varRef "p"]), .absent])]
    Analysis.check ⟨.default, 1⟩ file .pointer = .error (tooDeep "pointer" 1) ∧
      OnlyDeeper "pointer" 1 (Analysis.check ⟨.default, 1⟩ file .pointer)
        (Analysis.check ⟨.default, 3⟩ file .pointer) ∧
      OnlyDeeper "pointer" 3 (Analysis.check ⟨.default, 3⟩ file .pointer)
        (Analysis.check ⟨.default, 1000⟩ file .pointer) :=
  ⟨rfl, raised_limit_lifts_depth_error (n := 1) .pointer .default _ (by decide) (by decide),
    raised_limit_lifts_depth_error (n := 3) .pointer .default _ (by decide) (by decide)⟩

end MemLint.Check
