import MemLint.Proofs.Check.DepthLimit
import MemLint.Proofs.Check.Success

/-! Two ways into a check: a list of statements, and the file in which each of them stands by
itself. At file scope an initialiser is one level less deep, so the file can only get further. A
variable without an initialiser is the one thing that the memory check takes differently there; but
whether it stops, and why, does not depend on the state at all. -/

namespace MemLint.Check

variable {σ φ : Type}

/-! ### Walks that stop alike from every state -/

namespace Walk

/-- The walk succeeds from every state, or it stops with one fault from every state. -/
def Steady (w : Walk σ φ) : Prop := (∀ s, ∃ r, w s = .ok r) ∨ ∃ f, ∀ s, w s = .error f

variable {v v' w w' : Walk σ φ}

theorem steady_fail (f : Fault) : (fail f : Walk σ φ).Steady := .inr ⟨f, fun _ => rfl⟩

theorem SucceedsIff.steady (h : w.SucceedsIff True) : w.Steady := .inl fun s => (h s).2 trivial

theorem Steady.andThen (hv : v.Steady) (hw : w.Steady) : (v.andThen w).Steady := by
  rcases hv with hv | ⟨f, hv⟩
  · rcases hw with hw | ⟨f, hw⟩
    · refine .inl fun s => ?_
      obtain ⟨⟨s', xs⟩, hs⟩ := hv s
      obtain ⟨⟨s'', ys⟩, hs'⟩ := hw s'
      exact ⟨_, andThen_eq_ok.2 ⟨s', xs, ys, hs, hs', rfl⟩⟩
    · refine .inr ⟨f, fun s => ?_⟩
      obtain ⟨⟨s', xs⟩, hs⟩ := hv s
      simp only [Walk.andThen, hs, hw s']
  · refine .inr ⟨f, fun s => ?_⟩
    simp only [Walk.andThen, hv s]

theorem Steady.fork (h : w.Steady) : w.fork.Steady := by
  refine h.imp (fun h s => ?_) fun ⟨f, h⟩ => ⟨f, fun s => ?_⟩
  · obtain ⟨⟨s', xs⟩, hs⟩ := h s
    exact ⟨_, fork_eq_ok.2 ⟨rfl, s', hs⟩⟩
  · simp only [Walk.fork, h s]

theorem steady_all {α : Type} {f : α → Walk σ φ} {as : List α} (h : ∀ a, (f a).Steady) :
    (all (as.map f)).Steady := by
  induction as with
  | nil => exact succeedsIff_skip.steady
  | cons a as ih =>
    rw [List.map_cons, all_cons]
    exact (h a).andThen ih

/-- The first walk stops as too deep, or both walks stop with the same fault, or neither of them
stops, wherever they start. -/
def StopsShort (v w : Walk σ φ) : Prop := ∀ s t, v s = .error .tooDeep ∨
  (∃ f, v s = .error f ∧ w t = .error f) ∨ (∃ r, v s = .ok r) ∧ ∃ r, w t = .ok r

theorem CutsShort.stopsShort (h : v.CutsShort w) (hw : w.Steady) : v.StopsShort w := by
  intro s t
  refine (h s).imp_right fun hs => ?_
  rw [hs]
  exact hw.symm.imp (fun ⟨f, hf⟩ => ⟨f, hf s, hf t⟩) fun hw => ⟨hw s, hw t⟩

theorem StopsShort.andThen (hv : v.StopsShort w) (hv' : v'.StopsShort w') :
    (v.andThen v').StopsShort (w.andThen w') := by
  intro s t
  rcases hv s t with hs | ⟨f, hs, ht⟩ | ⟨⟨⟨s', xs⟩, hs⟩, ⟨t', ys⟩, ht⟩
  · exact .inl (by simp only [Walk.andThen, hs])
  · exact .inr (.inl ⟨f, by simp only [Walk.andThen, hs], by simp only [Walk.andThen, ht]⟩)
  · -- the second parts start where the first ones ended, which need not be the same place
    simp only [Walk.andThen, hs, ht]
    rcases hv' s' t' with hs' | ⟨f, hs', ht'⟩ | ⟨⟨r, hs'⟩, r', ht'⟩
    · exact .inl (by rw [hs'])
    · exact .inr (.inl ⟨f, by rw [hs'], by rw [ht']⟩)
    · exact .inr (.inr ⟨⟨_, by rw [hs']⟩, _, by rw [ht']⟩)

theorem stopsShort_all {α : Type} {f g : α → Walk σ φ} {as : List α}
    (h : ∀ a, (f a).StopsShort (g a)) : (all (as.map f)).StopsShort (all (as.map g)) := by
  induction as with
  | nil => exact fun _ _ => .inr (.inr ⟨⟨_, rfl⟩, _, rfl⟩)
  | cons a as ih =>
    rw [List.map_cons, List.map_cons, all_cons, all_cons]
    exact (h a).andThen ih

end Walk

theorem steady_ifExpr (e : Expr) {w : Walk σ φ} (h : w.Steady) : (ifExpr e w).Steady := by
  cases e with
  | absent => exact Walk.succeedsIff_skip.steady
  | _ => exact h

theorem steady_ifStmt (s : Stmt) {w : Walk σ φ} (h : w.Steady) : (ifStmt s w).Steady := by
  cases s with
  | absent => exact Walk.succeedsIff_skip.steady
  | _ => exact h

/-! ### Passes -/

/-- Whether the pass stops in an expression or in a declaration does not depend on the state. -/
structure Pass.Steady (p : Pass σ φ) : Prop where
  expr : ∀ d e, (p.expr d e).Steady
  declare : ∀ d name e, (p.declare d name e).Steady
  declareGlobal : ∀ d name e, (p.declareGlobal d name e).Steady

theorem Pass.Steady.stmt {p : Pass σ φ} (h : p.Steady) (d : Nat) (s : Stmt) :
    (p.stmt d s).Steady := by
  induction d generalizing s with
  | zero => exact Walk.steady_fail .tooDeep
  | succ d ih =>
    cases s with
    | absent => exact Walk.steady_fail .absentStmt
    | foreign kind => exact (Walk.succeedsIff_note _).steady
    | block ss => exact Walk.steady_all ih
    | expr x => exact h.expr d x
    | decl name init => exact h.declare d name init
    | cond test yes no =>
      exact (h.expr d test).andThen ((ih yes).fork.andThen (steady_ifStmt no (ih no).fork))
    | loop init test post body =>
      have htest := steady_ifExpr test (h.expr d test)
      have hpost := steady_ifExpr post (h.expr d post)
      exact ((steady_ifStmt init (ih init)).andThen (htest.andThen ((ih body).andThen hpost))).fork
    | ret x => exact steady_ifExpr x (h.expr d x)
    | jump kind => exact Walk.succeedsIff_skip.steady

namespace Memory

variable {p : Primitives} {visit : Expr → Walk State Finding}

theorem steady_bind (h : ∀ e, (visit e).Steady) (name : String) (value : Expr) :
    (bind p visit name value).Steady := by
  unfold bind
  split
  · exact (h value).andThen (succeedsIff_allocate name value).steady
  split
  · exact (Walk.succeedsIff_update _).steady
  refine (h value).andThen ?_
  cases source? value with
  | none => exact (Walk.succeedsIff_update _).steady
  | some other =>
    dsimp only
    split
    · exact Walk.succeedsIff_skip.steady
    · exact (Walk.succeedsIff_update _).steady

theorem steady_assign (h : ∀ e, (visit e).Steady) (target value : Expr) :
    (assign p visit target value).Steady := by
  cases target with
  | absent => exact Walk.steady_fail .absentTarget
  | ident name | varRef name => exact steady_bind h name value
  | deref | index => exact (h value).andThen (h _)
  | _ => exact (Walk.succeedsIff_note _).steady.andThen (h value)

theorem steady_expr (d : Nat) (e : Expr) : (expr p d e).Steady := by
  induction d generalizing e with
  | zero => exact Walk.steady_fail .tooDeep
  | succ d ih =>
    cases e with
    | absent => exact Walk.steady_fail .absentExpr
    | foreign kind => exact (Walk.succeedsIff_note _).steady
    | intLit | stringLit => exact Walk.succeedsIff_skip.steady
    | ident name | varRef name => exact (succeedsIff_read name).steady
    | addr name => exact (Walk.succeedsIff_update _).steady
    | deref x =>
      simp only [expr]
      cases x.name? with
      | some name => exact (succeedsIff_deref name).steady
      | none => exact ih x
    | index name i => exact (succeedsIff_deref name).steady.andThen (ih i)
    | arrayDecl name size => exact (ih size).andThen (Walk.succeedsIff_update _).steady
    | call f args =>
      simp only [expr]
      cases p.freedName? f args with
      | some name => exact (succeedsIff_read name).steady.andThen (succeedsIff_free name).steady
      | none => exact Walk.steady_all ih
    | binary op left right => exact (ih left).andThen (ih right)
    | assign target value => exact steady_assign ih target value

theorem steady_declare (d : Nat) (name : String) (e : Expr) : (declare p d name e).Steady := by
  by_cases he : e = .absent
  · rw [he]
    exact (Walk.succeedsIff_update _).steady
  · rw [declare_of_ne he]
    exact steady_bind (steady_expr d) name e

theorem steady_declareGlobal (d : Nat) (name : String) (e : Expr) :
    (declareGlobal p d name e).Steady := by
  by_cases he : e = .absent
  · rw [he]
    exact (Walk.succeedsIff_update _).steady
  · rw [declareGlobal_of_ne he]
    exact steady_bind (steady_expr d) name e

theorem pass_steady (p : Primitives) : (pass p).Steady :=
  ⟨steady_expr, steady_declare, steady_declareGlobal⟩

end Memory

/-! ### A statement and the declaration it becomes -/

/-- Where a pass takes a variable alike in both places, the declaration goes the way of the
statement and perhaps further. -/
theorem Pass.Limited.decl_ofStmt {p : Pass σ φ} (h : p.Limited) (depth : Nat) (s : Stmt)
    (hs : ∀ name init d, s = .decl name init →
      p.declare d name init = p.declareGlobal d name init) :
    (p.stmt depth s).CutsShort (p.decl depth (.ofStmt s)) := by
  cases s with
  | decl name init =>
    cases depth with
    | zero => exact Walk.cutsShort_tooDeep _
    | succ d =>
      -- the statement takes a level of its own
      have hinit := h.declareGlobal (Nat.le_succ d) name init
      rw [← hs name init d rfl] at hinit
      exact hinit
  | _ => exact .refl _

theorem Pass.Limited.decls_ofStmt {p : Pass σ φ} (h : p.Limited) (depth : Nat) {ss : List Stmt}
    (hss : ∀ name init d, .decl name init ∈ ss →
      p.declare d name init = p.declareGlobal d name init) :
    (p.stmts depth ss).CutsShort (p.decls depth (ss.map .ofStmt)) := by
  induction ss with
  | nil => exact .refl _
  | cons s ss ih =>
    have hs := h.decl_ofStmt depth s fun name init d hs =>
      hss name init d (hs ▸ List.mem_cons_self)
    have hss := ih fun name init d hmem => hss name init d (List.mem_cons_of_mem s hmem)
    rw [Pass.stmts, List.map_cons, Walk.all_cons, List.map_cons, Pass.decls_cons]
    exact hs.andThen hss

theorem Pass.Steady.decl_ofStmt {p : Pass σ φ} (h : p.Steady) (depth : Nat) (s : Stmt) :
    (p.decl depth (.ofStmt s)).Steady := by
  cases s with
  | decl name init => exact h.declareGlobal depth name init
  | _ => exact h.stmt depth _

namespace Memory

theorem declare_eq_declareGlobal {p : Primitives} {d : Nat} {name : String} {init : Expr}
    (h : init ≠ .absent) : declare p d name init = declareGlobal p d name init :=
  (declare_of_ne h).trans (declareGlobal_of_ne h).symm

/-- Without an initialiser a variable is marked in two ways, and neither of them stops the check. -/
theorem stopsShort_ofStmt (p : Primitives) (depth : Nat) (s : Stmt) :
    ((pass p).stmt depth s).StopsShort ((pass p).decl depth (.ofStmt s)) := by
  by_cases hs : ∃ name, s = .decl name .absent
  · obtain ⟨name, rfl⟩ := hs
    cases depth with
    | zero => exact fun _ _ => .inl rfl
    | succ d => exact fun _ _ => .inr (.inr ⟨⟨_, rfl⟩, _, rfl⟩)
  · have hcuts := (pass_limited p).decl_ofStmt depth s fun name init d hdecl =>
      declare_eq_declareGlobal fun hinit => hs ⟨name, hinit ▸ hdecl⟩
    exact hcuts.stopsShort ((pass_steady p).decl_ofStmt depth s)

end Memory

/-! ### Reports -/

theorem OnlyDeeper.ok_of_ok {checker : String} {n : Nat} {ds : List Diagnostic}
    {r r' : Except StructuralError (List Diagnostic)} (h : OnlyDeeper checker n r r')
    (hr : r = .ok ds) : r' = .ok ds := by
  cases h with
  | tooDeep | malformed => cases hr
  | ok => exact hr

/-- The first run ends with the same malformed tree as the second, or it was too deep. -/
def FailsToo (checker : String) (limit : Nat) (r r' : Except StructuralError (List Diagnostic)) :
    Prop :=
  ∀ e, e.defect = .malformed → r' = .error e → r = .error e ∨ r = .error (tooDeep checker limit)

theorem OnlyDeeper.failsToo {checker : String} {n : Nat}
    {r r' : Except StructuralError (List Diagnostic)} (h : OnlyDeeper checker n r r') :
    FailsToo checker n r r' := by
  intro e _ hr
  cases h with
  | tooDeep => exact .inr rfl
  | ok => cases hr
  | malformed => exact .inl hr

theorem Walk.StopsShort.failsToo {v w : Walk σ φ} (h : v.StopsShort w) (s t : σ) (checker : String)
    (diagnose : φ → Diagnostic) (n : Nat) :
    FailsToo checker n (report checker n diagnose (v s)) (report checker n diagnose (w t)) := by
  intro e _ he
  rcases h s t with hs | ⟨f, hs, ht⟩ | ⟨-, r, ht⟩
  · exact .inr (by rw [hs]; rfl)
  · refine .inl ?_
    rw [hs, ← he, ht]
  · rw [ht] at he
    cases he

/-- The two ways into a check agree. What the bounds check finds in some statements it finds in the
file of these statements, and so does the memory check if every variable among them has an
initialiser. Where the file is malformed, so are the statements, unless they are too deep. -/
theorem entry_points_agree (o : Options) (ss : List Stmt) :
    (∀ ds, Bounds.analyze o ss = .ok ds → Bounds.analyzeFile o (ss.map .ofStmt) = .ok ds) ∧
    ((∀ name, .decl name .absent ∉ ss) → ∀ ds, Memory.analyze o ss = .ok ds →
      Memory.analyzeFile o (ss.map .ofStmt) = .ok ds) ∧
    FailsToo Bounds.checker o.depth (Bounds.analyze o ss) (Bounds.analyzeFile o (ss.map .ofStmt)) ∧
    FailsToo Memory.checker o.depth (Memory.analyze o ss)
      (Memory.analyzeFile o (ss.map .ofStmt)) := by
  have hbounds : (Bounds.pass.stmts o.depth ss).CutsShort
      (Bounds.pass.decls o.depth (ss.map .ofStmt)) :=
    Bounds.pass_limited.decls_ofStmt o.depth fun _ _ _ _ => rfl
  have hreport := hbounds.report .empty Bounds.checker Bounds.Finding.diagnostic o.depth o.depth
  refine ⟨fun ds hds => hreport.ok_of_ok hds, fun hinit ds hds => ?_, hreport.failsToo, ?_⟩
  · have hmemory := (Memory.pass_limited o.primitives).decls_ofStmt o.depth fun name init d hmem =>
      Memory.declare_eq_declareGlobal fun habsent => hinit name (habsent ▸ hmem)
    exact (hmemory.report .empty _ _ o.depth o.depth).ok_of_ok hds
  · have hmemory : ((Memory.pass o.primitives).stmts o.depth ss).StopsShort
        ((Memory.pass o.primitives).decls o.depth (ss.map .ofStmt)) := by
      rw [Pass.decls, List.map_map]
      exact Walk.stopsShort_all (Memory.stopsShort_ofStmt o.primitives o.depth)
    exact hmemory.failsToo .empty .empty _ _ _

/-- A block that is freed twice, around a statement of an unknown kind: the same findings on both
ways. With a part missing below an initialiser the file is malformed, and the statements are too
deep before that shows. -/
theorem entry_points_agree_at_double_free :
    let release : Stmt := .expr (.call "free" [.varRef "p"])
    let ss : List Stmt := [.decl "p" (.call "malloc" [.intLit 4]), release, .foreign "try", release]
    let gap : List Stmt := [.decl "q" .absent, .decl "r" (.deref .absent)]
    let ds : List Diagnostic :=
      [.unsupportedNode "memory" "try", (Memory.Finding.doubleFree "p").diagnostic]
    let o : Options := ⟨.default, 3⟩
    let low : Options := ⟨.default, 2⟩
    let e : StructuralError := ⟨"memory", .malformed, "nil expression"⟩
    (∀ name, .decl name .absent ∉ ss) ∧ Memory.analyze o ss = .ok ds ∧
      Memory.analyzeFile o (ss.map .ofStmt) = .ok ds ∧
      Memory.analyzeFile low (gap.map .ofStmt) = .error e ∧
      Memory.analyze low gap = .error (tooDeep "memory" 2) := by
  intro release ss gap ds o low e
  have hinit : ∀ name, .decl name .absent ∉ ss := by simp [ss, release]
  have hds : Memory.analyze o ss = .ok ds := rfl
  have he : Memory.analyzeFile low (gap.map .ofStmt) = .error e := rfl
  have hdefect : Memory.analyze low gap ≠ .error e := fun h =>
    Defect.noConfusion (congrArg StructuralError.defect (Except.error.inj h))
  exact ⟨hinit, hds, (entry_points_agree o ss).2.1 hinit ds hds, he,
    ((entry_points_agree low gap).2.2.2 e rfl he).resolve_left hdefect⟩

end MemLint.Check
