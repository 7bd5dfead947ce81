import Mathlib.Tactic.FinCases
import MemLint.Proofs.Check.Lifecycle

/-! Leaks in the memory check. A leak is reported at one place only: where a name that still holds
an allocation is bound to a call that allocates. What spares it is that the name is the first
argument of the call, and that holds of every call that allocates, not only of one that resizes a
block. -/

namespace MemLint.Check

/-- Something noted by one walk after the other is noted by one of them, behind those before it. -/
theorem Walk.exists_of_mem_all {σ φ α : Type} {f : α → Walk σ φ} {as : List α} {s s' : σ}
    {xs : List φ} {x : φ} (h : all (as.map f) s = .ok (s', xs)) (hx : x ∈ xs) :
    ∃ before a after s₁ s₂ ys zs, as = before ++ a :: after ∧
      all (before.map f) s = .ok (s₁, ys) ∧ f a s₁ = .ok (s₂, zs) ∧ x ∈ zs := by
  induction as generalizing s xs with
  | nil =>
    cases h
    exact absurd hx List.not_mem_nil
  | cons a as ih =>
    rw [List.map_cons, all_cons, andThen_eq_ok] at h
    obtain ⟨s₁, ys, zs, ha, has, rfl⟩ := h
    rcases List.mem_append.1 hx with hy | hz
    · exact ⟨[], a, as, s, s₁, [], ys, rfl, rfl, ha, hy⟩
    · obtain ⟨before, b, after, s₂, s₃, us, vs, rfl, hbefore, hb, hv⟩ := ih has hz
      refine ⟨a :: before, b, after, s₂, s₃, ys ++ us, vs, rfl, ?_, hb, hv⟩
      rw [List.map_cons, all_cons, andThen_eq_ok]
      exact ⟨s₁, ys, us, ha, hbefore, rfl⟩

namespace Memory

variable {p : Primitives} {s s' : State} {name : String} {xs : List Finding}

/-! ### Names that are bound -/

/-- The task binds the name to the value, for which that many levels are left. -/
inductive Task.Binds (name : String) (value : Expr) : Nat → Task → Prop where
  | declared (d : Nat) : Binds name value d (.stmt (d + 1) (.decl name value))
  | global (d : Nat) : Binds name value d (.decl d (.var name value))
  | assigned {target : Expr} (d : Nat) (h : target.name? = some name) :
    Binds name value d (.expr (d + 1) (.assign target value))

theorem bind_of_isAllocCall {visit : Expr → Walk State Finding} {value : Expr}
    (h : p.isAllocCall value = true) :
    bind p visit name value = (visit value).andThen (allocate name value) := if_pos h

theorem assign_of_name? {visit : Expr → Walk State Finding} {target : Expr} (value : Expr)
    (h : target.name? = some name) : assign p visit target value = bind p visit name value := by
  cases target <;> cases h <;> rfl

theorem Task.Binds.walk_eq {value : Expr} {d : Nat} {t : Task} (h : t.Binds name value d)
    (hv : value ≠ .absent) : t.walk p = bind p (Memory.expr p d) name value := by
  cases h with
  | declared => exact declare_of_ne hv
  | global => exact declareGlobal_of_ne hv
  | assigned _ ht => exact assign_of_name? value ht

/-- A binding to a call that allocates goes through the arguments, then takes the new block. -/
theorem Task.Binds.walk_call {f : String} {args : List Expr} {d : Nat} {t : Task}
    (h : t.Binds name (.call f args) (d + 1)) (hf : p.isAlloc f = true)
    (hfree : p.isFree f = false) :
    t.walk p = ((Task.exprs d args).walk p).andThen (allocate name (.call f args)) := by
  have halloc : p.isAllocCall (.call f args) = true := hf
  have hnone : p.freedName? f args = none := by simp [Primitives.freedName?, hfree]
  rw [h.walk_eq Expr.noConfusion, bind_of_isAllocCall halloc, Memory.expr, hnone]
  rfl

/-- The name holds a block that has not been freed and does not go into the value. -/
def Loses (s : State) (name : String) (value : Expr) : Prop :=
  (marks s name).allocated = true ∧ (marks s name).freed = false ∧ resizes name value = false

instance (s : State) (name : String) (value : Expr) : Decidable (Loses s name value) :=
  inferInstanceAs (Decidable (_ ∧ _ ∧ _))

theorem allocate_eq (name : String) (value : Expr) (s : State) :
    allocate name value s =
      .ok (s.set name { allocated := true }, if Loses s name value then [.leak name] else []) := by
  by_cases h : Loses s name value
  · obtain ⟨hallocated, hfreed, hresized⟩ := h
    simp [allocate, Walk.look, Walk.andThen, Walk.note, Walk.update, Loses, hallocated, hfreed,
      hresized]
  · have hlost : ((marks s name).allocated && !(marks s name).freed &&
        !resizes name value) = false := by
      simpa [Loses, ← Bool.not_eq_true] using h
    simp [allocate, Walk.look, Walk.andThen, Walk.skip, Walk.update, hlost, h]

theorem resizes_call {f : String} {args : List Expr} :
    resizes name (.call f args) = true ↔ args.head?.bind Expr.name? = some name := by
  cases args <;> simp [resizes]

/-! ### Where leaks come from -/

/-- While the first task is done from the first state, the second one is started from the second
state, directly or further inside. -/
inductive During (p : Primitives) : Task → State → Task → State → Prop where
  | here (t : Task) (s : State) : During p t s t s
  | inside {t t' t'' : Task} {s s' s'' : State} (h : Starts p t s t' s')
    (ht : During p t' s' t'' s'') : During p t s t'' s''

/-- While the task is done from the state, the name is bound to a call that allocates, and behind
the call it still holds a block of its own. -/
def LosesDuring (p : Primitives) (t : Task) (s : State) (name : String) : Prop :=
  ∃ d value t' s₁ s₂ ys, During p t s t' s₁ ∧ t'.Binds name value d ∧
    p.isAllocCall value = true ∧ expr p d value s₁ = .ok (s₂, ys) ∧ Loses s₂ name value

theorem LosesDuring.outside {t t' : Task} (h : LosesDuring p t' s' name)
    (ht : Starts p t s t' s') : LosesDuring p t s name := by
  obtain ⟨d, value, t'', s₁, s₂, ys, hduring, hrest⟩ := h
  exact ⟨d, value, t'', s₁, s₂, ys, .inside ht hduring, hrest⟩

/-- The walk from the state reports a leak of the name only under the condition. -/
def LeaksOnlyIf (P : Prop) (name : String) (w : Walk State Finding) (s : State) : Prop :=
  ∀ ⦃s' xs⦄, w s = .ok (s', xs) → .leak name ∈ xs → P

section LeaksOnlyIf

variable {P : Prop} {v w : Walk State Finding}

theorem LeaksOnlyIf.mono {Q : Prop} (h : LeaksOnlyIf P name w s) (hPQ : P → Q) :
    LeaksOnlyIf Q name w s := fun _ _ hw hx => hPQ (h hw hx)

theorem leaksOnlyIf_note (h : .leak name ∉ xs) : LeaksOnlyIf P name (.note xs) s := by
  intro s' ys hw hx
  cases hw
  exact absurd hx h

theorem leaksOnlyIf_skip : LeaksOnlyIf P name .skip s := leaksOnlyIf_note List.not_mem_nil

theorem leaksOnlyIf_fail (f : Fault) : LeaksOnlyIf P name (.fail f) s := by
  intro s' xs hw hx
  cases hw

theorem leaksOnlyIf_update (f : State → State) : LeaksOnlyIf P name (.update f) s := by
  intro s' xs hw hx
  cases hw
  exact absurd hx List.not_mem_nil

theorem LeaksOnlyIf.andThen (hv : LeaksOnlyIf P name v s)
    (hw : ∀ s' xs, v s = .ok (s', xs) → LeaksOnlyIf P name w s') :
    LeaksOnlyIf P name (v.andThen w) s := by
  intro s'' zs h hx
  obtain ⟨s', xs, ys, hs, hs', rfl⟩ := Walk.andThen_eq_ok.1 h
  rcases List.mem_append.1 hx with hx | hy
  · exact hv hs hx
  · exact hw s' xs hs hs' hy

theorem LeaksOnlyIf.fork (h : LeaksOnlyIf P name w s) : LeaksOnlyIf P name w.fork s := by
  intro s' xs hw hx
  obtain ⟨-, s'', hw⟩ := Walk.fork_eq_ok.1 hw
  exact h hw hx

/-- A list of tasks loses a block only where one of them does, from the state behind those before
it. -/
theorem leaksOnlyIf_all {α : Type} {f : α → Walk State Finding} {g : α → Task} {t : Task}
    {as : List α} (h : ∀ a s, LeaksOnlyIf (LosesDuring p (g a) s name) name (f a) s)
    (hstart : ∀ before a after s₁ ys, as = before ++ a :: after →
      Walk.all (before.map f) s = .ok (s₁, ys) → Starts p t s (g a) s₁) :
    LeaksOnlyIf (LosesDuring p t s name) name (Walk.all (as.map f)) s := by
  intro s' xs hw hx
  obtain ⟨before, a, after, s₁, s₂, ys, zs, has, hbefore, ha, hz⟩ := Walk.exists_of_mem_all hw hx
  exact (h a s₁ ha hz).outside (hstart before a after s₁ ys has hbefore)

theorem leaksOnlyIf_ifExpr {e : Expr} (h : e ≠ .absent → LeaksOnlyIf P name w s) :
    LeaksOnlyIf P name (ifExpr e w) s := by
  unfold ifExpr
  split
  · exact leaksOnlyIf_skip
  next he => exact h he

theorem leaksOnlyIf_ifStmt {x : Stmt} (h : x ≠ .absent → LeaksOnlyIf P name w s) :
    LeaksOnlyIf P name (ifStmt x w) s := by
  unfold ifStmt
  split
  · exact leaksOnlyIf_skip
  next hx => exact h hx

theorem leaksOnlyIf_read (other : String) : LeaksOnlyIf P name (read other) s := by
  change LeaksOnlyIf P name (if _ then _ else _) s
  split
  · exact leaksOnlyIf_note (by simp)
  · exact leaksOnlyIf_skip

theorem leaksOnlyIf_deref (other : String) : LeaksOnlyIf P name (deref other) s := by
  refine (leaksOnlyIf_read other).andThen fun s' xs _ => ?_
  change LeaksOnlyIf P name (if _ then _ else _) s'
  split
  · exact leaksOnlyIf_note (by simp)
  · exact leaksOnlyIf_skip

theorem leaksOnlyIf_free (other : String) : LeaksOnlyIf P name (free other) s := by
  change LeaksOnlyIf P name (if _ then _ else if _ then _ else _) s
  split
  · exact leaksOnlyIf_note (by simp)
  · split
    · exact leaksOnlyIf_update _
    · exact leaksOnlyIf_skip

end LeaksOnlyIf

/-- A binding loses a block only where the value is a call that allocates. -/
theorem leaksOnlyIf_bind {d : Nat} {bound : String} {value : Expr} {t : Task}
    (ht : t.Binds bound value d)
    (hvalue : LeaksOnlyIf (LosesDuring p (.expr d value) s name) name (expr p d value) s)
    (hstart : Walked p value → Starts p t s (.expr d value) s) :
    LeaksOnlyIf (LosesDuring p t s name) name (bind p (expr p d) bound value) s := by
  have hinner (hw : Walked p value) :
      LeaksOnlyIf (LosesDuring p t s name) name (expr p d value) s :=
    hvalue.mono fun h => h.outside (hstart hw)
  unfold bind
  split
  next halloc =>
    refine (hinner (.inl halloc)).andThen fun s₂ ys hv s' xs hw hx => ?_
    rw [allocate_eq] at hw
    cases hw
    split at hx
    next hloses =>
      cases List.mem_singleton.1 hx
      exact ⟨d, value, t, s, s₂, ys, .here t s, ht, halloc, hv, hloses⟩
    · exact absurd hx List.not_mem_nil
  · split
    · exact leaksOnlyIf_update _
    next hnull =>
      refine (hinner (.inr (Bool.eq_false_iff.2 hnull))).andThen fun s₂ ys _ => ?_
      split
      · exact leaksOnlyIf_update _
      · split
        · exact leaksOnlyIf_skip
        · exact leaksOnlyIf_update _

theorem leaksOnlyIf_assign {d : Nat} {target value : Expr}
    (ih : ∀ e s, LeaksOnlyIf (LosesDuring p (.expr d e) s name) name (expr p d e) s) :
    LeaksOnlyIf (LosesDuring p (.expr (d + 1) (.assign target value)) s name) name
      (assign p (expr p d) target value) s := by
  have hbound {bound : String} (ht : target.name? = some bound) :
      LeaksOnlyIf (LosesDuring p (.expr (d + 1) (.assign target value)) s name) name
        (assign p (expr p d) target value) s := by
    rw [assign_of_name? value ht]
    exact leaksOnlyIf_bind (.assigned d ht) (ih value s) (.boundValue ht)
  have hstored (ht : target.name? = none) (ha : target ≠ .absent) :
      LeaksOnlyIf (LosesDuring p (.expr (d + 1) (.assign target value)) s name) name
        (expr p d value) s :=
    (ih value s).mono fun h => h.outside (.storedValue ht ha)
  cases target with
  | ident | varRef => exact hbound rfl
  | deref | index =>
    exact (hstored rfl Expr.noConfusion).andThen fun s' ys hv =>
      (ih _ s').mono fun h => h.outside (.place rfl rfl hv)
  | absent => exact leaksOnlyIf_fail .absentTarget
  | _ =>
    exact (leaksOnlyIf_note (by simp)).andThen fun s' ys hn => by
      cases hn
      exact hstored rfl Expr.noConfusion

theorem leaksOnlyIf_expr (d : Nat) (e : Expr) (s : State) :
    LeaksOnlyIf (LosesDuring p (.expr d e) s name) name (expr p d e) s := by
  induction d generalizing e s with
  | zero => exact leaksOnlyIf_fail .tooDeep
  | succ d ih =>
    have hpart {e e' : Expr} {s s' : State} (h : Starts p (.expr (d + 1) e) s (.expr d e') s') :
        LeaksOnlyIf (LosesDuring p (.expr (d + 1) e) s name) name (expr p d e') s' :=
      (ih e' s').mono fun hl => hl.outside h
    cases e with
    | absent => exact leaksOnlyIf_fail .absentExpr
    | foreign kind => exact leaksOnlyIf_note (by simp)
    | intLit | stringLit => exact leaksOnlyIf_skip
    | ident other | varRef other => exact leaksOnlyIf_read other
    | addr other => exact leaksOnlyIf_update _
    | deref x =>
      rw [expr]
      split
      · exact leaksOnlyIf_deref _
      next hx => exact hpart (.pointer hx)
    | index other i =>
      exact (leaksOnlyIf_deref other).andThen fun s' ys h => hpart (.subscript h)
    | arrayDecl other size =>
      exact (hpart .size).andThen fun s' ys _ => leaksOnlyIf_update _
    | call f args =>
      rw [expr]
      split
      next other _ => exact (leaksOnlyIf_read other).andThen fun s' ys _ => leaksOnlyIf_free other
      next hf =>
        have hargs : LeaksOnlyIf (LosesDuring p (.exprs d args) s name) name
            (Walk.all (args.map (Memory.expr p d))) s :=
          leaksOnlyIf_all ih fun before a after s₁ ys ha h => ha ▸ .exprOf before after h
        exact hargs.mono fun h => h.outside (.args hf)
    | binary op left right => exact (hpart .left).andThen fun s' ys h => hpart (.right h)
    | assign target value => exact leaksOnlyIf_assign ih

theorem leaksOnlyIf_stmt (d : Nat) (x : Stmt) (s : State) :
    LeaksOnlyIf (LosesDuring p (.stmt d x) s name) name ((pass p).stmt d x) s := by
  induction d generalizing x s with
  | zero => exact leaksOnlyIf_fail .tooDeep
  | succ d ih =>
    have hstmt {x x' : Stmt} {s s' : State} (h : Starts p (.stmt (d + 1) x) s (.stmt d x') s') :
        LeaksOnlyIf (LosesDuring p (.stmt (d + 1) x) s name) name ((pass p).stmt d x') s' :=
      (ih x' s').mono fun hl => hl.outside h
    have hexpr {x : Stmt} {e : Expr} {s s' : State}
        (h : Starts p (.stmt (d + 1) x) s (.expr d e) s') :
        LeaksOnlyIf (LosesDuring p (.stmt (d + 1) x) s name) name ((pass p).expr d e) s' :=
      (leaksOnlyIf_expr d e s').mono fun hl => hl.outside h
    cases x with
    | absent => exact leaksOnlyIf_fail .absentStmt
    | foreign kind => exact leaksOnlyIf_note (by simp [pass])
    | block ss =>
      have hss : LeaksOnlyIf (LosesDuring p (.stmts d ss) s name) name
          (Walk.all (ss.map ((pass p).stmt d))) s :=
        leaksOnlyIf_all ih fun before x after s₁ ys hx h => hx ▸ .stmtOf before after h
      exact hss.mono fun h => h.outside .block
    | expr e => exact hexpr .whole
    | decl other init =>
      by_cases hi : init = .absent
      · subst hi
        exact leaksOnlyIf_update _
      · change LeaksOnlyIf _ name (declare p d other init) s
        rw [declare_of_ne hi]
        exact leaksOnlyIf_bind (.declared d) (leaksOnlyIf_expr d init s) (.localValue hi)
    | cond test yes no =>
      -- both branches start from the state behind the test
      refine (hexpr .test).andThen fun s' ys ht => (hstmt (.yes ht)).fork.andThen fun s₁ zs hy => ?_
      obtain ⟨rfl, s₂, hyes⟩ := Walk.fork_eq_ok.1 hy
      exact leaksOnlyIf_ifStmt fun hn => (hstmt (.no hn ht hyes)).fork
    | loop init test post body =>
      refine ((leaksOnlyIf_ifStmt fun hi => hstmt (.loopInit hi)).andThen fun s₁ ys₁ h₁ =>
        (leaksOnlyIf_ifExpr fun ht => hexpr (.loopTest ht h₁)).andThen fun s₂ ys₂ h₂ => ?_).fork
      have hhead := Walk.andThen_eq_ok.2 ⟨s₁, ys₁, ys₂, h₁, h₂, rfl⟩
      refine (hstmt (.loopBody hhead)).andThen fun s₃ ys₃ h₃ => leaksOnlyIf_ifExpr fun hp => ?_
      exact hexpr (.loopPost hp (Walk.andThen_eq_ok.2 ⟨s₂, _, ys₃, hhead, h₃, rfl⟩))
    | ret e => exact leaksOnlyIf_ifExpr fun he => hexpr (.returned he)
    | jump => exact leaksOnlyIf_skip

theorem leaksOnlyIf_decl (n : Nat) (d : Decl) (s : State) :
    LeaksOnlyIf (LosesDuring p (.decl n d) s name) name ((pass p).decl n d) s := by
  cases d with
  | absent => exact leaksOnlyIf_fail .absentDecl
  | foreign kind => exact leaksOnlyIf_note (by simp [pass])
  | func f params ret body =>
    refine leaksOnlyIf_ifStmt fun hb => ((leaksOnlyIf_update _).andThen fun s' ys h => ?_).fork
    cases h
    exact (leaksOnlyIf_stmt n body _).mono fun hl => hl.outside (.body hb)
  | var other init =>
    by_cases hi : init = .absent
    · subst hi
      exact leaksOnlyIf_update _
    · change LeaksOnlyIf _ name (declareGlobal p n other init) s
      rw [declareGlobal_of_ne hi]
      exact leaksOnlyIf_bind (.global n) (leaksOnlyIf_expr n init s) (.globalValue hi)
  | stmt x => exact (leaksOnlyIf_stmt n x s).mono fun hl => hl.outside .fileStmt

/-- Whatever is walked, a leak of a name is reported only where the name is bound to a call that
allocates. -/
theorem leaksOnlyIf_walk (t : Task) (s : State) :
    LeaksOnlyIf (LosesDuring p t s name) name (t.walk p) s := by
  cases t with
  | decls n ds =>
    exact leaksOnlyIf_all (leaksOnlyIf_decl n) fun before d after s₁ ys hd h =>
      hd ▸ .declOf before after h
  | decl n d => exact leaksOnlyIf_decl n d s
  | enter params => exact leaksOnlyIf_update _
  | stmts n ss =>
    exact leaksOnlyIf_all (leaksOnlyIf_stmt n) fun before x after s₁ ys hx h =>
      hx ▸ .stmtOf before after h
  | stmt n x => exact leaksOnlyIf_stmt n x s
  | exprs n es =>
    exact leaksOnlyIf_all (leaksOnlyIf_expr n) fun before e after s₁ ys he h =>
      he ▸ .exprOf before after h
  | expr n e => exact leaksOnlyIf_expr n e s

/-! ### Blocks that are overwritten -/

/-- With the default primitives, let a name hold a block behind the arguments of a call that
allocates, and be bound to the call. The block is reported as leaked, once and behind what the
arguments lead to, exactly if the name is not the first argument, whichever call it is; and the name
holds the new block alone. With any primitives, a leak is reported only at such a binding. -/
theorem overwritten_block_leaks_iff (t : Task) (s : State) :
    (∀ ⦃name f args d s' xs⦄, Task.Binds name (.call f args) (d + 1) t →
      Primitives.default.isAlloc f = true →
      (Task.exprs d args).walk .default s = .ok (s', xs) →
      (marks s' name).allocated = true → (marks s' name).freed = false →
      ∃ s'', marks s'' name = { allocated := true } ∧ t.walk .default s =
        .ok (s'', xs ++ if args.head?.bind Expr.name? = some name then [] else [.leak name])) ∧
    ∀ ⦃p s' xs name⦄, t.walk p s = .ok (s', xs) → .leak name ∈ xs → LosesDuring p t s name := by
  refine ⟨?_, fun p s' xs name h hx => leaksOnlyIf_walk t s h hx⟩
  intro name f args d s' xs ht hf hargs hallocated hfreed
  have hfree : Primitives.default.isFree f = false := by
    simp only [Primitives.isAlloc, Primitives.default, List.contains_iff_mem] at hf
    fin_cases hf <;> rfl
  have hloses : Loses s' name (.call f args) ↔ ¬ args.head?.bind Expr.name? = some name := by
    rw [← resizes_call (f := f), Bool.not_eq_true]
    exact ⟨fun h => h.2.2, fun h => ⟨hallocated, hfreed, h⟩⟩
  refine ⟨s'.set name { allocated := true }, by simp, ?_⟩
  rw [ht.walk_call hf hfree, Walk.andThen_eq_ok]
  refine ⟨s', xs, _, hargs, allocate_eq name _ s', ?_⟩
  rw [if_congr hloses rfl rfl, ite_not]

/-- Behind an allocation, a block is lost to a copy of another string, and no loss is reported where
the string is copied that the block itself holds. -/
theorem overwritten_block_leaks_iff_at_copy :
    let s : State := ⟨[("p", { allocated := true })]⟩
    let copy (x : String) : Task := .expr 3 (.assign (.varRef "p") (.call "strdup" [.varRef x]))
    Reached { maxDepth := 4 } s ∧
    (∃ s', (copy "q").walk .default s = .ok (s', [.leak "p"])) ∧
    (∃ s', (copy "p").walk .default s = .ok (s', []) ∧ marks s' "p" = { allocated := true }) ∧
    LosesDuring .default (copy "q") s "p" := by
  intro s copy
  have hbinds (x : String) : Task.Binds "p" (.call "strdup" [.varRef x]) 2 (copy x) :=
    .assigned 2 rfl
  have hargs (x : String) (hx : (marks s x).uninit = false) :
      (Task.exprs 1 [.varRef x]).walk .default s = .ok (s, []) := by
    simp [Task.walk, Walk.all_cons, expr, read, Walk.look, hx, Walk.andThen, Walk.skip]
  obtain ⟨hleaks, honly⟩ := overwritten_block_leaks_iff (copy "q") s
  obtain ⟨s₁, -, hother⟩ := hleaks (hbinds "q") rfl (hargs "q" rfl) rfl rfl
  obtain ⟨hspared, -⟩ := overwritten_block_leaks_iff (copy "p") s
  obtain ⟨s₂, hmarks, hself⟩ := hspared (hbinds "p") rfl (hargs "p" rfl) rfl rfl
  have hreached : Reached { maxDepth := 4 } s :=
    .stmts [.decl "p" (.call "malloc" [.intLit 4])] (.done rfl)
  exact ⟨hreached, ⟨s₁, hother⟩, ⟨s₂, hself, hmarks⟩, honly hother (List.mem_singleton.2 rfl)⟩

end Memory

end MemLint.Check
