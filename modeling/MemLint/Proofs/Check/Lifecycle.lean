import Mathlib.Logic.ExistsUnique
import MemLint.Proofs.Check.Clean
import MemLint.Proofs.Check.Simulation

/-! The life of a name in the memory check. What is known of a name is always one of five things:
nothing, that it has no value yet, that it holds null, that it holds an allocation, or that what it
holds has been freed. This is so at every point of a run, also inside branches, loops, functions and
expressions, because each of the few things that can happen to a name leads from one life to
another. -/

namespace MemLint.Check.Memory

variable {p : Primitives} {s s' : State}

/-! ### What can happen to a name -/

/-- One thing that happens to a name. -/
inductive Step (s : State) : State → Prop where
  | uninitialized (name : String) : Step s (s.set name { uninit := true })
  | null (name : String) : Step s (s.set name { null := true })
  | allocated (name : String) : Step s (s.set name { allocated := true })
  | freed (name : String) (h : (marks s name).allocated = true) :
    Step s (s.set name { marks s name with freed := true })
  | copied (name other : String) : Step s (s.set name (marks s other))
  | addressed (name : String) : Step s (s.set name { marks s name with uninit := false })
  | forgotten (name : String) : Step s (s.erase name)

/-- No step leaves the states in `I`. -/
def Stable (I : State → Prop) : Prop := ∀ ⦃s s'⦄, Step s s' → I s → I s'

section Steps

variable {I : State → Prop} (hI : Stable I)

theorem keeps_read (name : String) : (read name).Keeps I := by
  refine Walk.keeps_look fun s => ?_
  split
  · exact Walk.keeps_note _
  · exact Walk.keeps_skip

theorem keeps_deref (name : String) : (deref name).Keeps I := by
  refine (keeps_read name).andThen (Walk.keeps_look fun s => ?_)
  split
  · exact Walk.keeps_note _
  · exact Walk.keeps_skip

include hI

theorem keeps_step {f : State → State} (h : ∀ s, Step s (f s)) :
    (Walk.update f : Walk State Finding).Keeps I := Walk.keeps_update fun s => hI (h s)

theorem keeps_free (name : String) : (free name).Keeps I := by
  intro s s' xs hs h
  simp only [free, Walk.look] at h
  split at h
  · cases h
    exact hs
  · split at h
    next ha =>
      cases h
      exact hI (.freed name ha) hs
    · cases h
      exact hs

theorem keeps_allocate (name : String) (value : Expr) : (allocate name value).Keeps I := by
  refine Walk.keeps_look fun s => Walk.Keeps.andThen ?_ (keeps_step hI fun s => .allocated name)
  split
  · exact Walk.keeps_note _
  · exact Walk.keeps_skip

theorem keeps_bind {visit : Expr → Walk State Finding} (hvisit : ∀ e, (visit e).Keeps I)
    (name : String) (value : Expr) : (bind p visit name value).Keeps I := by
  unfold bind
  split
  · exact (hvisit value).andThen (keeps_allocate hI name value)
  · split
    · exact keeps_step hI fun s => .null name
    · refine (hvisit value).andThen ?_
      split
      · exact keeps_step hI fun s => .forgotten name
      · split
        · exact Walk.keeps_skip
        · exact keeps_step hI fun s => .copied name _

theorem keeps_assign {visit : Expr → Walk State Finding} (hvisit : ∀ e, (visit e).Keeps I)
    (target value : Expr) : (assign p visit target value).Keeps I := by
  unfold assign
  split
  · exact keeps_bind hI hvisit _ value
  · exact keeps_bind hI hvisit _ value
  · exact (hvisit value).andThen (hvisit _)
  · exact (hvisit value).andThen (hvisit _)
  · exact Walk.keeps_fail .absentTarget
  · exact (Walk.keeps_note _).andThen (hvisit value)

theorem keeps_expr (d : Nat) (e : Expr) : (expr p d e).Keeps I := by
  induction d generalizing e with
  | zero => exact Walk.keeps_fail .tooDeep
  | succ d ih =>
    cases e with
    | absent => exact Walk.keeps_fail .absentExpr
    | foreign kind => exact Walk.keeps_note _
    | intLit | stringLit => exact Walk.keeps_skip
    | ident name | varRef name => exact keeps_read name
    | addr name => exact keeps_step hI fun s => .addressed name
    | deref x =>
      rw [expr]
      split
      · exact keeps_deref _
      · exact ih x
    | index name i => exact (keeps_deref name).andThen (ih i)
    | arrayDecl name size => exact (ih size).andThen (keeps_step hI fun s => .forgotten name)
    | call f args =>
      rw [expr]
      split
      next name _ => exact (keeps_read name).andThen (keeps_free hI name)
      · exact Walk.keeps_all (List.forall_mem_map.2 fun e _ => ih e)
    | binary op left right => exact (ih left).andThen (ih right)
    | assign target value => exact keeps_assign hI ih target value

theorem pass_keeps (p : Primitives) : (pass p).Keeps I where
  expr := keeps_expr hI
  declare d name e := by
    by_cases he : e = .absent
    · subst he
      exact keeps_step hI fun s => .uninitialized name
    · change (declare p d name e).Keeps I
      rw [declare_of_ne he]
      exact keeps_bind hI (keeps_expr hI d) name e
  declareGlobal d name e := by
    by_cases he : e = .absent
    · subst he
      exact keeps_step hI fun s => .null name
    · change (declareGlobal p d name e).Keeps I
      rw [declareGlobal_of_ne he]
      exact keeps_bind hI (keeps_expr hI d) name e

theorem enter_keeps (params : List Param) (hs : I s) : I ((pass p).enter params s) := by
  induction params generalizing s with
  | nil => exact hs
  | cons prm params ih => exact ih (hI (.forgotten prm.name) hs)

end Steps

/-! ### Points of a run -/

/-- A part of a tree, with the levels that are left for it. -/
inductive Task where
  | decls (depth : Nat) (ds : List Decl)
  | decl (depth : Nat) (d : Decl)
  | enter (params : List Param)
  | stmts (depth : Nat) (ss : List Stmt)
  | stmt (depth : Nat) (s : Stmt)
  | exprs (depth : Nat) (es : List Expr)
  | expr (depth : Nat) (e : Expr)

def Task.walk (p : Primitives) : Task → Walk State Finding
  | decls depth ds => (pass p).decls depth ds
  | decl depth d => (pass p).decl depth d
  | enter params => .update ((pass p).enter params)
  | stmts depth ss => (pass p).stmts depth ss
  | stmt depth s => (pass p).stmt depth s
  | exprs depth es => .all (es.map (Memory.expr p depth))
  | expr depth e => Memory.expr p depth e

/-- The value of a declaration or an assignment is walked, unless it is just the null pointer. -/
def Walked (p : Primitives) (value : Expr) : Prop :=
  p.isAllocCall value = true ∨ p.isNullExpr value = false

/-- While the first task is done from the first state, the second one is started directly from the
second state. -/
inductive Starts (p : Primitives) : Task → State → Task → State → Prop where
  | declOf {n d s s' xs} (before after : List Decl)
    (h : (Task.decls n before).walk p s = .ok (s', xs)) :
    Starts p (.decls n (before ++ d :: after)) s (.decl n d) s'
  | stmtOf {n x s s' xs} (before after : List Stmt)
    (h : (Task.stmts n before).walk p s = .ok (s', xs)) :
    Starts p (.stmts n (before ++ x :: after)) s (.stmt n x) s'
  | exprOf {n e s s' xs} (before after : List Expr)
    (h : (Task.exprs n before).walk p s = .ok (s', xs)) :
    Starts p (.exprs n (before ++ e :: after)) s (.expr n e) s'
  | params {n name ret body s} (before after : List Param) (hb : body ≠ .absent) :
    Starts p (.decl n (.func name (before ++ after) ret body)) s (.enter before) s
  | body {n name params ret body s} (hb : body ≠ .absent) :
    Starts p (.decl n (.func name params ret body)) s (.stmt n body) ((pass p).enter params s)
  | globalValue {n name init s} (hi : init ≠ .absent) (h : Walked p init) :
    Starts p (.decl n (.var name init)) s (.expr n init) s
  | fileStmt {n x s} : Starts p (.decl n (.stmt x)) s (.stmt n x) s
  | block {n ss s} : Starts p (.stmt (n + 1) (.block ss)) s (.stmts n ss) s
  | whole {n x s} : Starts p (.stmt (n + 1) (.expr x)) s (.expr n x) s
  | localValue {n name init s} (hi : init ≠ .absent) (h : Walked p init) :
    Starts p (.stmt (n + 1) (.decl name init)) s (.expr n init) s
  | test {n test yes no s} : Starts p (.stmt (n + 1) (.cond test yes no)) s (.expr n test) s
  | yes {n test yes no s s' xs} (h : expr p n test s = .ok (s', xs)) :
    Starts p (.stmt (n + 1) (.cond test yes no)) s (.stmt n yes) s'
  | no {n test yes no s s' xs r} (hn : no ≠ .absent) (h : expr p n test s = .ok (s', xs))
    (hy : (pass p).stmt n yes s' = .ok r) :
    Starts p (.stmt (n + 1) (.cond test yes no)) s (.stmt n no) s'
  | loopInit {n init test post body s} (hi : init ≠ .absent) :
    Starts p (.stmt (n + 1) (.loop init test post body)) s (.stmt n init) s
  | loopTest {n init test post body s s' xs} (ht : test ≠ .absent)
    (h : ifStmt init ((pass p).stmt n init) s = .ok (s', xs)) :
    Starts p (.stmt (n + 1) (.loop init test post body)) s (.expr n test) s'
  | loopBody {n init test post body s s' xs}
    (h : ((ifStmt init ((pass p).stmt n init)).andThen (ifExpr test (expr p n test))) s =
      .ok (s', xs)) :
    Starts p (.stmt (n + 1) (.loop init test post body)) s (.stmt n body) s'
  | loopPost {n init test post body s s' xs} (hp : post ≠ .absent)
    (h : (((ifStmt init ((pass p).stmt n init)).andThen (ifExpr test (expr p n test))).andThen
      ((pass p).stmt n body)) s = .ok (s', xs)) :
    Starts p (.stmt (n + 1) (.loop init test post body)) s (.expr n post) s'
  | returned {n x s} (hx : x ≠ .absent) : Starts p (.stmt (n + 1) (.ret x)) s (.expr n x) s
  | pointer {n x s} (hx : x.name? = none) : Starts p (.expr (n + 1) (.deref x)) s (.expr n x) s
  | subscript {n name i s s' xs} (h : deref name s = .ok (s', xs)) :
    Starts p (.expr (n + 1) (.index name i)) s (.expr n i) s'
  | size {n name size s} : Starts p (.expr (n + 1) (.arrayDecl name size)) s (.expr n size) s
  | args {n f args s} (h : p.freedName? f args = none) :
    Starts p (.expr (n + 1) (.call f args)) s (.exprs n args) s
  | left {n op left right s} : Starts p (.expr (n + 1) (.binary op left right)) s (.expr n left) s
  | right {n op left right s s' xs} (h : expr p n left s = .ok (s', xs)) :
    Starts p (.expr (n + 1) (.binary op left right)) s (.expr n right) s'
  | boundValue {n target value name s} (ht : target.name? = some name) (h : Walked p value) :
    Starts p (.expr (n + 1) (.assign target value)) s (.expr n value) s
  | storedValue {n target value s} (ht : target.name? = none) (ha : target ≠ .absent) :
    Starts p (.expr (n + 1) (.assign target value)) s (.expr n value) s
  | place {n target value s s' xs} (ht : target.name? = none) (ha : target.assignable = true)
    (h : expr p n value s = .ok (s', xs)) :
    Starts p (.expr (n + 1) (.assign target value)) s (.expr n target) s'

/-- The second state occurs while the task is done from the first one: at its start, at its end, or
inside. -/
inductive Passes (p : Primitives) : Task → State → State → Prop where
  | start (t : Task) (s : State) : Passes p t s s
  | done {t : Task} {s s' : State} {xs : List Finding} (h : t.walk p s = .ok (s', xs)) :
    Passes p t s s'
  | inside {t t' : Task} {s s' s'' : State} (h : Starts p t s t' s') (ht : Passes p t' s' s'') :
    Passes p t s s''

/-- The state occurs in a run of the check on statements or on a file. -/
inductive Reached (o : Options) (s : State) : Prop where
  | stmts (ss : List Stmt) (h : Passes o.primitives (.stmts o.depth ss) .empty s)
  | decls (ds : List Decl) (h : Passes o.primitives (.decls o.depth ds) .empty s)

section Points

variable {I : State → Prop} (hI : Stable I)

include hI

theorem Task.keeps (t : Task) : (t.walk p).Keeps I := by
  have hpass := pass_keeps hI p
  cases t with
  | decls n ds => exact Walk.keeps_all (List.forall_mem_map.2 fun d _ => hpass.decl n d)
  | decl n d => exact hpass.decl n d
  | enter params => exact Walk.keeps_update fun s => enter_keeps hI params
  | stmts n ss => exact Walk.keeps_all (List.forall_mem_map.2 fun s _ => hpass.stmt n s)
  | stmt n s => exact hpass.stmt n s
  | exprs n es => exact Walk.keeps_all (List.forall_mem_map.2 fun e _ => keeps_expr hI n e)
  | expr n e => exact keeps_expr hI n e

/-- A task starts another one only in a state that it keeps. -/
theorem Starts.keeps {t t' : Task} (h : Starts p t s t' s') (hs : I s) : I s' := by
  have hexpr := keeps_expr (p := p) hI
  have hstmt := (pass_keeps hI p).stmt
  have hinit (n : Nat) (init : Stmt) := keeps_ifStmt init (hstmt n init)
  have htest (n : Nat) (test : Expr) := keeps_ifExpr test (hexpr n test)
  cases h with
  | declOf _ _ h | stmtOf _ _ h | exprOf _ _ h => exact Task.keeps hI _ _ _ _ hs h
  | body => exact enter_keeps hI _ hs
  | yes h | no _ h | right h | place _ _ h => exact hexpr _ _ _ _ _ hs h
  | loopTest _ h => exact hinit _ _ _ _ _ hs h
  | loopBody h => exact (hinit _ _).andThen (htest _ _) _ _ _ hs h
  | loopPost _ h => exact ((hinit _ _).andThen (htest _ _)).andThen (hstmt _ _) _ _ _ hs h
  | subscript h => exact keeps_deref _ _ _ _ hs h
  | _ => exact hs

theorem Passes.keeps {t : Task} (h : Passes p t s s') (hs : I s) : I s' := by
  induction h with
  | start t s => exact hs
  | done h => exact Task.keeps hI _ _ _ _ hs h
  | inside h _ ih => exact ih (h.keeps hI hs)

theorem Reached.keeps {o : Options} (h : Reached o s) (hempty : I .empty) : I s := by
  cases h with
  | stmts ss h => exact h.keeps hI hempty
  | decls ds h => exact h.keeps hI hempty

end Points

/-! ### Lives -/

/-- What a name can have gone through. -/
inductive Life where
  | unknown
  | uninitialized
  | null
  | allocated
  | freed
  deriving DecidableEq, Repr

def Life.marks : Life → Marks
  | unknown => {}
  | uninitialized => { uninit := true }
  | null => { null := true }
  | allocated => { allocated := true }
  | freed => { allocated := true, freed := true }

theorem Life.marks_injective : Function.Injective Life.marks := by
  intro l l' h
  cases l <;> cases l' <;> first | rfl | cases h

/-- The tables say of a name that it leads one life. -/
structure Marks.OneLife (m : Marks) : Prop where
  allocated_of_freed : m.freed = true → m.allocated = true
  not_allocated_and_uninit : ¬(m.allocated = true ∧ m.uninit = true)
  not_allocated_and_null : ¬(m.allocated = true ∧ m.null = true)
  not_uninit_and_null : ¬(m.uninit = true ∧ m.null = true)
  exists_unique : ∃! l : Life, m = l.marks

theorem Life.oneLife (l : Life) : l.marks.OneLife where
  allocated_of_freed := by cases l <;> simp [Life.marks]
  not_allocated_and_uninit := by cases l <;> simp [Life.marks]
  not_allocated_and_null := by cases l <;> simp [Life.marks]
  not_uninit_and_null := by cases l <;> simp [Life.marks]
  exists_unique := ⟨l, rfl, fun _ h => (marks_injective h).symm⟩

/-- Every name leads a life. -/
def Lives (s : State) : Prop := ∀ name, ∃ l : Life, marks s name = l.marks

theorem lives_empty : Lives .empty := fun _ => ⟨.unknown, rfl⟩

theorem Lives.set (hs : Lives s) (name : String) (l : Life) : Lives (s.set name l.marks) := by
  intro other
  rw [marks_set]
  split
  · exact ⟨l, rfl⟩
  · exact hs other

/-- Whatever happens to a name, it leads from one life to another. -/
theorem lives_stable : Stable Lives := by
  intro s s' h hs
  cases h with
  | uninitialized name => exact hs.set name .uninitialized
  | null name => exact hs.set name .null
  | allocated name => exact hs.set name .allocated
  | freed name h =>
    obtain ⟨l, hl⟩ := hs name
    rw [hl] at h ⊢
    -- only what is allocated can be freed
    cases l with
    | allocated | freed => exact hs.set name .freed
    | _ => cases h
  | copied name other =>
    obtain ⟨l, hl⟩ := hs other
    rw [hl]
    exact hs.set name l
  | addressed name =>
    obtain ⟨l, hl⟩ := hs name
    rw [hl]
    cases l with
    | unknown | uninitialized => exact hs.set name .unknown
    | null => exact hs.set name .null
    | allocated => exact hs.set name .allocated
    | freed => exact hs.set name .freed
  | forgotten name =>
    intro other
    rw [marks_erase]
    split
    · exact ⟨.unknown, rfl⟩
    · exact hs other

/-- At every point of a run every name leads exactly one life. -/
theorem reached_oneLife {o : Options} (h : Reached o s) (name : String) :
    (marks s name).OneLife := by
  obtain ⟨l, hl⟩ := h.keeps lives_stable lives_empty name
  rw [hl]
  exact l.oneLife

/-- Inside a branch, where a name has just been freed that is only allocated behind the branch. -/
theorem reached_oneLife_in_branch :
    let o : Options := { maxDepth := 4 }
    let s : State := ⟨[("p", { allocated := true, freed := true })]⟩
    Reached o s ∧ marks s "p" = Life.freed.marks ∧ (marks s "p").OneLife := by
  intro o s
  let alloc : Stmt := .decl "p" (.call "malloc" [.intLit 8])
  let branch : Stmt := .cond (.varRef "p") (.expr (.call "free" [.varRef "p"])) .absent
  have hp : Passes o.primitives (.stmts o.depth [alloc, branch]) .empty s :=
    .inside (.stmtOf [alloc] [] rfl) (.inside (.yes rfl) (.done rfl))
  exact ⟨.stmts _ hp, rfl, reached_oneLife (.stmts _ hp) "p"⟩

end MemLint.Check.Memory
