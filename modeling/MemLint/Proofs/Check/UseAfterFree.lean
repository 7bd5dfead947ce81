import MemLint.Proofs.Check.Clean
import MemLint.Proofs.Check.Composition
import MemLint.Proofs.Check.Counting
import MemLint.Proofs.Check.Subsumption

/-! Use after free in the pointer check. As long as a name is neither declared nor assigned to, a
dead name stays dead, and each way through it and each release of it is reported exactly once. A
live name stays live until it is released, and nothing is reported about it. So of the releases that
follow an allocation all but the first are reported. -/

namespace MemLint

/-- One for an expression that goes through the name: a dereference of it or an index into it. -/
@[simp] def Expr.goesThrough (name : String) : Expr → Nat
  | .deref x => if x.name? = some name then 1 else 0
  | .index n _ => if n = name then 1 else 0
  | _ => 0

/-- One for a call that releases the name. -/
@[simp] def Expr.releases (p : Check.Primitives) (name : String) : Expr → Nat
  | .call f args => if p.freedName? f args = some name then 1 else 0
  | _ => 0

namespace Check.Pointer

variable {c : Context} {name : String} {h : Hold} {N : Finding → Bool} {b u f : Nat}

/-! ### Watching a name -/

/-- What is held of the name. -/
def Holds (name : String) (h : Hold) (s : State) : Prop := s.get? name = some h

theorem Holds.set {s : State} {n : String} (hs : Holds name h s) (hn : n ≠ name) (h' : Hold) :
    Holds name h (s.set n h') := by
  rw [Holds, Table.get?_set, if_neg hn.symm]
  exact hs

theorem Holds.erase {s : State} {n : String} (hs : Holds name h s) (hn : n ≠ name) :
    Holds name h (s.erase n) := by
  rw [Holds, Table.get?_erase, if_neg hn.symm]
  exact hs

/-- A way through the name is worth `u`, a release of it is worth `f`. -/
@[simp] def worth (p : Primitives) (name : String) (u f : Nat) (e : Expr) : Nat :=
  u * e.goesThrough name + f * e.releases p name

/-- What the check can have against the use of a name. -/
def defects : List Diagnostic.Kind := [.nullPointerDereference, .doubleFree, .invalidFree]

/-- While `h` is held of the name, `N` has `u` findings for a way through it and `f` findings for a
release of it, which changes what is held unless `b` is zero. All of them are defects. -/
structure Watch (c : Context) (name : String) (h : Hold) (N : Finding → Bool) (b u f : Nat) :
    Prop where
  notNull : c.primitives.isNull name = false
  deref : ∀ n, (c.deref n).Counts (Holds name h) N 0 (if n = name then u else 0)
  free : ∀ n, (Context.free n).Counts (Holds name h) N (if n = name then b else 0)
    (if n = name then f else 0)
  other : ∀ x, x.diagnostic.kind ∉ defects → N x = false

theorem counts_bind {visit : Expr → Walk State Finding} {n : String} {value : Expr} {b m : Nat}
    (hn : n ≠ name) (hvisit : (visit value).Counts (Holds name h) N b m) :
    (c.bind visit n value).Counts (Holds name h) N b m :=
  hvisit.andUpdate fun _ hs => hs.set hn _

namespace Watch

theorem unsupported (w : Watch c name h N b u f) (kind : String) : N (.unsupported kind) = false :=
  w.other _ (by simp [Finding.diagnostic, Diagnostic.unsupportedNode, defects])

theorem checkCall (w : Watch c name h N b u f) (g : String) (args : List Expr) :
    (c.checkCall g args).Counts (Holds name h) N 0 0 := by
  refine Walk.counts_look fun s => ?_
  split
  · exact Walk.counts_skip
  · split
    · refine Walk.counts_other fun x hx => ?_
      obtain ⟨⟨⟨wanted, arg⟩, i⟩, -, hx⟩ := List.mem_filterMap.1 hx
      dsimp only at hx
      split at hx
      · cases hx
        exact w.other _ (by simp [Finding.diagnostic, defects])
      · cases hx
    · exact Walk.counts_other (by simp [w.other, Finding.diagnostic, defects])

theorem call (w : Watch c name h N b u f) {visit : Expr → Walk State Finding} {args : List Expr}
    (hargs : ∀ a ∈ args, (visit a).Counts (Holds name h) N
      (a.total c.primitives (worth c.primitives name 0 b))
      (a.total c.primitives (worth c.primitives name u f))) (g : String) :
    (c.call visit g args).Counts (Holds name h) N
      ((Expr.call g args).total c.primitives (worth c.primitives name 0 b))
      ((Expr.call g args).total c.primitives (worth c.primitives name u f)) := by
  unfold Context.call
  split
  next n hn =>
    split
    next hnull =>
      have hne : n ≠ name := by
        rintro rfl
        simp [w.notNull] at hnull
      exact Walk.counts_skip.congr rfl (by simp [Expr.total, hn, hne])
    · exact (w.free n).congr (by simp [Expr.total, hn]) (by simp [Expr.total, hn])
  next hn =>
    refine ((Walk.counts_all hargs).andThen (w.checkCall g args)).congr ?_ ?_
    · simp [Expr.total, hn, Expr.totalOf_eq]
    · simp [Expr.total, hn, Expr.totalOf_eq]

theorem expr (w : Watch c name h N b u f) (d : Nat) (e : Expr) (he : e.Every (.spares name)) :
    (c.expr d e).Counts (Holds name h) N (e.total c.primitives (worth c.primitives name 0 b))
      (e.total c.primitives (worth c.primitives name u f)) := by
  induction d generalizing e with
  | zero => exact Walk.counts_fail .tooDeep
  | succ d ih =>
    cases e with
    | absent => exact Walk.counts_fail .absentExpr
    | foreign kind =>
      refine (Walk.counts_other ?_).congr rfl (by simp [Expr.total])
      exact List.forall_mem_singleton.2 (w.unsupported kind)
    | ident | varRef | addr | intLit | stringLit =>
      exact Walk.counts_skip.congr rfl (by simp [Expr.total])
    | call g args => exact w.call (fun a ha => ih a (he.args a ha)) g
    | deref x =>
      cases x with
      | ident n | varRef n =>
        exact (w.deref n).congr (by simp [Expr.total]) (by simp [Expr.total, Expr.name?])
      | _ => exact (ih _ he.2).congr (by simp [Expr.total]) (by simp [Expr.total, Expr.name?])
    | binary op left right =>
      exact ((ih left he.2.1).andThen (ih right he.2.2)).congr (by simp [Expr.total])
        (by simp [Expr.total])
    | index n i =>
      exact ((ih i he.2).andThen (w.deref n)).congr (by simp [Expr.total])
        (by simp [Expr.total, Nat.add_comm])
    | arrayDecl n size =>
      have hn : n ≠ name := he.1
      exact ((ih size he.2).andUpdate fun _ hs => hs.set hn _).congr (by simp [Expr.total])
        (by simp [Expr.total])
    | assign target value =>
      obtain ⟨⟨hassignable, hname⟩, htarget, hvalue⟩ := he
      have hv := ih value hvalue
      cases target with
      | ident n | varRef n =>
        have hn : n ≠ name := fun hn => hname (congrArg some hn)
        exact (counts_bind hn hv).congr (by simp [Expr.total, Expr.name?])
          (by simp [Expr.total, Expr.name?])
      | deref | index =>
        exact (hv.andThen (ih _ htarget)).congr (by simp [Expr.total, Expr.name?, Nat.add_comm])
          (by simp [Expr.total, Expr.name?, Nat.add_comm])
      | _ => cases hassignable

theorem pass (w : Watch c name h N b u f) : c.pass.Counts (Holds name h) N (.spares name)
    c.primitives (worth c.primitives name 0 b) (worth c.primitives name u f) where
  expr := w.expr
  declare d n e hn he := by
    change (c.declare d n e).Counts _ _ _ _
    rcases he with rfl | he
    · exact Walk.counts_update fun _ hs => hs.erase hn
    · by_cases hne : e = .absent
      · subst hne
        exact Walk.counts_update fun _ hs => hs.erase hn
      · rw [c.declare_of_ne hne]
        exact counts_bind hn (w.expr d e he)
  unsupported := w.unsupported

end Watch

/-! ### Dead and live names -/

/-- The finding is of the kind and about the name. -/
def about (kind : Diagnostic.Kind) (name : String) (x : Finding) : Bool :=
  x.diagnostic.kind = kind ∧ x.diagnostic.name = name

theorem tally_eq_countP (kind : Diagnostic.Kind) (name : String) (xs : List Finding) :
    tally kind name (xs.map Finding.diagnostic) = xs.countP (about kind name) := List.countP_map ..

theorem isLive_of_holds {s : State} (hname : c.primitives.isNull name = false)
    (hs : Holds name h s) : c.isLive s name = (h == .live) := by
  rw [Context.isLive, hs, hname]
  cases h <;> rfl

theorem counts_deref (hname : c.primitives.isNull name = false) (kind : Diagnostic.Kind)
    (n : String) : (c.deref n).Counts (Holds name h) (about kind name) 0
      (if n = name then if h = .dead ∧ kind = .nullPointerDereference then 1 else 0 else 0) := by
  intro s s' xs hs _ hw
  have hlive := isLive_of_holds hname hs
  simp only [Context.deref, Walk.look] at hw
  by_cases hn : n = name
  · subst hn
    rw [hlive] at hw
    cases h with
    | live =>
      cases hw
      exact ⟨hs, by simp⟩
    | dead =>
      cases hw
      refine ⟨hs, ?_⟩
      simp [about, Finding.diagnostic, eq_comm]
  · split at hw <;> cases hw <;> refine ⟨hs, ?_⟩ <;> simp [about, Finding.diagnostic, hn]

theorem counts_free (kind : Diagnostic.Kind) (n : String) :
    (Context.free n).Counts (Holds name h) (about kind name)
      (if n = name then if h = .live then 1 else 0 else 0)
      (if n = name then if h = .dead ∧ kind = .doubleFree then 1 else 0 else 0) := by
  intro s s' xs hs hb hw
  simp only [Context.free, Walk.look] at hw
  by_cases hn : n = name
  · subst hn
    rw [show s.get? n = some h from hs] at hw
    cases h with
    | live => simp at hb
    | dead =>
      cases hw
      refine ⟨hs, ?_⟩
      simp [about, Finding.diagnostic, eq_comm]
  · cases hget : s.get? n with
    | none =>
      rw [hget] at hw
      cases hw
      exact ⟨hs, by simp [about, Finding.diagnostic, hn]⟩
    | some h' =>
      rw [hget] at hw
      cases h' with
      | dead =>
        cases hw
        exact ⟨hs, by simp [about, Finding.diagnostic, hn]⟩
      | live =>
        cases hw
        exact ⟨hs.set hn .dead, by simp [hn]⟩

theorem watch (hname : c.primitives.isNull name = false) (h : Hold) {kind : Diagnostic.Kind}
    (hkind : kind ∈ defects) :
    Watch c name h (about kind name) (if h = .live then 1 else 0)
      (if h = .dead ∧ kind = .nullPointerDereference then 1 else 0)
      (if h = .dead ∧ kind = .doubleFree then 1 else 0) where
  notNull := hname
  deref := counts_deref hname kind
  free := counts_free kind
  other x hx := by
    refine decide_eq_false fun hk => hx ?_
    rw [hk.1]
    exact hkind

theorem worth_none (p : Primitives) (name : String) : worth p name 0 0 = fun _ => 0 := by
  funext e
  simp only [worth, Nat.zero_mul]

theorem worth_goesThrough (p : Primitives) (name : String) :
    worth p name 1 0 = Expr.goesThrough name := by
  funext e
  rw [worth, Nat.one_mul, Nat.zero_mul, Nat.add_zero]

theorem worth_releases (p : Primitives) (name : String) :
    worth p name 0 1 = Expr.releases p name := by
  funext e
  rw [worth, Nat.one_mul, Nat.zero_mul, Nat.zero_add]

/-- Of a dead name the check reports each way through it and each release of it. -/
theorem counts_dead (hname : c.primitives.isNull name = false) (d : Nat) {s : Stmt}
    (hs : s.Every (.spares name)) {kind : Diagnostic.Kind} (hkind : kind ∈ defects) :
    (c.pass.stmt d s).Counts (Holds name .dead) (about kind name) 0
      (s.total c.primitives (worth c.primitives name
        (if kind = .nullPointerDereference then 1 else 0)
        (if kind = .doubleFree then 1 else 0))) := by
  have h := (watch hname .dead hkind).pass.stmt d s hs
  simp only [reduceCtorEq, if_false, true_and] at h
  exact h.congr (by rw [worth_none, Stmt.total_zero]) rfl

/-- Of a live name the check reports nothing as long as it is not released. -/
theorem counts_live (hname : c.primitives.isNull name = false) (d : Nat) {s : Stmt}
    (hs : s.Every (.spares name)) {kind : Diagnostic.Kind} (hkind : kind ∈ defects) :
    (c.pass.stmt d s).Counts (Holds name .live) (about kind name)
      (s.total c.primitives (Expr.releases c.primitives name)) 0 := by
  have h := (watch hname .live hkind).pass.stmt d s hs
  simp only [reduceCtorEq, if_true, if_false, false_and] at h
  exact h.congr (by rw [worth_releases]) (by rw [worth_none, Stmt.total_zero])

/-! ### Repeated releases -/

/-- The statement is a call that releases the name. -/
def Releases (p : Primitives) (name : String) (s : Stmt) : Prop :=
  ∃ f args, s = .expr (.call f args) ∧ p.freedName? f args = some name

theorem stmt_of_releases (hname : c.primitives.isNull name = false) {r : Stmt}
    (hr : Releases c.primitives name r) (d : Nat) :
    c.pass.stmt (d + 2) r = Context.free name := by
  obtain ⟨f, args, rfl, hf⟩ := hr
  change c.call (c.expr d) f args = _
  simp [Context.call, hf, hname]

theorem free_dead {s : State} (hs : Holds name .dead s) :
    Context.free name s = .ok (s, [.doubleFree name]) := by
  rw [Context.free, Walk.look, show s.get? name = some .dead from hs]
  rfl

theorem free_live {s : State} (hs : Holds name .live s) :
    Context.free name s = .ok (s.set name .dead, []) := by
  rw [Context.free, Walk.look, show s.get? name = some .live from hs]
  rfl

theorem all_free_dead {s : State} (hs : Holds name .dead s) (k : Nat) :
    Walk.all (List.replicate k (Context.free name)) s =
      .ok (s, List.replicate k (.doubleFree name)) := by
  induction k with
  | zero => rfl
  | succ k ih =>
    rw [List.replicate_succ, Walk.all_cons]
    exact Walk.andThen_eq_ok.2 ⟨s, _, _, free_dead hs, ih, rfl⟩

/-- The first release of a live name is fine, all others are not. -/
theorem all_free_live {s : State} (hs : Holds name .live s) (k : Nat) :
    Walk.all (List.replicate (k + 1) (Context.free name)) s =
      .ok (s.set name .dead, List.replicate k (.doubleFree name)) := by
  have hdead : Holds name .dead (s.set name .dead) := by simp [Holds]
  rw [List.replicate_succ, Walk.all_cons]
  exact Walk.andThen_eq_ok.2 ⟨_, [], _, free_live hs, all_free_dead hdead k, rfl⟩

theorem map_stmt_of_releases (hname : c.primitives.isNull name = false) {rs : List Stmt}
    (hrs : ∀ r ∈ rs, Releases c.primitives name r) (d : Nat) :
    rs.map (c.pass.stmt (d + 2)) = List.replicate rs.length (Context.free name) :=
  List.map_eq_replicate_iff.2 fun r hr => stmt_of_releases hname (hrs r hr) d

/-- A name that is bound to an allocation is live. -/
theorem holds_of_bind {a : String} (ha : c.primitives.isAlloc a = true) {args : List Expr} {d : Nat}
    {s s' : State} {xs : List Finding}
    (h : c.bind (c.expr d) name (.call a args) s = .ok (s', xs)) : Holds name .live s' := by
  obtain ⟨s₁, ys, zs, -, hset, -⟩ := Walk.andThen_eq_ok.1 h
  cases hset
  simp [Holds, Context.produces, Context.givesPointer, ha]

theorem declare_allocation {a : String} (ha : c.primitives.isAlloc a = true)
    (hsig : c.signatures.get? a = none) (d : Nat) (s : State) :
    c.declare (d + 1) name (.call a []) s = .ok (s.set name .live, []) := by
  have hfreed : c.primitives.freedName? a [] = none := by simp [Primitives.freedName?]
  have hcall : c.call (c.expr d) a [] s = .ok (s, []) := by
    simp only [Context.call, hfreed, List.map_nil, Walk.all_nil, Walk.skip_andThen]
    rw [Context.checkCall, Walk.look, hsig]
    rfl
  change c.bind (c.expr (d + 1)) name (.call a []) s = _
  refine Walk.andThen_eq_ok.2 ⟨s, [], [], hcall, ?_, rfl⟩
  simp [Walk.update, Context.produces, Context.givesPointer, ha]

theorem decls_released (hname : c.primitives.isNull name = false) {a : String}
    (ha : c.primitives.isAlloc a = true) (hsig : c.signatures.get? a = none) {r : Stmt}
    {rs : List Stmt} (hrs : ∀ r' ∈ r :: rs, Releases c.primitives name r') (d : Nat) (s : State) :
    c.pass.decls (d + 2) (.var name (.call a []) :: (r :: rs).map Decl.stmt) s =
      .ok ((s.set name .live).set name .dead, List.replicate rs.length (.doubleFree name)) := by
  have hlive : Holds name .live (s.set name .live) := by simp [Holds]
  have hrest : c.pass.decls (d + 2) ((r :: rs).map Decl.stmt) =
      Walk.all (List.replicate (r :: rs).length (Context.free name)) := by
    rw [Pass.decls, List.map_map]
    exact congrArg Walk.all (map_stmt_of_releases hname hrs d)
  rw [Pass.decls_cons, hrest]
  exact Walk.andThen_eq_ok.2
    ⟨_, [], _, declare_allocation ha hsig (d + 1) s, all_free_live hlive rs.length, rfl⟩

/-! ### Uses after a release -/

/-- What the check makes of a name: while it is neither declared nor assigned to, and when it is
declared from an allocation and then released again and again. -/
structure Tracked (c : Context) (name : String) : Prop where
  dead : ∀ {d s st st' xs}, s.Every (.spares name) → c.pass.stmt d s st = .ok (st', xs) →
    st.get? name = some .dead →
      st'.get? name = some .dead ∧
      tally .nullPointerDereference name (xs.map Finding.diagnostic) =
        s.total c.primitives (Expr.goesThrough name) ∧
      tally .doubleFree name (xs.map Finding.diagnostic) =
        s.total c.primitives (Expr.releases c.primitives name) ∧
      tally .invalidFree name (xs.map Finding.diagnostic) = 0
  live : ∀ {d s st st' xs}, s.Every (.spares name) → c.pass.stmt d s st = .ok (st', xs) →
    st.get? name = some .live → s.total c.primitives (Expr.releases c.primitives name) = 0 →
      st'.get? name = some .live ∧
      ∀ kind ∈ defects, tally kind name (xs.map Finding.diagnostic) = 0
  released : ∀ {d a args r rs st st' xs}, c.primitives.isAlloc a = true →
    (∀ r' ∈ r :: rs, Releases c.primitives name r') →
    c.pass.stmt d (.decl name (.call a args)) st = .ok (st', xs) →
      c.pass.stmts d (.decl name (.call a args) :: r :: rs) st =
        .ok (st'.set name .dead, xs ++ List.replicate rs.length (.doubleFree name))

theorem tracked (hname : c.primitives.isNull name = false) : Tracked c name where
  dead {d s st st' xs} hs hrun hst := by
    have hcounts (kind : Diagnostic.Kind) (hkind : kind ∈ defects) :=
      counts_dead hname d hs hkind st st' xs hst rfl hrun
    simp only [tally_eq_countP]
    refine ⟨(hcounts .doubleFree (by decide)).1, ?_, ?_, ?_⟩
    · rw [(hcounts .nullPointerDereference (by decide)).2]
      simp only [reduceCtorEq, if_true, if_false, worth_goesThrough]
    · rw [(hcounts .doubleFree (by decide)).2]
      simp only [reduceCtorEq, if_true, if_false, worth_releases]
    · rw [(hcounts .invalidFree (by decide)).2]
      simp only [reduceCtorEq, if_false, worth_none, Stmt.total_zero]
  live {d s st st' xs} hs hrun hst hfree := by
    have hcounts (kind : Diagnostic.Kind) (hkind : kind ∈ defects) :=
      counts_live hname d hs hkind st st' xs hst hfree hrun
    refine ⟨(hcounts .doubleFree (by decide)).1, fun kind hkind => ?_⟩
    rw [tally_eq_countP]
    exact (hcounts kind hkind).2
  released {d a args r rs st st' xs} ha hrs hdecl := by
    -- a declaration that gets through leaves two levels
    match d, hdecl with
    | d + 2, hdecl =>
      rw [Pass.stmts, List.map_cons, Walk.all_cons, map_stmt_of_releases hname hrs d]
      have hlive : Holds name .live st' := holds_of_bind ha hdecl
      exact Walk.andThen_eq_ok.2 ⟨st', xs, _, hdecl, all_free_live hlive rs.length, rfl⟩

/-- Use after free is counted exactly and live names raise no alarm. A file that allocates once and
releases again and again is told of every release but the first. -/
theorem use_after_free_counted {p : Primitives} {name : String} (hname : p.isNull name = false) :
    (∀ sigs, Tracked ⟨p, sigs⟩ name) ∧
    ∀ (maxDepth : Int) (a : String) (r : Stmt) (rs : List Stmt),
      2 ≤ (Options.mk p maxDepth).depth → p.isAlloc a = true →
      (∀ r' ∈ r :: rs, Releases p name r') →
      analyze ⟨p, maxDepth⟩ (.decl name (.call a []) :: r :: rs) =
        .ok (List.replicate rs.length (Finding.doubleFree name).diagnostic) := by
  refine ⟨fun sigs => tracked hname, fun maxDepth a r rs hdepth ha hrs => ?_⟩
  obtain ⟨d, hd⟩ := Nat.exists_eq_add_of_le' hdepth
  have hofStmt (r' : Stmt) (hr' : r' ∈ r :: rs) : Decl.ofStmt r' = .stmt r' := by
    obtain ⟨f, args, rfl, -⟩ := hrs r' hr'
    rfl
  have hdecls : (Stmt.decl name (.call a []) :: r :: rs).map Decl.ofStmt =
      .var name (.call a []) :: (r :: rs).map Decl.stmt := by
    rw [List.map_cons, List.map_congr_left hofStmt]
    rfl
  have hsigs : signatures (.var name (.call a []) :: (r :: rs).map Decl.stmt) = .empty :=
    signatures_append_of_no_func [] (by simp [Decl.funcName?])
  rw [analyze, hdecls, analyzeFile, hsigs, hd]
  refine report_eq_ok.2 ⟨_, _, decls_released hname ha rfl hrs d .empty, ?_⟩
  rw [List.map_replicate]

/-- A dead name is written through, released and used in the test of a loop, each in a place of its
own; and three releases in a row. -/
theorem use_after_free_counted_in_branches :
    let c : Context := ⟨.default, .empty⟩
    let x : Expr := .varRef "x"
    let release : Stmt := .expr (.call "free" [x, .deref x])
    let s : Stmt := .block [.expr (.assign (.deref x) (.intLit 1)),
      .cond (.ident "y") release .absent,
      .loop .absent (.index "x" (.intLit 0)) .absent (.block [])]
    let st : State := Table.empty.set "x" .dead
    s.Every (.spares "x") ∧
    (∃ st' xs, c.pass.stmt 4 s st = .ok (st', xs) ∧ st'.get? "x" = some .dead ∧
      tally .nullPointerDereference "x" (xs.map Finding.diagnostic) = 2 ∧
      tally .doubleFree "x" (xs.map Finding.diagnostic) = 1) ∧
    analyze {} (.decl "x" (.call "new" []) :: [release, release, release]) =
      .ok (List.replicate 2 (Finding.doubleFree "x").diagnostic) := by
  intro c x release s st
  have hname : Primitives.default.isNull "x" = false := by decide
  obtain ⟨htracked, hrepeated⟩ := use_after_free_counted hname
  have hs : s.Every (.spares "x") := by
    simp [s, release, x, Stmt.Every, Stmt.EveryOf, Expr.Every, Expr.EveryOf, Expr.EveryIf,
      NodeRule.spares, Expr.assignable, Expr.name?]
  have hrun : c.pass.stmt 4 s st =
      .ok (st, [.nullDereference "x", .doubleFree "x", .nullDereference "x"]) := rfl
  have hdead := (htracked .empty).dead hs hrun rfl
  have hreleases : Releases .default "x" release := ⟨"free", [x, .deref x], rfl, rfl⟩
  refine ⟨hs, ⟨st, _, hrun, hdead.1, hdead.2.1, hdead.2.2.1⟩, ?_⟩
  exact hrepeated 0 "new" release [release, release] (by decide) (by decide) (by simp [hreleases])

end Check.Pointer

end MemLint
