import MemLint.Proofs.Check.Lifecycle
import MemLint.Proofs.Check.UseAfterFree

/-! Defects of a name in the memory check. As long as a name is neither declared nor assigned to,
only two things change what is known of it: the release of an allocation that it holds, and taking
its address while it has no value. So a freed name is reported at each release of it, a null one at
each way through it, and one without a value at each read of it, and it stays what it is. -/

namespace MemLint

/-- One for an expression that reads the name: the name itself, an index into it or a release of
it. A dereference reads what its operand reads. -/
@[simp] def Expr.reads (p : Check.Primitives) (name : String) : Expr → Nat
  | .ident n | .varRef n | .index n _ => if n = name then 1 else 0
  | .call f args => if p.freedName? f args = some name then 1 else 0
  | _ => 0

/-- One for the address of the name. -/
@[simp] def Expr.addresses (name : String) : Expr → Nat
  | .addr n => if n = name then 1 else 0
  | _ => 0

namespace Check.Memory

variable {p : Primitives} {name : String} {m : Marks} {N : Finding → Bool} {a b r u f : Nat}

/-! ### Watching a name -/

/-- What is known of the name. -/
def Knows (name : String) (m : Marks) (s : State) : Prop := marks s name = m

theorem Knows.set {s : State} {n : String} (hs : Knows name m s) (hn : n ≠ name) (m' : Marks) :
    Knows name m (s.set n m') := by
  rw [Knows, marks_set, if_neg hn.symm]
  exact hs

theorem Knows.erase {s : State} {n : String} (hs : Knows name m s) (hn : n ≠ name) :
    Knows name m (s.erase n) := by
  rw [Knows, marks_erase, if_neg hn.symm]
  exact hs

/-- A read of the name is worth `r`, a way through it `u` and a release of it `f`. -/
@[simp] def worth (p : Primitives) (name : String) (r u f : Nat) (e : Expr) : Nat :=
  r * e.reads p name + u * e.goesThrough name + f * e.releases p name

/-- The address of the name disturbs by `a`, a release of it by `b`. -/
@[simp] def disturbance (p : Primitives) (name : String) (a b : Nat) (e : Expr) : Nat :=
  a * e.addresses name + b * e.releases p name

/-- While the marks are known of the name, `N` has `r` findings for a read of it, `u` more for a way
through it and `f` more for a release of it. What is known changes with its address unless `a` is
zero, and with a release unless `b` is zero. -/
structure Watch (p : Primitives) (name : String) (m : Marks) (N : Finding → Bool)
    (a b r u f : Nat) : Prop where
  notNull : p.isNull name = false
  read : ∀ n, (read n).Counts (Knows name m) N 0 (if n = name then r else 0)
  deref : ∀ n, (deref n).Counts (Knows name m) N 0 (if n = name then r + u else 0)
  free : ∀ n, (free n).Counts (Knows name m) N (if n = name then b else 0)
    (if n = name then f else 0)
  address : ∀ n, (Walk.update fun s => s.set n { marks s n with uninit := false }).Counts
    (Knows name m) N (if n = name then a else 0) 0
  leak : ∀ n, n ≠ name → N (.leak n) = false
  unsupported : ∀ kind, N (.unsupported kind) = false

namespace Watch

theorem allocate (w : Watch p name m N a b r u f) {n : String} (hn : n ≠ name) (value : Expr) :
    (allocate n value).Counts (Knows name m) N 0 0 := by
  refine Walk.counts_look fun s => Walk.Counts.andUpdate ?_ fun s hs => hs.set hn _
  split
  · exact Walk.counts_other (List.forall_mem_singleton.2 (w.leak n hn))
  · exact Walk.counts_skip

theorem bind (w : Watch p name m N a b r u f) {visit : Expr → Walk State Finding} {n : String}
    (hn : n ≠ name) {value : Expr}
    (hvisit : (visit value).Counts (Knows name m) N (value.total p (disturbance p name a b))
      (value.total p (worth p name r u f))) :
    (bind p visit n value).Counts (Knows name m) N (value.total p (disturbance p name a b))
      (value.total p (worth p name r u f)) := by
  unfold Memory.bind
  split
  · exact (hvisit.andThen (w.allocate hn value)).congr (Nat.add_zero _) (Nat.add_zero _)
  · split
    next hnull =>
      -- the null pointer is not visited, and it does not mention the name
      cases value with
      | ident k =>
        have hk : k ≠ name := by
          rintro rfl
          simp [Primitives.isNullExpr, w.notNull] at hnull
        refine (Walk.counts_update fun s hs => hs.set hn _).congr rfl ?_
        simp [Expr.total, hk]
      | _ => cases hnull
    · split
      · exact hvisit.andUpdate fun s hs => hs.erase hn
      · split
        · exact (hvisit.andThen Walk.counts_skip).congr (Nat.add_zero _) (Nat.add_zero _)
        · exact hvisit.andUpdate fun s hs => hs.set hn _

theorem expr (w : Watch p name m N a b r u f) (d : Nat) (e : Expr) (he : e.Every (.spares name)) :
    (expr p d e).Counts (Knows name m) N (e.total p (disturbance p name a b))
      (e.total p (worth p name r u f)) := by
  induction d generalizing e with
  | zero => exact Walk.counts_fail .tooDeep
  | succ d ih =>
    cases e with
    | absent => exact Walk.counts_fail .absentExpr
    | foreign kind =>
      refine (Walk.counts_other ?_).congr rfl (by simp [Expr.total])
      exact List.forall_mem_singleton.2 (w.unsupported kind)
    | intLit | stringLit => exact Walk.counts_skip.congr rfl (by simp [Expr.total])
    | ident n | varRef n => exact (w.read n).congr (by simp [Expr.total]) (by simp [Expr.total])
    | addr n => exact (w.address n).congr (by simp [Expr.total]) (by simp [Expr.total])
    | deref x =>
      cases x with
      | ident n | varRef n =>
        refine (w.deref n).congr (by simp [Expr.total]) ?_
        by_cases hn : n = name <;> simp [Expr.total, Expr.name?, hn, Nat.add_comm]
      | _ => exact (ih _ he.2).congr (by simp [Expr.total]) (by simp [Expr.total, Expr.name?])
    | index n i =>
      refine ((w.deref n).andThen (ih i he.2)).congr (by simp [Expr.total]) ?_
      by_cases hn : n = name <;> simp [Expr.total, hn]
    | arrayDecl n size =>
      have hn : n ≠ name := he.1
      exact ((ih size he.2).andUpdate fun s hs => hs.erase hn).congr (by simp [Expr.total])
        (by simp [Expr.total])
    | call g args =>
      rw [Memory.expr]
      split
      next n hn =>
        refine ((w.read n).andThen (w.free n)).congr (by simp [Expr.total, hn]) ?_
        by_cases h : n = name <;> simp [Expr.total, hn, h]
      next hn =>
        refine (Walk.counts_all fun e he' => ih e (he.args e he')).congr ?_ ?_
        · simp [Expr.total, hn, Expr.totalOf_eq]
        · simp [Expr.total, hn, Expr.totalOf_eq]
    | binary op left right =>
      exact ((ih left he.2.1).andThen (ih right he.2.2)).congr (by simp [Expr.total])
        (by simp [Expr.total])
    | assign target value =>
      obtain ⟨⟨hassignable, hname⟩, htarget, hvalue⟩ := he
      have hv := ih value hvalue
      cases target with
      | ident n | varRef n =>
        have hn : n ≠ name := fun hn => hname (congrArg some hn)
        exact (w.bind hn hv).congr (by simp [Expr.total, Expr.name?])
          (by simp [Expr.total, Expr.name?])
      | deref | index =>
        exact (hv.andThen (ih _ htarget)).congr (by simp [Expr.total, Expr.name?, Nat.add_comm])
          (by simp [Expr.total, Expr.name?, Nat.add_comm])
      | _ => cases hassignable

theorem pass (w : Watch p name m N a b r u f) : (pass p).Counts (Knows name m) N (.spares name) p
    (disturbance p name a b) (worth p name r u f) where
  expr := w.expr
  declare d n e hn he := by
    change (declare p d n e).Counts _ _ _ _
    by_cases hne : e = .absent
    · subst hne
      exact Walk.counts_update fun s hs => hs.set hn _
    · rw [declare_of_ne hne]
      exact w.bind hn (w.expr d e (he.resolve_left hne))
  unsupported := w.unsupported

end Watch

/-! ### What uses of a name are worth -/

/-- The finding is of the kind and about the name. -/
def about (kind : Diagnostic.Kind) (name : String) (x : Finding) : Bool :=
  x.diagnostic.kind = kind ∧ x.diagnostic.name = name

/-- One for a mark that makes a use of a name a finding of the kind. -/
def due (mark : Bool) (kind kind' : Diagnostic.Kind) : Nat :=
  if mark = true ∧ kind = kind' then 1 else 0

/-- A use that is reported if the name has a mark counts as such. -/
theorem counts_mark (mark : Marks → Bool) {x : String → Finding} {kind' : Diagnostic.Kind}
    (hx : ∀ n, (x n).diagnostic.kind = kind' ∧ (x n).diagnostic.name = n)
    (kind : Diagnostic.Kind) (n : String) :
    (Walk.look fun s => if mark (marks s n) then .note [x n] else .skip).Counts (Knows name m)
      (about kind name) 0 (if n = name then due (mark m) kind kind' else 0) := by
  intro s s' xs hs _ h
  have hm : marks s name = m := hs
  simp only [Walk.look] at h
  by_cases hn : n = name
  · subst hn
    rw [hm] at h
    split at h
    next hmark =>
      cases h
      exact ⟨hs, by simp [about, due, hx, hmark, eq_comm]⟩
    next hmark =>
      cases h
      exact ⟨hs, by simp [due, hmark]⟩
  · split at h <;> cases h <;> exact ⟨hs, by simp [about, hx, hn]⟩

theorem counts_read (kind : Diagnostic.Kind) (n : String) :
    (read n).Counts (Knows name m) (about kind name) 0
      (if n = name then due m.uninit kind .uninitializedAccess else 0) :=
  counts_mark Marks.uninit (x := .uninitialized) (fun _ => ⟨rfl, rfl⟩) kind n

theorem counts_deref (kind : Diagnostic.Kind) (n : String) :
    (deref n).Counts (Knows name m) (about kind name) 0
      (if n = name then
        due m.uninit kind .uninitializedAccess + due m.null kind .nullPointerDereference
      else 0) := by
  have hx (n : String) : (Finding.nullDereference n).diagnostic.kind = .nullPointerDereference ∧
    (Finding.nullDereference n).diagnostic.name = n := ⟨rfl, rfl⟩
  refine ((counts_read kind n).andThen (counts_mark Marks.null hx kind n)).congr rfl ?_
  split <;> rfl

/-- A release of a freed name is reported and changes nothing; only what is allocated is freed. -/
theorem counts_free (kind : Diagnostic.Kind) (n : String) :
    (free n).Counts (Knows name m) (about kind name)
      (if n = name then if m.allocated = true ∧ m.freed = false then 1 else 0 else 0)
      (if n = name then due m.freed kind .doubleFree else 0) := by
  intro s s' xs hs hb h
  have hm : marks s name = m := hs
  simp only [free, Walk.look] at h
  by_cases hn : n = name
  · subst hn
    rw [hm] at h
    split at h
    next hfreed =>
      cases h
      exact ⟨hs, by simp [about, due, Finding.diagnostic, hfreed, eq_comm]⟩
    next hfreed =>
      rw [if_neg (by simpa [hfreed] using hb)] at h
      cases h
      exact ⟨hs, by simp [due, hfreed]⟩
  · split at h
    · cases h
      exact ⟨hs, by simp [about, Finding.diagnostic, hn]⟩
    · split at h <;> cases h
      · exact ⟨hs.set hn _, by simp [hn]⟩
      · exact ⟨hs, by simp [hn]⟩

theorem counts_address (n : String) :
    (Walk.update fun s : State => s.set n { marks s n with uninit := false }).Counts (Knows name m)
      N (if n = name then if m.uninit = true then 1 else 0 else 0) 0 := by
  intro s s' xs hs ha h
  have hm : marks s name = m := hs
  cases h
  refine ⟨?_, rfl⟩
  by_cases hn : n = name
  · subst hn
    have huninit : m.uninit = false := by simpa using ha
    rw [Knows, marks_set, if_pos rfl, hm, ← huninit]
  · exact hs.set hn _

/-- What the check has against the use of a name that it does not bind. -/
def defects : List Diagnostic.Kind := [.doubleFree, .nullPointerDereference, .uninitializedAccess]

theorem watch (hname : p.isNull name = false) (m : Marks) {kind : Diagnostic.Kind}
    (hkind : kind ∈ defects) :
    Watch p name m (about kind name) (if m.uninit = true then 1 else 0)
      (if m.allocated = true ∧ m.freed = false then 1 else 0)
      (due m.uninit kind .uninitializedAccess) (due m.null kind .nullPointerDereference)
      (due m.freed kind .doubleFree) where
  notNull := hname
  read := counts_read kind
  deref := counts_deref kind
  free := counts_free kind
  address := counts_address
  leak n hn := by simp [about, Finding.diagnostic, hn]
  unsupported k := by
    refine decide_eq_false fun h => ?_
    rw [← h.1] at hkind
    simp [defects, Finding.diagnostic, Diagnostic.unsupportedNode] at hkind

theorem disturbance_none (p : Primitives) (name : String) :
    disturbance p name 0 0 = fun _ => 0 := by
  funext e
  simp only [disturbance, Nat.zero_mul]

theorem disturbance_addresses (p : Primitives) (name : String) :
    disturbance p name 1 0 = Expr.addresses name := by
  funext e
  rw [disturbance, Nat.one_mul, Nat.zero_mul, Nat.add_zero]

theorem worth_reads (p : Primitives) (name : String) : worth p name 1 0 0 = Expr.reads p name := by
  funext e
  simp only [worth, Nat.one_mul, Nat.zero_mul, Nat.add_zero]

theorem worth_goesThrough (p : Primitives) (name : String) :
    worth p name 0 1 0 = Expr.goesThrough name := by
  funext e
  simp only [worth, Nat.one_mul, Nat.zero_mul, Nat.add_zero, Nat.zero_add]

theorem worth_releases (p : Primitives) (name : String) :
    worth p name 0 0 1 = Expr.releases p name := by
  funext e
  simp only [worth, Nat.one_mul, Nat.zero_mul, Nat.zero_add]

/-! ### Names that stay what they are -/

section Persistence

/-- Each defect belongs to one life. -/
theorem Life.eq_of_defect {l : Life} :
    (l.marks.freed = true → l = .freed) ∧ (l.marks.null = true → l = .null) ∧
      (l.marks.uninit = true → l = .uninitialized) := by
  cases l <;> decide

variable {d : Nat} {s : Stmt} {st st' : State} {xs : List Finding}

/-- What is known of the name stays, and the findings of the kind about it are those that the uses
of it are worth. -/
theorem Watch.kept {kind : Diagnostic.Kind} (w : Watch p name m (about kind name) a b r u f)
    (hs : s.Every (.spares name)) (hrun : (Memory.pass p).stmt d s st = .ok (st', xs))
    (hst : marks st name = m) (hrest : s.total p (disturbance p name a b) = 0) :
    marks st' name = marks st name ∧
      tally kind name (xs.map Finding.diagnostic) = s.total p (worth p name r u f) := by
  obtain ⟨hst', hcount⟩ := w.pass.stmt d s hs st st' xs hst hrest hrun
  exact ⟨hst'.trans hst.symm, List.countP_map.trans hcount⟩

end Persistence

/-- Defects stay until the name is bound again. While a statement neither declares a name nor
assigns to it, a freed name is reported at each release, a null one at each way through it, and one
without a value at each read, as long as its address is not taken. -/
theorem defects_persist {o : Options} {name : String} (hname : o.primitives.isNull name = false)
    {st : State} (hst : Reached o st) {s : Stmt} (hs : s.Every (.spares name)) {d : Nat}
    {st' : State} {xs : List Finding} (hrun : (pass o.primitives).stmt d s st = .ok (st', xs)) :
    ((marks st name).freed = true → marks st' name = marks st name ∧
      tally .doubleFree name (xs.map Finding.diagnostic) =
        s.total o.primitives (Expr.releases o.primitives name)) ∧
    ((marks st name).null = true → marks st' name = marks st name ∧
      tally .nullPointerDereference name (xs.map Finding.diagnostic) =
        s.total o.primitives (Expr.goesThrough name)) ∧
    ((marks st name).uninit = true → s.total o.primitives (Expr.addresses name) = 0 →
      marks st' name = marks st name ∧
      tally .uninitializedAccess name (xs.map Finding.diagnostic) =
        s.total o.primitives (Expr.reads o.primitives name)) := by
  obtain ⟨l, hl⟩ := hst.keeps lives_stable lives_empty name
  obtain ⟨hisFreed, hisNull, hisUninit⟩ := Life.eq_of_defect (l := l)
  rw [← hl] at hisFreed hisNull hisUninit
  have hcalm : s.total o.primitives (disturbance o.primitives name 0 0) = 0 := by
    rw [disturbance_none, Stmt.total_zero]
  refine ⟨fun hfreed => ?_, fun hnull => ?_, fun huninit haddress => ?_⟩
  · obtain rfl := hisFreed hfreed
    have w : Watch o.primitives name Life.freed.marks (about .doubleFree name) 0 0 0 0 1 :=
      watch hname _ (by decide)
    rw [← worth_releases]
    exact w.kept hs hrun hl hcalm
  · obtain rfl := hisNull hnull
    have w : Watch o.primitives name Life.null.marks (about .nullPointerDereference name)
        0 0 0 1 0 := watch hname _ (by decide)
    rw [← worth_goesThrough o.primitives]
    exact w.kept hs hrun hl hcalm
  · obtain rfl := hisUninit huninit
    have w : Watch o.primitives name Life.uninitialized.marks (about .uninitializedAccess name)
        1 0 1 0 0 := watch hname _ (by decide)
    rw [← disturbance_addresses o.primitives] at haddress
    rw [← worth_reads]
    exact w.kept hs hrun hl haddress

/-- One name is freed, one holds null and one has no value. All of them are used in a branch, in the
test of a loop and as arguments. -/
theorem defects_persist_in_branches :
    let o : Options := {}
    let x : Expr := .varRef "x"
    let y : Expr := .varRef "y"
    let z : Expr := .ident "z"
    let s : Stmt := .block [
      .cond (.binary .lt z (.deref y)) (.expr (.call "free" [x, z])) .absent,
      .loop .absent (.index "y" z) .absent (.expr (.assign (.deref y) (.call "free" [z])))]
    let st : State := ⟨[("z", { uninit := true }), ("y", { null := true }),
      ("x", { allocated := true, freed := true })]⟩
    Reached o st ∧ s.Every (.spares "x") ∧ s.Every (.spares "y") ∧ s.Every (.spares "z") ∧
    ∃ xs, (pass o.primitives).stmt 5 s st = .ok (st, xs) ∧
      tally .doubleFree "x" (xs.map Finding.diagnostic) = 1 ∧
      tally .nullPointerDereference "y" (xs.map Finding.diagnostic) = 3 ∧
      tally .uninitializedAccess "z" (xs.map Finding.diagnostic) = 3 := by
  intro o x y z s st
  have hst : Reached o st := .stmts [.decl "x" (.call "malloc" [.intLit 8]),
    .expr (.call "free" [x]), .decl "y" (.ident "NULL"), .decl "z" .absent] (.done rfl)
  have hspares (name : String) : s.Every (.spares name) := by
    simp [s, x, y, z, Stmt.Every, Stmt.EveryOf, Expr.Every, Expr.EveryOf, Expr.EveryIf,
      NodeRule.spares, Expr.assignable, Expr.name?]
  have hrun : (pass o.primitives).stmt 5 s st = .ok (st, [.uninitialized "z",
    .nullDereference "y", .doubleFree "x", .nullDereference "y", .uninitialized "z",
    .uninitialized "z", .nullDereference "y"]) := rfl
  have hx := defects_persist (by decide) hst (hspares "x") hrun
  have hy := defects_persist (by decide) hst (hspares "y") hrun
  have hz := defects_persist (by decide) hst (hspares "z") hrun
  exact ⟨hst, hspares "x", hspares "y", hspares "z", _, hrun, (hx.1 rfl).2, (hy.2.1 rfl).2,
    (hz.2.2 rfl rfl).2⟩

end Check.Memory

end MemLint
