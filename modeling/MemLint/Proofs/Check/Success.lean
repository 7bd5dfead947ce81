import MemLint.Proofs.Check.Clean
import MemLint.Proofs.Check.Simulation

/-! When a check gets through a file. The bounds check visits every node, so it succeeds exactly if
no node is missing and none lies deeper than the limit, whatever the state. The pointer check visits
some of these nodes, and the memory check some of the nodes that the pointer check visits. -/

namespace MemLint

/-- The node is there. -/
def NodeRule.present : NodeRule where
  expr e := e ≠ .absent
  stmt s := s ≠ .absent
  decl d := d ≠ .absent

/-- Nothing is asked. -/
def NodeRule.any : NodeRule where
  expr _ := True

/-! ### Trees within a depth -/

namespace Expr

/-- No expression is missing, and none lies deeper than `d`. -/
def Within (e : Expr) (d : Nat) : Prop := e.Every .present ∧ e.height ≤ d

/-- The same for an expression that may be absent. -/
def WithinIf (e : Expr) (d : Nat) : Prop := e = absent ∨ e.Within d

/-- The expressions right below an expression. -/
def children : Expr → List Expr
  | call _ args => args
  | deref x => [x]
  | binary _ left right => [left, right]
  | assign target value => [target, value]
  | index _ i => [i]
  | arrayDecl _ size => [size]
  | _ => []

theorem every_present {e : Expr} (he : e ≠ absent) :
    e.Every .present ↔ ∀ x ∈ e.children, x.Every .present := by
  cases e with
  | absent => exact (he rfl).elim
  | call f args => exact (and_iff_right he).trans everyOf_iff
  | deref x | index name x | arrayDecl name x | binary op x y | assign x y =>
    exact (and_iff_right he).trans (by simp [children])
  | _ => exact ⟨fun _ _ hx => (List.not_mem_nil hx).elim, fun _ => he⟩

theorem height_le {e : Expr} {d : Nat} (he : e ≠ absent) :
    e.height ≤ d + 1 ↔ ∀ x ∈ e.children, x.height ≤ d := by
  cases e with
  | absent => exact (he rfl).elim
  | call f args => exact Nat.succ_le_succ_iff.trans heightOf_le_iff
  | deref x | index name x | arrayDecl name x =>
    exact Nat.succ_le_succ_iff.trans (by simp [children])
  | binary op x y | assign x y =>
    exact (Nat.succ_le_succ_iff.trans Nat.max_le).trans (by simp [children])
  | _ =>
    exact ⟨fun _ _ hx => (List.not_mem_nil hx).elim, fun _ => Nat.succ_le_succ (Nat.zero_le d)⟩

theorem within_succ {e : Expr} {d : Nat} (he : e ≠ absent) :
    e.Within (d + 1) ↔ ∀ x ∈ e.children, x.Within d := by
  rw [Within, every_present he, height_le he]
  exact ⟨fun h x hx => ⟨h.1 x hx, h.2 x hx⟩, fun h => ⟨fun x hx => (h x hx).1, fun x hx => (h x hx).2⟩⟩

theorem not_within_absent {d : Nat} : ¬ absent.Within d := fun h => h.1 rfl

theorem not_within_zero {e : Expr} : ¬ e.Within 0 := by
  rintro ⟨hp, hh⟩
  have he : e ≠ absent := hp.here
  cases e <;> simp_all [height]

theorem withinIf_iff {e : Expr} {d : Nat} : e.WithinIf d ↔ e.EveryIf .present ∧ e.height ≤ d := by
  have habsent : e = absent → e.height ≤ d := by
    rintro rfl
    exact Nat.zero_le d
  exact or_and_left.trans (and_congr_right' (or_iff_right_of_imp habsent))

theorem every_any (e : Expr) : e.Every .any := by
  induction e using Expr.induct with
  | call f args ih => exact ⟨trivial, everyOf_iff.2 ih⟩
  | deref x ih | index name x ih | arrayDecl name x ih => exact ⟨trivial, ih⟩
  | binary op x y hx hy | assign x y hx hy => exact ⟨trivial, hx, hy⟩
  | _ => exact trivial

end Expr

namespace Stmt

/-- No node is missing, and none lies deeper than `d`. -/
def Within (s : Stmt) (d : Nat) : Prop := s.Every .present ∧ s.height ≤ d

/-- The same for a statement that may be absent. -/
def WithinIf (s : Stmt) (d : Nat) : Prop := s = absent ∨ s.Within d

theorem withinIf_iff {s : Stmt} {d : Nat} :
    s.WithinIf d ↔ (s = absent ∨ s.Every .present) ∧ s.height ≤ d := by
  have habsent : s = absent → s.height ≤ d := by
    rintro rfl
    exact Nat.zero_le d
  exact or_and_left.trans (and_congr_right' (or_iff_right_of_imp habsent))

theorem not_within_absent {d : Nat} : ¬ absent.Within d := fun h => h.1 rfl

theorem not_within_zero {s : Stmt} : ¬ s.Within 0 := by
  rintro ⟨hp, hh⟩
  cases s with
  | absent => exact hp rfl
  | _ => exact Nat.not_succ_le_zero _ hh

theorem within_block {ss : List Stmt} {d : Nat} :
    (block ss).Within (d + 1) ↔ ∀ s ∈ ss, s.Within d := by
  constructor
  · rintro ⟨⟨-, hp⟩, hh⟩ s hs
    exact ⟨everyOf_iff.1 hp s hs, heightOf_le_iff.1 (Nat.le_of_succ_le_succ hh) s hs⟩
  · intro h
    refine ⟨⟨nofun, everyOf_iff.2 fun s hs => (h s hs).1⟩, ?_⟩
    exact Nat.succ_le_succ (heightOf_le_iff.2 fun s hs => (h s hs).2)

theorem within_expr {x : Expr} {d : Nat} : (expr x).Within (d + 1) ↔ x.Within d :=
  and_congr (and_iff_right nofun) Nat.succ_le_succ_iff

theorem within_decl {name : String} {init : Expr} {d : Nat} :
    (decl name init).Within (d + 1) ↔ init.WithinIf d :=
  (and_congr (and_iff_right nofun) Nat.succ_le_succ_iff).trans Expr.withinIf_iff.symm

theorem within_ret {x : Expr} {d : Nat} : (ret x).Within (d + 1) ↔ x.WithinIf d :=
  (and_congr (and_iff_right nofun) Nat.succ_le_succ_iff).trans Expr.withinIf_iff.symm

theorem within_cond {test : Expr} {yes no : Stmt} {d : Nat} :
    (cond test yes no).Within (d + 1) ↔ test.Within d ∧ yes.Within d ∧ no.WithinIf d := by
  rw [withinIf_iff]
  constructor
  · rintro ⟨⟨-, htest, hyes, hno⟩, hh⟩
    simp only [height, Nat.succ_le_succ_iff, Nat.max_le] at hh
    exact ⟨⟨htest, hh.1⟩, ⟨hyes, hh.2.1⟩, hno, hh.2.2⟩
  · rintro ⟨⟨htest, h₁⟩, ⟨hyes, h₂⟩, hno, h₃⟩
    refine ⟨⟨nofun, htest, hyes, hno⟩, ?_⟩
    simp only [height, Nat.succ_le_succ_iff, Nat.max_le]
    exact ⟨h₁, h₂, h₃⟩

theorem within_loop {init body : Stmt} {test post : Expr} {d : Nat} :
    (loop init test post body).Within (d + 1) ↔
      init.WithinIf d ∧ test.WithinIf d ∧ body.Within d ∧ post.WithinIf d := by
  rw [withinIf_iff, Expr.withinIf_iff, Expr.withinIf_iff]
  constructor
  · rintro ⟨⟨-, hinit, htest, hpost, hbody⟩, hh⟩
    simp only [height, Nat.succ_le_succ_iff, Nat.max_le] at hh
    exact ⟨⟨hinit, hh.1.1⟩, ⟨htest, hh.1.2⟩, ⟨hbody, hh.2.2⟩, hpost, hh.2.1⟩
  · rintro ⟨⟨hinit, h₁⟩, ⟨htest, h₂⟩, ⟨hbody, h₃⟩, hpost, h₄⟩
    refine ⟨⟨nofun, hinit, htest, hpost, hbody⟩, ?_⟩
    simp only [height, Nat.succ_le_succ_iff, Nat.max_le]
    exact ⟨⟨h₁, h₂⟩, h₄, h₃⟩

mutual

theorem every_any : (s : Stmt) → s.Every .any
  | absent | foreign _ | jump _ => trivial
  | block ss => ⟨trivial, everyOf_any ss⟩
  | expr x => ⟨trivial, x.every_any⟩
  | decl _ init => ⟨trivial, .inr init.every_any⟩
  | cond test yes no => ⟨trivial, test.every_any, every_any yes, .inr (every_any no)⟩
  | loop init test post body =>
    ⟨trivial, .inr (every_any init), .inr test.every_any, .inr post.every_any, every_any body⟩
  | ret x => ⟨trivial, .inr x.every_any⟩

theorem everyOf_any : (ss : List Stmt) → EveryOf .any ss
  | [] => trivial
  | s :: ss => ⟨every_any s, everyOf_any ss⟩

end

end Stmt

theorem Decl.every_any (d : Decl) : d.Every .any := by
  cases d with
  | func name params ret body => exact ⟨trivial, .inr body.every_any⟩
  | var name init => exact ⟨trivial, .inr init.every_any⟩
  | stmt s => exact ⟨trivial, s.every_any⟩
  | _ => exact trivial

/-- No node of the declaration is missing, and none lies deeper than `d`. -/
def Decl.Within (dl : Decl) (d : Nat) : Prop := dl.Every .present ∧ dl.height ≤ d

namespace Check

variable {σ τ φ ψ : Type}

/-! ### Walks that succeed from every state or from none -/

namespace Walk

/-- The walk succeeds from every state if `P` holds, and from none otherwise. -/
def SucceedsIff (P : Prop) (w : Walk σ φ) : Prop := ∀ s, (∃ r, w s = .ok r) ↔ P

variable {P Q : Prop} {v w : Walk σ φ}

theorem SucceedsIff.congr (h : w.SucceedsIff P) (hPQ : P ↔ Q) : w.SucceedsIff Q :=
  fun s => (h s).trans hPQ

theorem succeedsIff_fail (f : Fault) : (fail f : Walk σ φ).SucceedsIff False :=
  fun _ => ⟨nofun, nofun⟩

theorem succeedsIff_update (f : σ → σ) : (update f : Walk σ φ).SucceedsIff True :=
  fun _ => ⟨fun _ => trivial, fun _ => ⟨_, rfl⟩⟩

theorem succeedsIff_skip : (skip : Walk σ φ).SucceedsIff True := succeedsIff_update id

theorem succeedsIff_note (xs : List φ) : (note xs : Walk σ φ).SucceedsIff True :=
  fun _ => ⟨fun _ => trivial, fun _ => ⟨_, rfl⟩⟩

theorem succeedsIff_look {w : σ → Walk σ φ} (h : ∀ s, (w s).SucceedsIff P) :
    (look w).SucceedsIff P := fun s => h s s

theorem SucceedsIff.andThen (hv : v.SucceedsIff P) (hw : w.SucceedsIff Q) :
    (v.andThen w).SucceedsIff (P ∧ Q) := by
  intro s
  constructor
  · rintro ⟨⟨s'', zs⟩, h⟩
    obtain ⟨s', xs, ys, hv', hw', -⟩ := andThen_eq_ok.1 h
    exact ⟨(hv s).1 ⟨_, hv'⟩, (hw s').1 ⟨_, hw'⟩⟩
  · rintro ⟨hP, hQ⟩
    obtain ⟨⟨s', xs⟩, hv'⟩ := (hv s).2 hP
    obtain ⟨⟨s'', ys⟩, hw'⟩ := (hw s').2 hQ
    exact ⟨_, andThen_eq_ok.2 ⟨s', xs, ys, hv', hw', rfl⟩⟩

/-- A walk that never stops may come after. -/
theorem SucceedsIff.then_total (hv : v.SucceedsIff P) (hw : w.SucceedsIff True) :
    (v.andThen w).SucceedsIff P :=
  (hv.andThen hw).congr (iff_of_eq (and_true P))

theorem SucceedsIff.fork (h : w.SucceedsIff P) : w.fork.SucceedsIff P := by
  intro s
  rw [← h s]
  constructor
  · rintro ⟨⟨s', xs⟩, hf⟩
    obtain ⟨-, s'', hw⟩ := fork_eq_ok.1 hf
    exact ⟨_, hw⟩
  · rintro ⟨⟨s'', xs⟩, hw⟩
    exact ⟨_, fork_eq_ok.2 ⟨rfl, s'', hw⟩⟩

theorem succeedsIff_all {α : Type} {f : α → Walk σ φ} {P : α → Prop} {as : List α}
    (h : ∀ a ∈ as, (f a).SucceedsIff (P a)) :
    (all (as.map f)).SucceedsIff (∀ a ∈ as, P a) := by
  induction as with
  | nil => exact succeedsIff_skip.congr ⟨fun _ => nofun, fun _ => trivial⟩
  | cons a as ih =>
    rw [List.map_cons, all_cons]
    have ih := ih fun b hb => h b (List.mem_cons_of_mem a hb)
    exact ((h a List.mem_cons_self).andThen ih).congr List.forall_mem_cons.symm

end Walk

theorem succeedsIff_ifExpr {e : Expr} {d : Nat} {w : Walk σ φ} (h : w.SucceedsIff (e.Within d)) :
    (ifExpr e w).SucceedsIff (e.WithinIf d) := by
  unfold ifExpr
  split
  · exact Walk.succeedsIff_skip.congr ⟨fun _ => .inl rfl, fun _ => trivial⟩
  next he => exact h.congr ⟨.inr, fun hw => hw.resolve_left he⟩

theorem succeedsIff_ifStmt {s : Stmt} {d : Nat} {w : Walk σ φ} (h : w.SucceedsIff (s.Within d)) :
    (ifStmt s w).SucceedsIff (s.WithinIf d) := by
  unfold ifStmt
  split
  · exact Walk.succeedsIff_skip.congr ⟨fun _ => .inl rfl, fun _ => trivial⟩
  next hs => exact h.congr ⟨.inr, fun hw => hw.resolve_left hs⟩

/-- The pass gets through exactly those expressions and declarations that are within the depth. -/
structure Pass.Exact (p : Pass σ φ) : Prop where
  expr : ∀ d e, (p.expr d e).SucceedsIff (e.Within d)
  declare : ∀ d name e, (p.declare d name e).SucceedsIff (e.WithinIf d)
  declareGlobal : ∀ d name e, (p.declareGlobal d name e).SucceedsIff (e.WithinIf d)

namespace Pass.Exact

variable {p : Pass σ φ}

theorem stmt (h : p.Exact) (d : Nat) (s : Stmt) : (p.stmt d s).SucceedsIff (s.Within d) := by
  -- on the depth, which a statement takes one of before its children are visited
  induction d generalizing s with
  | zero => exact (Walk.succeedsIff_fail _).congr ⟨False.elim, Stmt.not_within_zero⟩
  | succ d ih =>
    cases s with
    | absent => exact (Walk.succeedsIff_fail _).congr ⟨False.elim, Stmt.not_within_absent⟩
    | foreign kind =>
      refine (Walk.succeedsIff_note _).congr ⟨fun _ => ⟨nofun, ?_⟩, fun _ => trivial⟩
      exact Nat.succ_le_succ (Nat.zero_le d)
    | block ss => exact (Walk.succeedsIff_all fun s _ => ih s).congr Stmt.within_block.symm
    | expr x => exact (h.expr d x).congr Stmt.within_expr.symm
    | decl name init => exact (h.declare d name init).congr Stmt.within_decl.symm
    | cond test yes no =>
      refine Walk.SucceedsIff.congr ?_ Stmt.within_cond.symm
      exact (h.expr d test).andThen ((ih yes).fork.andThen (succeedsIff_ifStmt (ih no).fork))
    | loop init test post body =>
      refine Walk.SucceedsIff.congr (Walk.SucceedsIff.fork ?_) Stmt.within_loop.symm
      refine (succeedsIff_ifStmt (ih init)).andThen ((succeedsIff_ifExpr (h.expr d test)).andThen ?_)
      exact (ih body).andThen (succeedsIff_ifExpr (h.expr d post))
    | ret x => exact (succeedsIff_ifExpr (h.expr d x)).congr Stmt.within_ret.symm
    | jump kind =>
      refine Walk.succeedsIff_skip.congr ⟨fun _ => ⟨nofun, ?_⟩, fun _ => trivial⟩
      exact Nat.succ_le_succ (Nat.zero_le d)

theorem decl (h : p.Exact) (depth : Nat) (d : Decl) :
    (p.decl depth d).SucceedsIff (d.Within depth) := by
  cases d with
  | absent => exact (Walk.succeedsIff_fail _).congr ⟨False.elim, fun hd => hd.1 rfl⟩
  | foreign kind =>
    exact (Walk.succeedsIff_note _).congr ⟨fun _ => ⟨nofun, Nat.zero_le _⟩, fun _ => trivial⟩
  | func name params ret body =>
    have hbody := (Walk.succeedsIff_update (p.enter params)).andThen (h.stmt depth body)
    refine (succeedsIff_ifStmt (hbody.congr (iff_of_eq (true_and _))).fork).congr ?_
    exact Stmt.withinIf_iff.trans (and_congr_left' (and_iff_right nofun).symm)
  | var name init =>
    refine (h.declareGlobal depth name init).congr ?_
    exact Expr.withinIf_iff.trans (and_congr_left' (and_iff_right nofun).symm)
  | stmt s => exact (h.stmt depth s).congr (and_congr_left' (and_iff_right nofun).symm)

/-- A whole file. -/
theorem decls (h : p.Exact) (depth : Nat) (ds : List Decl) :
    (p.decls depth ds).SucceedsIff (∀ d ∈ ds, d.Within depth) :=
  Walk.succeedsIff_all fun d _ => h.decl depth d

end Pass.Exact

/-! ### The bounds check -/

namespace Bounds

theorem succeedsIff_declareArray (name : String) (size : Expr) :
    (declareArray name size).SucceedsIff True := by
  unfold declareArray
  split
  · split
    · exact Walk.succeedsIff_update _
    · exact Walk.succeedsIff_skip
  · exact Walk.succeedsIff_skip

theorem succeedsIff_access (name : String) (i : Expr) : (access name i).SucceedsIff True := by
  refine Walk.succeedsIff_look fun caps => ?_
  split
  · split
    · exact Walk.succeedsIff_note _
    · exact Walk.succeedsIff_skip
  · exact Walk.succeedsIff_skip

theorem succeedsIff_expr (d : Nat) (e : Expr) : (expr d e).SucceedsIff (e.Within d) := by
  induction d generalizing e with
  | zero => exact (Walk.succeedsIff_fail _).congr ⟨False.elim, Expr.not_within_zero⟩
  | succ d ih =>
    by_cases he : e = .absent
    · rw [he]
      exact (Walk.succeedsIff_fail _).congr ⟨False.elim, Expr.not_within_absent⟩
    refine Walk.SucceedsIff.congr ?_ (Expr.within_succ he).symm
    cases e with
    | absent => exact (he rfl).elim
    | foreign kind => exact (Walk.succeedsIff_note _).congr (by simp [Expr.children])
    | ident | varRef | addr | intLit | stringLit =>
      exact Walk.succeedsIff_skip.congr (by simp [Expr.children])
    | call f args => exact Walk.succeedsIff_all fun a _ => ih a
    | deref x => exact (ih x).congr (by simp [Expr.children])
    | binary op left right => exact ((ih left).andThen (ih right)).congr (by simp [Expr.children])
    | assign target value => exact ((ih target).andThen (ih value)).congr (by simp [Expr.children])
    | index name i =>
      exact ((ih i).then_total (succeedsIff_access name i)).congr (by simp [Expr.children])
    | arrayDecl name size =>
      exact ((ih size).then_total (succeedsIff_declareArray name size)).congr
        (by simp [Expr.children])

theorem succeedsIff_declare (d : Nat) (name : String) (e : Expr) :
    (declare d name e).SucceedsIff (e.WithinIf d) :=
  (succeedsIff_ifExpr (succeedsIff_expr d e)).then_total (Walk.succeedsIff_update _)

theorem pass_exact : pass.Exact := ⟨succeedsIff_expr, succeedsIff_declare, succeedsIff_declare⟩

end Bounds

/-! ### One check gets through where another does -/

/-- States and findings do not matter. -/
def Link.loose : Link σ τ φ ψ where
  states _ _ := True
  covers _ _ := True
  covers_nil _ := trivial
  covers_append _ _ := trivial

namespace Walk

variable {v v' : Walk σ φ} {u w w' : Walk τ ψ}

theorem follows_loose :
    v.Follows .loose w ↔ ∀ s t, (∃ r, w t = .ok r) → ∃ r, v s = .ok r := by
  constructor
  · rintro h s t ⟨⟨t', ys⟩, ht⟩
    obtain ⟨s', xs, hs, -, -⟩ := h s t trivial t' ys ht
    exact ⟨_, hs⟩
  · intro h s t _ t' ys ht
    obtain ⟨⟨s', xs⟩, hs⟩ := h s t ⟨_, ht⟩
    exact ⟨s', xs, hs, trivial, trivial⟩

/-- A walk that never stops follows every walk. -/
theorem SucceedsIff.follows (h : v.SucceedsIff True) : v.Follows .loose w :=
  follows_loose.2 fun s _ _ => (h s).2 trivial

/-- A walk that never succeeds is followed by every walk. -/
theorem SucceedsIff.followed (h : w.SucceedsIff False) : v.Follows .loose w :=
  follows_loose.2 fun _ t ht => ((h t).1 ht).elim

/-- The second check may do more before or after. -/
theorem Follows.later (h : v.Follows .loose w) : v.Follows .loose (u.andThen w) := by
  refine follows_loose.2 fun s t ⟨⟨t'', zs⟩, ht⟩ => ?_
  obtain ⟨t', ys, ys', -, hw, -⟩ := andThen_eq_ok.1 ht
  exact follows_loose.1 h s t' ⟨_, hw⟩

theorem Follows.sooner (h : v.Follows .loose w) : v.Follows .loose (w.andThen u) := by
  refine follows_loose.2 fun s t ⟨⟨t'', zs⟩, ht⟩ => ?_
  obtain ⟨t', ys, ys', hw, -, -⟩ := andThen_eq_ok.1 ht
  exact follows_loose.1 h s t ⟨_, hw⟩

/-- The first check may do more, if that never stops. -/
theorem Follows.then_also {x : Walk σ φ} (h : v.Follows .loose w) (hx : x.SucceedsIff True) :
    (v.andThen x).Follows .loose w := by
  refine follows_loose.2 fun s t ht => ?_
  obtain ⟨⟨s', xs⟩, hs⟩ := follows_loose.1 h s t ht
  obtain ⟨⟨s'', ys⟩, hs'⟩ := (hx s').2 trivial
  exact ⟨_, andThen_eq_ok.2 ⟨s', xs, ys, hs, hs', rfl⟩⟩

theorem Follows.after_also {x : Walk σ φ} (h : v.Follows .loose w) (hx : x.SucceedsIff True) :
    (x.andThen v).Follows .loose w := by
  refine follows_loose.2 fun s t ht => ?_
  obtain ⟨⟨s', xs⟩, hs⟩ := (hx s).2 trivial
  obtain ⟨⟨s'', ys⟩, hs'⟩ := follows_loose.1 h s' t ht
  exact ⟨_, andThen_eq_ok.2 ⟨s', xs, ys, hs, hs', rfl⟩⟩

/-- The two checks may visit two parts in different orders. -/
theorem Follows.swapped (h : v.Follows .loose w) (h' : v'.Follows .loose w') :
    (v.andThen v').Follows .loose (w'.andThen w) := by
  refine follows_loose.2 fun s t ⟨⟨t'', zs⟩, ht⟩ => ?_
  obtain ⟨t', ys, ys', hw', hw, -⟩ := andThen_eq_ok.1 ht
  obtain ⟨⟨s', xs⟩, hs⟩ := follows_loose.1 h s t' ⟨_, hw⟩
  obtain ⟨⟨s'', xs'⟩, hs'⟩ := follows_loose.1 h' s' t ⟨_, hw'⟩
  exact ⟨_, andThen_eq_ok.2 ⟨s', xs, xs', hs, hs', rfl⟩⟩

end Walk

/-! ### The pointer check gets through where the bounds check does -/

namespace Pointer.Context

variable (c : Context)

theorem succeedsIff_deref (name : String) : (c.deref name).SucceedsIff True := by
  refine Walk.succeedsIff_look fun s => ?_
  split
  · exact Walk.succeedsIff_skip
  · exact Walk.succeedsIff_note _

theorem succeedsIff_free (name : String) : (free name).SucceedsIff True := by
  refine Walk.succeedsIff_look fun s => ?_
  split
  · exact Walk.succeedsIff_note _
  · exact Walk.succeedsIff_note _
  · exact Walk.succeedsIff_update _

theorem succeedsIff_checkCall (f : String) (args : List Expr) :
    (c.checkCall f args).SucceedsIff True := by
  refine Walk.succeedsIff_look fun s => ?_
  split
  · exact Walk.succeedsIff_skip
  · split
    · exact Walk.succeedsIff_note _
    · exact Walk.succeedsIff_note _

/-- Whatever `visit` gets through, the pointer check binds. -/
theorem follows_bind {visit : Expr → Walk State Finding} {value : Expr} {w : Walk τ ψ}
    (h : (visit value).Follows .loose w) (name : String) :
    (c.bind visit name value).Follows .loose w := h.then_also (Walk.succeedsIff_update _)

theorem expr_follows_bounds (d : Nat) (e : Expr) :
    (c.expr d e).Follows .loose (Bounds.expr d e) := by
  induction d generalizing e with
  | zero => exact Walk.follows_fail .tooDeep
  | succ d ih =>
    cases e with
    | absent => exact Walk.follows_fail .absentExpr
    | foreign kind => exact (Walk.succeedsIff_note _).follows
    | ident | varRef | addr | intLit | stringLit => exact Walk.succeedsIff_skip.follows
    | deref x =>
      rw [Context.expr]
      split
      next name _ => exact (c.succeedsIff_deref name).follows
      next => exact ih x
    | index name i => exact (ih i).andThen (c.succeedsIff_deref name).follows
    | arrayDecl name size => exact (ih size).andThen (Walk.succeedsIff_update _).follows
    | call f args =>
      have hargs : (Walk.all (args.map (c.expr d))).Follows .loose
          (Walk.all (args.map (Bounds.expr d))) := Walk.follows_all fun a _ => ih a
      rw [Context.expr, Context.call]
      split
      next name _ =>
        split
        · exact Walk.succeedsIff_skip.follows
        · exact (succeedsIff_free name).follows
      next => exact hargs.then_also (c.succeedsIff_checkCall f args)
    | binary op left right => exact (ih left).andThen (ih right)
    | assign target value =>
      -- the bounds check visits the target first, and visits it also where it is no place
      cases target with
      | ident name | varRef name => exact (c.follows_bind (ih value) name).later
      | deref x => exact (ih value).swapped (ih (.deref x))
      | index name i => exact (ih value).swapped (ih (.index name i))
      | absent =>
        have hfails := (Bounds.succeedsIff_expr d .absent).congr (iff_false_intro Expr.not_within_absent)
        exact (hfails.followed (v := .fail .absentTarget)).sooner
      | _ => exact ((ih value).after_also (Walk.succeedsIff_note _)).later

theorem declare_follows_bounds (d : Nat) (name : String) (e : Expr) :
    (c.declare d name e).Follows .loose (Bounds.declare d name e) := by
  by_cases he : e = .absent
  · rw [he]
    exact (Walk.succeedsIff_update _).follows
  · have hvalue : (c.expr d e).Follows .loose (ifExpr e (Bounds.expr d e)) := by
      cases e with
      | absent => exact (he rfl).elim
      | _ => exact c.expr_follows_bounds d _
    rw [c.declare_of_ne he]
    exact (c.follows_bind hvalue name).sooner

theorem pass_follows_bounds : c.pass.Follows .loose .any Bounds.pass where
  expr d e _ := c.expr_follows_bounds d e
  declare d name e _ _ := c.declare_follows_bounds d name e
  declareGlobal d name e _ _ := c.declare_follows_bounds d name e
  enter _ _ _ _ := trivial
  unsupported _ := trivial

end Pointer.Context

/-! ### The memory check gets through where the pointer check does -/

namespace Memory

theorem succeedsIff_read (name : String) : (read name).SucceedsIff True := by
  refine Walk.succeedsIff_look fun s => ?_
  split
  · exact Walk.succeedsIff_note _
  · exact Walk.succeedsIff_skip

theorem succeedsIff_deref (name : String) : (deref name).SucceedsIff True := by
  refine (succeedsIff_read name).then_total (Walk.succeedsIff_look fun s => ?_)
  split
  · exact Walk.succeedsIff_note _
  · exact Walk.succeedsIff_skip

theorem succeedsIff_free (name : String) : (free name).SucceedsIff True := by
  refine Walk.succeedsIff_look fun s => ?_
  dsimp only
  split
  · exact Walk.succeedsIff_note _
  · split
    · exact Walk.succeedsIff_update _
    · exact Walk.succeedsIff_skip

theorem succeedsIff_allocate (name : String) (value : Expr) :
    (allocate name value).SucceedsIff True := by
  refine Walk.succeedsIff_look fun s => ?_
  refine Walk.SucceedsIff.then_total ?_ (Walk.succeedsIff_update _)
  split
  · exact Walk.succeedsIff_note _
  · exact Walk.succeedsIff_skip

variable (p : Primitives)

/-- Whatever `visit` gets through, the memory check binds. -/
theorem follows_bind {visit : Expr → Walk State Finding} {value : Expr} {w : Walk τ ψ}
    (h : (visit value).Follows .loose w) (name : String) :
    (bind p visit name value).Follows .loose w := by
  unfold bind
  split
  · exact h.then_also (succeedsIff_allocate name value)
  split
  · exact (Walk.succeedsIff_update _).follows
  refine h.then_also ?_
  split
  · exact Walk.succeedsIff_update _
  · split
    · exact Walk.succeedsIff_skip
    · exact Walk.succeedsIff_update _

theorem assign_follows_pointer (c : Pointer.Context) {visit : Expr → Walk State Finding}
    {visit' : Expr → Walk Pointer.State Pointer.Finding}
    (h : ∀ e, (visit e).Follows .loose (visit' e)) (target value : Expr) :
    (assign c.primitives visit target value).Follows .loose (c.assign visit' target value) := by
  have hvalue := h value
  have htarget := h target
  cases target <;> simp only [assign, Pointer.Context.assign, Pointer.Context.bind]
  case ident name | varRef name => exact (follows_bind c.primitives hvalue name).sooner
  case deref | index => exact hvalue.andThen htarget
  case absent => exact Walk.follows_fail .absentTarget
  all_goals exact (Walk.succeedsIff_note _).follows.andThen hvalue

theorem expr_follows_pointer (c : Pointer.Context) (d : Nat) (e : Expr) :
    (expr c.primitives d e).Follows .loose (c.expr d e) := by
  induction d generalizing e with
  | zero => exact Walk.follows_fail .tooDeep
  | succ d ih =>
    cases e with
    | absent => exact Walk.follows_fail .absentExpr
    | foreign kind => exact (Walk.succeedsIff_note _).follows
    | ident name | varRef name => exact (succeedsIff_read name).follows
    | addr name => exact (Walk.succeedsIff_update _).follows
    | intLit | stringLit => exact Walk.succeedsIff_skip.follows
    | deref x =>
      rw [expr, Pointer.Context.expr]
      cases x.name? with
      | some name => exact (succeedsIff_deref name).follows
      | none => exact ih x
    | index name i => exact (succeedsIff_deref name).follows.swapped (ih i)
    | arrayDecl name size =>
      rw [expr, Pointer.Context.expr]
      exact (ih size).andThen (Walk.succeedsIff_update _).follows
    | call f args =>
      have hargs : (Walk.all (args.map (expr c.primitives d))).Follows .loose
          (Walk.all (args.map (c.expr d))) := Walk.follows_all fun a _ => ih a
      rw [expr, Pointer.Context.expr, Pointer.Context.call]
      cases c.primitives.freedName? f args with
      | some name => exact ((succeedsIff_read name).then_total (succeedsIff_free name)).follows
      | none => exact hargs.sooner
    | binary op left right => exact (ih left).andThen (ih right)
    | assign target value => exact assign_follows_pointer c ih target value

theorem declare_follows_pointer (c : Pointer.Context) (d : Nat) (name : String) (e : Expr) :
    (declare c.primitives d name e).Follows .loose (c.declare d name e) ∧
      (declareGlobal c.primitives d name e).Follows .loose (c.declare d name e) := by
  by_cases he : e = .absent
  · rw [he]
    exact ⟨(Walk.succeedsIff_update _).follows, (Walk.succeedsIff_update _).follows⟩
  · have hbind : (bind c.primitives (expr c.primitives d) name e).Follows .loose
        (c.bind (c.expr d) name e) :=
      (follows_bind c.primitives (expr_follows_pointer c d e) name).sooner
    rw [declare_of_ne he, declareGlobal_of_ne he, c.declare_of_ne he]
    exact ⟨hbind, hbind⟩

theorem pass_follows_pointer (c : Pointer.Context) :
    (pass c.primitives).Follows .loose .any c.pass where
  expr d e _ := expr_follows_pointer c d e
  declare d name e _ _ := (declare_follows_pointer c d name e).1
  declareGlobal d name e _ _ := (declare_follows_pointer c d name e).2
  enter _ _ _ _ := trivial
  unsupported _ := trivial

end Memory

/-! ### Files -/

theorem report_succeeds {checker : String} {limit : Nat} {diagnose : φ → Diagnostic}
    {r : Except Fault (σ × List φ)} :
    (∃ xs, report checker limit diagnose r = .ok xs) ↔ ∃ x, r = .ok x := by
  constructor
  · rintro ⟨ds, h⟩
    obtain ⟨s, xs, hr, -⟩ := report_eq_ok.1 h
    exact ⟨_, hr⟩
  · rintro ⟨⟨s, xs⟩, hr⟩
    exact ⟨_, report_eq_ok.2 ⟨s, xs, hr, rfl⟩⟩

/-- A pass that follows another one gets through every file that the other gets through. -/
theorem Pass.Follows.succeeds {p : Pass σ φ} {q : Pass τ ψ} (h : p.Follows .loose .any q)
    (depth : Nat) (ds : List Decl) (s : σ) (t : τ) (hq : ∃ r, q.decls depth ds t = .ok r) :
    ∃ r, p.decls depth ds s = .ok r :=
  Walk.follows_loose.1 (h.decls depth ds fun d _ => d.every_any) s t hq

/-- The bounds check succeeds exactly on the files that miss no node and are nowhere deeper than the
limit. Where it succeeds the pointer check does, and where that does the memory check does. -/
theorem checks_succeed_in_turn (o : Options) (ds : List Decl) :
    ((∃ xs, Bounds.analyzeFile o ds = .ok xs) ↔
        ∀ d ∈ ds, d.Every .present ∧ d.height ≤ o.depth) ∧
      ((∃ xs, Bounds.analyzeFile o ds = .ok xs) → ∃ xs, Pointer.analyzeFile o ds = .ok xs) ∧
      ((∃ xs, Pointer.analyzeFile o ds = .ok xs) → ∃ xs, Memory.analyzeFile o ds = .ok xs) := by
  unfold Bounds.analyzeFile Pointer.analyzeFile Memory.analyzeFile
  simp only [report_succeeds]
  refine ⟨Bounds.pass_exact.decls o.depth ds .empty, ?_, ?_⟩
  · exact (Pointer.Context.pass_follows_bounds _).succeeds o.depth ds .empty .empty
  · exact (Memory.pass_follows_pointer ⟨o.primitives, signatures ds⟩).succeeds o.depth ds .empty .empty

end Check

end MemLint
