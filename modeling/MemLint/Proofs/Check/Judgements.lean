import Mathlib.Data.List.Basic
import MemLint.Proofs.Check.Clean
import MemLint.Proofs.Check.Simulation

/-! The two judgements of the pointer check on an expression: whether it may be passed for a
pointer, and what a variable holds that is given it. Both follow assignments to their values and
pointer arithmetic to its left operand, and look only at what they find there. What makes a variable
live may be passed for a pointer; the converse fails for the null pointer and for a pointer that is
not live, and for nothing else. -/

namespace MemLint

/-- What an expression takes its value from, behind assignments and pointer arithmetic. -/
def Expr.origin : Expr → Expr
  | .assign _ value => value.origin
  | .binary .add left _ | .binary .sub left _ => left.origin
  | e => e

namespace Check

/-! ### Where something is noted -/

namespace Walk

variable {σ φ : Type} {N : φ → Prop} {U : Walk σ φ → Prop} {v w : Walk σ φ}

/-- While the first walk is made from the first state, the second one is made from the second
state. -/
inductive Makes : Walk σ φ → σ → Walk σ φ → σ → Prop where
  | here (w : Walk σ φ) (s : σ) : Makes w s w s
  | first {v u : Walk σ φ} {s s' : σ} (w : Walk σ φ) (h : Makes v s u s') :
    Makes (v.andThen w) s u s'
  | second {v w u : Walk σ φ} {s s₁ s' : σ} {xs : List φ} (hv : v s = .ok (s₁, xs))
    (h : Makes w s₁ u s') : Makes (v.andThen w) s u s'
  | fork {w u : Walk σ φ} {s s' : σ} (h : Makes w s u s') : Makes w.fork s u s'

/-- Findings in `N` are noted only where one of the walks in `U` is made, and by that walk. -/
def NotedBy (N : φ → Prop) (U : Walk σ φ → Prop) (w : Walk σ φ) : Prop :=
  ∀ ⦃s s' xs⦄, w s = .ok (s', xs) → ∀ x ∈ xs, N x →
    ∃ u s₁ s₂ ys, U u ∧ w.Makes s u s₁ ∧ u s₁ = .ok (s₂, ys) ∧ x ∈ ys

theorem notedBy_self (h : U w) : w.NotedBy N U :=
  fun s s' xs hw _ hx _ => ⟨w, s, s', xs, h, .here w s, hw, hx⟩

/-- A walk that notes none of them. -/
theorem notedBy_of_forall (h : ∀ s s' xs, w s = .ok (s', xs) → ∀ x ∈ xs, ¬ N x) :
    w.NotedBy N U := fun _ _ _ hw x hx hN => (h _ _ _ hw x hx hN).elim

theorem notedBy_note {xs : List φ} (h : ∀ x ∈ xs, ¬ N x) : (note xs : Walk σ φ).NotedBy N U := by
  refine notedBy_of_forall fun s s' ys hw => ?_
  cases hw
  exact h

theorem notedBy_skip : (skip : Walk σ φ).NotedBy N U := notedBy_note (List.forall_mem_nil _)

theorem notedBy_update (f : σ → σ) : (update f : Walk σ φ).NotedBy N U := by
  refine notedBy_of_forall fun s s' xs hw => ?_
  cases hw
  exact List.forall_mem_nil _

theorem notedBy_fail (f : Fault) : (fail f : Walk σ φ).NotedBy N U := by
  intro s s' xs hw
  cases hw

theorem NotedBy.andThen (hv : v.NotedBy N U) (hw : w.NotedBy N U) :
    (v.andThen w).NotedBy N U := by
  intro s s' zs h x hx hN
  obtain ⟨s₁, xs, ys, hs, hs', rfl⟩ := andThen_eq_ok.1 h
  rcases List.mem_append.1 hx with hx | hx
  · obtain ⟨u, s₂, s₃, us, hu, hmakes, hnoted⟩ := hv hs x hx hN
    exact ⟨u, s₂, s₃, us, hu, .first w hmakes, hnoted⟩
  · obtain ⟨u, s₂, s₃, us, hu, hmakes, hnoted⟩ := hw hs' x hx hN
    exact ⟨u, s₂, s₃, us, hu, .second hs hmakes, hnoted⟩

theorem NotedBy.fork (h : w.NotedBy N U) : w.fork.NotedBy N U := by
  intro s s' xs hw x hx hN
  obtain ⟨-, s'', hw⟩ := fork_eq_ok.1 hw
  obtain ⟨u, s₁, s₂, ys, hu, hmakes, hnoted⟩ := h hw x hx hN
  exact ⟨u, s₁, s₂, ys, hu, .fork hmakes, hnoted⟩

theorem notedBy_all {ws : List (Walk σ φ)} (h : ∀ w ∈ ws, w.NotedBy N U) :
    (all ws).NotedBy N U := by
  induction ws with
  | nil => exact notedBy_skip
  | cons w ws ih =>
    obtain ⟨hw, hws⟩ := List.forall_mem_cons.1 h
    rw [all_cons]
    exact hw.andThen (ih hws)

end Walk

section Passes

variable {σ φ : Type} {N : φ → Prop} {U : Walk σ φ → Prop}

theorem notedBy_ifExpr (e : Expr) {w : Walk σ φ} (h : w.NotedBy N U) :
    (ifExpr e w).NotedBy N U := by
  cases e with
  | absent => exact Walk.notedBy_skip
  | _ => exact h

theorem notedBy_ifStmt (s : Stmt) {w : Walk σ φ} (h : w.NotedBy N U) :
    (ifStmt s w).NotedBy N U := by
  cases s with
  | absent => exact Walk.notedBy_skip
  | _ => exact h

/-- The pass notes them so on what is not common to all passes. -/
structure Pass.NotedBy (N : φ → Prop) (U : Walk σ φ → Prop) (p : Pass σ φ) : Prop where
  expr : ∀ d e, (p.expr d e).NotedBy N U
  declare : ∀ d name e, (p.declare d name e).NotedBy N U
  declareGlobal : ∀ d name e, (p.declareGlobal d name e).NotedBy N U
  unsupported : ∀ kind, ¬ N (p.unsupported kind)

namespace Pass.NotedBy

variable {p : Pass σ φ}

theorem note_unsupported (h : p.NotedBy N U) (kind : String) :
    (Walk.note [p.unsupported kind] : Walk σ φ).NotedBy N U :=
  Walk.notedBy_note (List.forall_mem_singleton.2 (h.unsupported kind))

theorem stmt (h : p.NotedBy N U) (d : Nat) (s : Stmt) : (p.stmt d s).NotedBy N U := by
  induction d generalizing s with
  | zero => exact Walk.notedBy_fail .tooDeep
  | succ d ih =>
    cases s with
    | absent => exact Walk.notedBy_fail .absentStmt
    | foreign kind => exact h.note_unsupported kind
    | block ss => exact Walk.notedBy_all (List.forall_mem_map.2 fun s _ => ih s)
    | expr x => exact h.expr d x
    | decl name init => exact h.declare d name init
    | cond test yes no =>
      exact (h.expr d test).andThen ((ih yes).fork.andThen (notedBy_ifStmt no (ih no).fork))
    | loop init test post body =>
      refine .fork ((notedBy_ifStmt init (ih init)).andThen ?_)
      refine (notedBy_ifExpr test (h.expr d test)).andThen ?_
      exact (ih body).andThen (notedBy_ifExpr post (h.expr d post))
    | ret x => exact notedBy_ifExpr x (h.expr d x)
    | jump kind => exact Walk.notedBy_skip

theorem decl (h : p.NotedBy N U) (depth : Nat) (d : Decl) : (p.decl depth d).NotedBy N U := by
  cases d with
  | absent => exact Walk.notedBy_fail .absentDecl
  | foreign kind => exact h.note_unsupported kind
  | func name params ret body =>
    exact notedBy_ifStmt body ((Walk.notedBy_update _).andThen (h.stmt depth body)).fork
  | var name init => exact h.declareGlobal depth name init
  | stmt s => exact h.stmt depth s

/-- A whole file. -/
theorem decls (h : p.NotedBy N U) (depth : Nat) (ds : List Decl) :
    (p.decls depth ds).NotedBy N U :=
  Walk.notedBy_all (List.forall_mem_map.2 fun d _ => h.decl depth d)

end Pass.NotedBy

end Passes

namespace Pointer

variable {c : Context} {s : State}

/-! ### What both judgements look at -/

theorem isPointer_of_produces {e : Expr} (h : c.produces s e = .live) :
    c.isPointer s e = true := by
  induction e using Expr.induct with
  | ident name =>
    have hlive : c.isLive s name = true := by
      by_contra hdead
      simp [Context.produces, hdead] at h
    simp [Context.isPointer, hlive]
  | call f args ih =>
    by_contra hno
    simp_all [Context.produces, Context.isPointer]
  | assign target value _ ih => exact ih h
  | binary op left right ih _ =>
    cases op with
    | add | sub =>
      by_contra hno
      have hleft : c.isPointer s left = false := by simpa [Context.isPointer] using hno
      simp [Context.produces, hleft] at h
    | _ => cases h
  | varRef | addr | deref | stringLit => rfl
  | _ => cases h

theorem isPointer_origin (e : Expr) : c.isPointer s e.origin = c.isPointer s e := by
  fun_induction Expr.origin e with
  | case1 target value ih | case2 value right ih | case3 value right ih => exact ih
  | case4 => rfl

theorem produces_origin (e : Expr) : c.produces s e.origin = c.produces s e := by
  have hleft (left : Expr) : c.produces s left =
      if c.isPointer s left then c.produces s left else .dead := by
    split
    · rfl
    next hno =>
      cases hp : c.produces s left with
      | live => exact (hno (isPointer_of_produces hp)).elim
      | dead => rfl
  fun_induction Expr.origin e with
  | case1 target value ih => exact ih
  | case2 left right ih | case3 left right ih => exact ih.trans (hleft left)
  | case4 => rfl

/-- The search for an origin does not stop at an assignment, a sum or a difference. -/
theorem origin_ne (e : Expr) :
    (∀ target value, e.origin ≠ .assign target value) ∧
      ∀ op left right, e.origin = .binary op left right → op ≠ .add ∧ op ≠ .sub := by
  fun_induction Expr.origin e with
  | case1 target value ih | case2 left right ih | case3 left right ih => exact ih
  | case4 e hassign hadd hsub =>
    refine ⟨hassign, fun op left right he => ⟨?_, ?_⟩⟩
    · rintro rfl
      exact hadd left right he
    · rintro rfl
      exact hsub left right he

/-- What may be passed for a pointer and still makes a variable dead is the null pointer by name, or
a pointer variable that is not live. -/
theorem dead_pointer_iff (e : Expr) :
    c.isPointer s e = true ∧ c.produces s e = .dead ↔
      (∃ name, e.origin = .ident name ∧ c.primitives.isNull name = true) ∨
        ∃ name, e.origin = .varRef name ∧ c.isLive s name = false := by
  obtain ⟨hassign, hbinary⟩ := origin_ne e
  rw [← isPointer_origin, ← produces_origin]
  generalize e.origin = x at hassign hbinary
  cases x with
  | ident name =>
    cases hnull : c.primitives.isNull name <;> cases hlive : c.isLive s name <;>
      simp_all [Context.isPointer, Context.produces, Context.isLive]
  | varRef name => cases hlive : c.isLive s name <;> simp [Context.isPointer, Context.produces, hlive]
  | call f args => simp [Context.isPointer, Context.produces]
  | assign target value => exact (hassign target value rfl).elim
  | binary op left right =>
    obtain ⟨hadd, hsub⟩ := hbinary op left right rfl
    cases op <;> simp_all [Context.isPointer]
  | _ => simp [Context.isPointer, Context.produces]

/-! ### Arguments that are reported -/

theorem mem_nonPointers {x : Finding} {f : String} {pointer : List Bool} {args : List Expr} :
    x ∈ c.nonPointers s f pointer args ↔
      ∃ i arg, pointer[i]? = some true ∧ args[i]? = some arg ∧ c.isPointer s arg = false ∧
        x = .nonPointer f (i + 1) := by
  simp only [Context.nonPointers, List.mem_filterMap]
  constructor
  · rintro ⟨⟨⟨wanted, arg⟩, i⟩, hmem, hx⟩
    obtain ⟨hi, hzip⟩ := List.mk_mem_zipIdx_iff_le_and_getElem?_sub.1 hmem
    obtain ⟨hwanted, harg⟩ := List.getElem?_zip_eq_some.1 hzip
    dsimp only at hx
    split at hx
    next hjudged =>
      obtain ⟨rfl, hno⟩ := Bool.and_eq_true_iff.1 hjudged
      refine ⟨i - 1, arg, hwanted, harg, by simpa using hno, ?_⟩
      rw [Nat.sub_add_cancel hi]
      exact (Option.some.inj hx).symm
    · cases hx
  · rintro ⟨i, arg, hwanted, harg, hno, rfl⟩
    refine ⟨((true, arg), i + 1), ?_, by simp [hno]⟩
    exact List.mk_mem_zipIdx_iff_le_and_getElem?_sub.2
      ⟨Nat.le_add_left 1 i, List.getElem?_zip_eq_some.2 ⟨hwanted, harg⟩⟩

/-- An argument that a call is reported for makes a variable dead. -/
theorem dead_of_reported {f g : String} {args : List Expr} {i : Nat} {s' : State}
    {xs : List Finding} (h : c.checkCall g args s = .ok (s', xs)) (hx : .nonPointer f i ∈ xs) :
    f = g ∧ ∃ arg, args[i - 1]? = some arg ∧ c.produces s arg = .dead := by
  simp only [Context.checkCall, Walk.look] at h
  cases hsig : c.signatures.get? g with
  | none =>
    rw [hsig] at h
    cases h
    exact (List.not_mem_nil hx).elim
  | some sig =>
    simp only [hsig] at h
    split at h
    · cases h
      obtain ⟨j, arg, -, harg, hno, hj⟩ := mem_nonPointers.1 hx
      cases hj
      refine ⟨rfl, arg, harg, ?_⟩
      cases hp : c.produces s arg with
      | live => cases hno.symm.trans (isPointer_of_produces hp)
      | dead => rfl
    · cases h
      cases List.mem_singleton.1 hx

/-- A finding about an argument that is no pointer. -/
def IsNonPointer (x : Finding) : Prop := ∃ f i, x = .nonPointer f i

/-- The walk holds a call against the signature of the function. -/
def ChecksCall (c : Context) (u : Walk State Finding) : Prop := ∃ f args, u = c.checkCall f args

theorem notedBy_deref (name : String) : (c.deref name).NotedBy IsNonPointer (ChecksCall c) := by
  refine Walk.notedBy_of_forall fun s s' xs h => ?_
  simp only [Context.deref, Walk.look] at h
  split at h <;> cases h
  · exact List.forall_mem_nil _
  · simp [IsNonPointer]

theorem notedBy_free (name : String) :
    (Context.free name).NotedBy IsNonPointer (ChecksCall c) := by
  refine Walk.notedBy_of_forall fun s s' xs h => ?_
  simp only [Context.free, Walk.look] at h
  cases hheld : s.get? name with
  | none =>
    rw [hheld] at h
    cases h
    simp [IsNonPointer]
  | some held =>
    rw [hheld] at h
    cases held <;> cases h <;> simp [IsNonPointer]

theorem notedBy_unsupported (kind : String) :
    (Walk.note [.unsupported kind]).NotedBy IsNonPointer (ChecksCall c) :=
  Walk.notedBy_note (by simp [IsNonPointer])

section Visit

variable {visit : Expr → Walk State Finding}
  (hvisit : ∀ e, (visit e).NotedBy IsNonPointer (ChecksCall c))

include hvisit

theorem notedBy_bind (name : String) (value : Expr) :
    (c.bind visit name value).NotedBy IsNonPointer (ChecksCall c) :=
  (hvisit value).andThen (Walk.notedBy_update _)

theorem notedBy_call (f : String) (args : List Expr) :
    (c.call visit f args).NotedBy IsNonPointer (ChecksCall c) := by
  unfold Context.call
  split
  · split
    · exact Walk.notedBy_skip
    · exact notedBy_free _
  · refine (Walk.notedBy_all (List.forall_mem_map.2 fun a _ => hvisit a)).andThen ?_
    exact Walk.notedBy_self ⟨f, args, rfl⟩

theorem notedBy_assign (target value : Expr) :
    (c.assign visit target value).NotedBy IsNonPointer (ChecksCall c) := by
  cases target with
  | ident name | varRef name => exact notedBy_bind hvisit name value
  | deref | index => exact (hvisit value).andThen (hvisit _)
  | absent => exact Walk.notedBy_fail .absentTarget
  | _ => exact (notedBy_unsupported _).andThen (hvisit value)

end Visit

theorem notedBy_expr (d : Nat) (e : Expr) :
    (c.expr d e).NotedBy IsNonPointer (ChecksCall c) := by
  induction d generalizing e with
  | zero => exact Walk.notedBy_fail .tooDeep
  | succ d ih =>
    cases e with
    | absent => exact Walk.notedBy_fail .absentExpr
    | foreign kind => exact notedBy_unsupported kind
    | ident | varRef | addr | intLit | stringLit => exact Walk.notedBy_skip
    | deref x =>
      rw [Context.expr]
      split
      · exact notedBy_deref _
      · exact ih x
    | index name i => exact (ih i).andThen (notedBy_deref name)
    | arrayDecl name size => exact (ih size).andThen (Walk.notedBy_update _)
    | call f args => exact notedBy_call ih f args
    | binary op left right => exact (ih left).andThen (ih right)
    | assign target value => exact notedBy_assign ih target value

theorem notedBy_declare (d : Nat) (name : String) (init : Expr) :
    (c.declare d name init).NotedBy IsNonPointer (ChecksCall c) := by
  by_cases hi : init = .absent
  · subst hi
    exact Walk.notedBy_update _
  · rw [c.declare_of_ne hi]
    exact notedBy_bind (notedBy_expr d) name init

theorem pass_notedBy (c : Context) : c.pass.NotedBy IsNonPointer (ChecksCall c) where
  expr := notedBy_expr
  declare := notedBy_declare
  declareGlobal := notedBy_declare
  unsupported kind := by simp [Context.pass, IsNonPointer]

/-- What makes a variable live may be passed for a pointer. The converse fails exactly if the
expression starts from the null pointer by name or from a pointer variable that is not live. So in
no run is an argument reported as no pointer that would make a variable live where the call that
reports it is checked. -/
theorem pointer_judgements_agree (c : Context) :
    (∀ s e, (c.produces s e = .live → c.isPointer s e = true) ∧
      (c.isPointer s e = true ∧ c.produces s e = .dead ↔
        (∃ name, e.origin = .ident name ∧ c.primitives.isNull name = true) ∨
          ∃ name, e.origin = .varRef name ∧ c.isLive s name = false)) ∧
    ∀ depth ds s s' xs f i, c.pass.decls depth ds s = .ok (s', xs) → .nonPointer f i ∈ xs →
      ∃ args s₁ s₂ ys arg, (c.pass.decls depth ds).Makes s (c.checkCall f args) s₁ ∧
        c.checkCall f args s₁ = .ok (s₂, ys) ∧ .nonPointer f i ∈ ys ∧
        args[i - 1]? = some arg ∧ c.produces s₁ arg = .dead := by
  refine ⟨fun s e => ⟨isPointer_of_produces, dead_pointer_iff e⟩, ?_⟩
  intro depth ds s s' xs f i hrun hx
  obtain ⟨u, s₁, s₂, ys, ⟨g, args, rfl⟩, hmakes, hcall, hy⟩ :=
    (pass_notedBy c).decls depth ds hrun _ hx ⟨f, i, rfl⟩
  obtain ⟨rfl, arg, harg, hdead⟩ := dead_of_reported hcall hy
  exact ⟨args, s₁, s₂, ys, arg, hmakes, hcall, hy, harg, hdead⟩

/-- A step on from a live pointer, the same on the way through an assignment from one that has been
freed, and a number for a pointer. -/
theorem pointer_judgements_agree_at_steps :
    let c : Context := ⟨.default, ⟨[("f", ⟨[true], false⟩)]⟩⟩
    let s : State := ⟨[("p", .live), ("q", .dead)]⟩
    let next (x : String) : Expr := .binary .add (.varRef x) (.intLit 1)
    let file : List Decl := [.stmt (.expr (.call "f" [.intLit 0]))]
    (c.produces s (next "p") = .live ∧ c.isPointer s (next "p") = true) ∧
    (c.isPointer s (.assign (.varRef "r") (next "q")) = true ∧
      c.produces s (.assign (.varRef "r") (next "q")) = .dead) ∧
    c.pass.decls 3 file s = .ok (s, [.nonPointer "f" 1]) ∧
    ∃ args s₁ s₂ ys arg, (c.pass.decls 3 file).Makes s (c.checkCall "f" args) s₁ ∧
      c.checkCall "f" args s₁ = .ok (s₂, ys) ∧ .nonPointer "f" 1 ∈ ys ∧
      args[0]? = some arg ∧ c.produces s₁ arg = .dead := by
  intro c s next file
  obtain ⟨hjudged, hreported⟩ := pointer_judgements_agree c
  have hlive : c.produces s (next "p") = .live := rfl
  have hrun : c.pass.decls 3 file s = .ok (s, [.nonPointer "f" 1]) := rfl
  have hdead := (hjudged s (.assign (.varRef "r") (next "q"))).2.2 (.inr ⟨"q", rfl, rfl⟩)
  exact ⟨⟨hlive, (hjudged s _).1 hlive⟩, hdead, hrun,
    hreported 3 file s s _ "f" 1 hrun List.mem_cons_self⟩

end Pointer

end Check

end MemLint
