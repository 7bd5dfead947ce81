import Mathlib.Data.List.Basic
import MemLint.Proofs.Check.Clean
import MemLint.Proofs.Check.Mirror

/-! What a check does with a statement depends on the variables of the statement alone. Two runs
from states that show the same for these variables are compared step by step: each step looks up and
changes variables of the statement only, so the two runs stay together, and what the states show for
all other variables stays as it was. -/

namespace MemLint

/-! ### Variables of a tree -/

namespace Expr

mutual

/-- The variables that occur, also those that are declared. The name of a function is none. -/
def vars : Expr → List String
  | absent | foreign _ | intLit _ | stringLit _ => []
  | ident name | varRef name | addr name => [name]
  | call _ args => varsAll args
  | deref x => x.vars
  | binary _ left right => left.vars ++ right.vars
  | assign target value => target.vars ++ value.vars
  | index name i => name :: i.vars
  | arrayDecl name size => name :: size.vars

def varsAll : List Expr → List String
  | [] => []
  | e :: es => e.vars ++ varsAll es

end

theorem varsAll_subset {es : List Expr} {names : List String} :
    varsAll es ⊆ names ↔ ∀ e ∈ es, e.vars ⊆ names := by
  induction es with
  | nil => simp [varsAll]
  | cons e es ih => rw [varsAll, List.append_subset, ih, List.forall_mem_cons]

/-- The name that an expression is made of occurs in it. -/
theorem mem_of_name? {e : Expr} {name : String} {names : List String} (h : e.name? = some name)
    (he : e.vars ⊆ names) : name ∈ names := by
  have hvars : e.vars = [name] := by
    cases e <;> cases h <;> rfl
  rw [hvars] at he
  exact he List.mem_cons_self

end Expr

namespace Stmt

mutual

def vars : Stmt → List String
  | absent | foreign _ | jump _ => []
  | block ss => varsAll ss
  | expr x | ret x => x.vars
  | decl name init => name :: init.vars
  | cond test yes no => test.vars ++ (yes.vars ++ no.vars)
  | loop init test post body =>
    init.vars ++ (test.vars ++ (post.vars ++ body.vars))

def varsAll : List Stmt → List String
  | [] => []
  | s :: ss => s.vars ++ varsAll ss

end

theorem varsAll_subset {ss : List Stmt} {names : List String} :
    varsAll ss ⊆ names ↔ ∀ s ∈ ss, s.vars ⊆ names := by
  induction ss with
  | nil => simp [varsAll]
  | cons s ss ih => rw [varsAll, List.append_subset, ih, List.forall_mem_cons]

end Stmt

namespace Check

variable {σ φ β : Type} {view : σ → String → β} {names : List String}

/-! ### Runs that agree on names -/

/-- The states show the same for each of the names, and `u` and `v` for all others. -/
structure Kin (view : σ → String → β) (names : List String) (u v : String → β) (s t : σ) :
    Prop where
  agree : ∀ n ∈ names, view s n = view t n
  left : ∀ n ∉ names, view s n = u n
  right : ∀ n ∉ names, view t n = v n

namespace Walk

/-- From states that agree on the names the walk stops with the same fault or notes the same, and it
leads to states that agree on the names and are otherwise as they were. -/
def DependsOn (view : σ → String → β) (names : List String) (w : Walk σ φ) : Prop :=
  ∀ s t, (∀ n ∈ names, view s n = view t n) →
    (∃ f, w s = .error f ∧ w t = .error f) ∨
    ∃ s' t' xs, w s = .ok (s', xs) ∧ w t = .ok (t', xs) ∧ (∀ n ∈ names, view s' n = view t' n) ∧
      ∀ n ∉ names, view s' n = view s n ∧ view t' n = view t n

/-- The walk keeps states akin, whatever they show for other names. -/
def Local (view : σ → String → β) (names : List String) (w : Walk σ φ) : Prop :=
  ∀ u v, w.Mirrors (Kin view names u v) id w

theorem Local.dependsOn {w : Walk σ φ} (h : w.Local view names) : w.DependsOn view names := by
  intro s t hst
  have hkin : Kin view names (view s) (view t) s t := ⟨hst, fun _ _ => rfl, fun _ _ => rfl⟩
  rcases h _ _ s t hkin with hfault | ⟨s', t', xs, hs, ht, hkin'⟩
  · exact .inl hfault
  · rw [List.map_id] at ht
    exact .inr ⟨s', t', xs, hs, ht, hkin'.agree, fun n hn => ⟨hkin'.left n hn, hkin'.right n hn⟩⟩

theorem local_fail (f : Fault) : (fail f : Walk σ φ).Local view names := fun _ _ => mirrors_fail f

theorem local_skip : (skip : Walk σ φ).Local view names := fun _ _ => mirrors_skip

theorem local_note (xs : List φ) : (note xs : Walk σ φ).Local view names := by
  intro u v
  have h := mirrors_note (S := Kin view names u v) (g := id) xs
  rwa [List.map_id] at h

/-- The walk that is chosen depends on the names only. -/
theorem local_look {w : σ → Walk σ φ}
    (hw : ∀ s t, (∀ n ∈ names, view s n = view t n) → w s = w t)
    (h : ∀ s, (w s).Local view names) : (look w).Local view names := by
  intro u v
  apply mirrors_look
  intro s t hst
  rw [← hw s t hst.agree]
  exact h s u v

/-- One of the names is given a value that depends on the names only. -/
theorem local_change {f : σ → σ} {name : String} (value : σ → β) (hname : name ∈ names)
    (hf : ∀ s n, view (f s) n = if n = name then value s else view s n)
    (hvalue : ∀ s t, (∀ n ∈ names, view s n = view t n) → value s = value t) :
    (update f : Walk σ φ).Local view names := by
  intro u v
  apply mirrors_update
  intro s t hst
  have hother {n : String} (hn : n ∉ names) : n ≠ name := fun h => hn (h ▸ hname)
  refine ⟨fun n hn => ?_, fun n hn => ?_, fun n hn => ?_⟩
  · rw [hf, hf, hvalue s t hst.agree, hst.agree n hn]
  · rw [hf, if_neg (hother hn), hst.left n hn]
  · rw [hf, if_neg (hother hn), hst.right n hn]

theorem Local.andThen {v w : Walk σ φ} (hv : v.Local view names) (hw : w.Local view names) :
    (v.andThen w).Local view names := fun a b => (hv a b).andThen (hw a b)

theorem Local.fork {w : Walk σ φ} (h : w.Local view names) : w.fork.Local view names :=
  fun u v => (h u v).fork

theorem local_all {α : Type} {f : α → Walk σ φ} {as : List α}
    (h : ∀ a ∈ as, (f a).Local view names) : (all (as.map f)).Local view names := by
  intro u v
  have hall := mirrors_all (S := Kin view names u v) (g := id) (h := f) (e := id)
    fun a ha => h a ha u v
  rwa [List.map_id] at hall

end Walk

theorem local_ifExpr (e : Expr) {w : Walk σ φ} (h : w.Local view names) :
    (ifExpr e w).Local view names := by
  cases e with
  | absent => exact Walk.local_skip
  | _ => exact h

theorem local_ifStmt (s : Stmt) {w : Walk σ φ} (h : w.Local view names) :
    (ifStmt s w).Local view names := by
  cases s with
  | absent => exact Walk.local_skip
  | _ => exact h

/-- What is not common to all passes depends on the variables that occur there. -/
structure Pass.Local (view : σ → String → β) (p : Pass σ φ) : Prop where
  expr : ∀ {names} d e, e.vars ⊆ names → (p.expr d e).Local view names
  declare : ∀ {names} d name e, name ∈ names → e.vars ⊆ names →
    (p.declare d name e).Local view names

theorem Pass.Local.stmt {p : Pass σ φ} (h : p.Local view) (d : Nat) (s : Stmt)
    (hs : s.vars ⊆ names) : (p.stmt d s).Local view names := by
  -- on the depth: the variables of a child are among those of the statement
  induction d generalizing s with
  | zero => exact Walk.local_fail .tooDeep
  | succ d ih =>
    cases s with
    | absent => exact Walk.local_fail .absentStmt
    | foreign kind => exact Walk.local_note _
    | block ss =>
      have hss := Stmt.varsAll_subset.1 hs
      exact Walk.local_all fun s hmem => ih s (hss s hmem)
    | expr x => exact h.expr d x hs
    | decl name init =>
      obtain ⟨hname, hinit⟩ := List.cons_subset.1 hs
      exact h.declare d name init hname hinit
    | cond test yes no =>
      obtain ⟨htest, hrest⟩ := List.append_subset.1 hs
      obtain ⟨hyes, hno⟩ := List.append_subset.1 hrest
      exact (h.expr d test htest).andThen
        ((ih yes hyes).fork.andThen (local_ifStmt no (ih no hno).fork))
    | loop init test post body =>
      obtain ⟨hinit, hrest⟩ := List.append_subset.1 hs
      obtain ⟨htest, hrest⟩ := List.append_subset.1 hrest
      obtain ⟨hpost, hbody⟩ := List.append_subset.1 hrest
      have htest := local_ifExpr test (h.expr d test htest)
      have hpost := local_ifExpr post (h.expr d post hpost)
      exact ((local_ifStmt init (ih init hinit)).andThen
        (htest.andThen ((ih body hbody).andThen hpost))).fork
    | ret x => exact local_ifExpr x (h.expr d x hs)
    | jump kind => exact Walk.local_skip

/-! ### Tables -/

section Table

variable {α : Type}

theorem local_set {name : String} (hname : name ∈ names) (a : α) :
    (Walk.update (·.set name a) : Walk (Table α) φ).Local Table.get? names :=
  Walk.local_change (fun _ => some a) hname (fun s n => s.get?_set name n a)
    fun _ _ _ => rfl

theorem local_erase {name : String} (hname : name ∈ names) :
    (Walk.update (·.erase name) : Walk (Table α) φ).Local Table.get? names :=
  Walk.local_change (fun _ => none) hname (fun s n => s.get?_erase name n) fun _ _ _ => rfl

end Table

/-! ### The bounds check -/

namespace Bounds

theorem local_declareArray {name : String} (hname : name ∈ names) (size : Expr) :
    (declareArray name size).Local Table.get? names := by
  unfold declareArray
  split
  · split
    · exact local_set hname _
    · exact Walk.local_skip
  · exact Walk.local_skip

theorem local_access {name : String} (hname : name ∈ names) (i : Expr) :
    (access name i).Local Table.get? names := by
  apply Walk.local_look
  · intro s t hst
    rw [hst name hname]
  · intro s
    split
    · split
      · exact Walk.local_note _
      · exact Walk.local_skip
    · exact Walk.local_skip

theorem local_expr (d : Nat) (e : Expr) (he : e.vars ⊆ names) :
    (expr d e).Local Table.get? names := by
  induction d generalizing e with
  | zero => exact Walk.local_fail .tooDeep
  | succ d ih =>
    cases e with
    | absent => exact Walk.local_fail .absentExpr
    | foreign kind => exact Walk.local_note _
    | ident | varRef | addr | intLit | stringLit => exact Walk.local_skip
    | call f args =>
      have hargs := Expr.varsAll_subset.1 he
      exact Walk.local_all fun a hmem => ih a (hargs a hmem)
    | deref x => exact ih x he
    | binary op left right | assign left right =>
      obtain ⟨hleft, hright⟩ := List.append_subset.1 he
      exact (ih left hleft).andThen (ih right hright)
    | index name i =>
      obtain ⟨hname, hi⟩ := List.cons_subset.1 he
      exact (ih i hi).andThen (local_access hname i)
    | arrayDecl name size =>
      obtain ⟨hname, hsize⟩ := List.cons_subset.1 he
      exact (ih size hsize).andThen (local_declareArray hname size)

theorem pass_local : pass.Local Table.get? where
  expr := local_expr
  declare d _ e hname he := (local_ifExpr e (local_expr d e he)).andThen (local_erase hname)

end Bounds

/-! ### Primitives -/

/-- What a call releases occurs among its arguments. -/
theorem Primitives.mem_of_freedName? {p : Primitives} {f name : String} {args : List Expr}
    (h : p.freedName? f args = some name) (hargs : Expr.varsAll args ⊆ names) :
    name ∈ names := by
  unfold freedName? at h
  split at h
  · obtain ⟨a, ha, hname⟩ := Option.bind_eq_some_iff.1 h
    exact Expr.mem_of_name? hname (Expr.varsAll_subset.1 hargs a (List.mem_of_head? ha))
  · cases h

/-! ### The memory check -/

namespace Memory

theorem local_set {name : String} (hname : name ∈ names) (m : Marks) :
    (Walk.update (·.set name m) : Walk State Finding).Local marks names :=
  Walk.local_change (fun _ => m) hname (fun s n => marks_set s name n m) fun _ _ _ => rfl

theorem local_erase {name : String} (hname : name ∈ names) :
    (Walk.update (·.erase name) : Walk State Finding).Local marks names :=
  Walk.local_change (fun _ => {}) hname (fun s n => marks_erase s name n) fun _ _ _ => rfl

/-- One name is given what is known of another. -/
theorem local_copy {name other : String} (hname : name ∈ names) (hother : other ∈ names)
    (f : Marks → Marks) :
    (Walk.update fun s => s.set name (f (marks s other)) : Walk State Finding).Local marks names :=
  Walk.local_change (fun s => f (marks s other)) hname
    (fun s n => marks_set s name n _) fun _ _ hst => congrArg f (hst other hother)

theorem local_read {name : String} (hname : name ∈ names) : (read name).Local marks names := by
  apply Walk.local_look
  · intro s t hst
    rw [hst name hname]
  · intro s
    split
    · exact Walk.local_note _
    · exact Walk.local_skip

theorem local_deref {name : String} (hname : name ∈ names) : (deref name).Local marks names := by
  apply (local_read hname).andThen
  apply Walk.local_look
  · intro s t hst
    rw [hst name hname]
  · intro s
    split
    · exact Walk.local_note _
    · exact Walk.local_skip

theorem local_free {name : String} (hname : name ∈ names) : (free name).Local marks names := by
  apply Walk.local_look
  · intro s t hst
    rw [hst name hname]
  · intro s
    dsimp only
    split
    · exact Walk.local_note _
    · split
      · exact local_set hname _
      · exact Walk.local_skip

theorem local_allocate {name : String} (hname : name ∈ names) (value : Expr) :
    (allocate name value).Local marks names := by
  apply Walk.local_look
  · intro s t hst
    rw [hst name hname]
  · intro s
    refine Walk.Local.andThen ?_ (local_set hname _)
    split
    · exact Walk.local_note _
    · exact Walk.local_skip

/-- The name whose state a value carries occurs in it. -/
theorem mem_of_source? {e : Expr} {name : String} (h : source? e = some name)
    (he : e.vars ⊆ names) : name ∈ names := by
  induction e using Expr.induct with
  | assign target value ih =>
    obtain ⟨htarget, -⟩ := List.append_subset.1 he
    exact ih h htarget
  | ident other | varRef other =>
    cases h
    exact he List.mem_cons_self
  | _ => cases h

variable {p : Primitives}

theorem local_bind {visit : Expr → Walk State Finding} {name : String} {value : Expr}
    (hvisit : (visit value).Local marks names) (hname : name ∈ names)
    (hvalue : value.vars ⊆ names) : (bind p visit name value).Local marks names := by
  unfold bind
  split
  · exact hvisit.andThen (local_allocate hname value)
  split
  · exact local_set hname _
  apply hvisit.andThen
  split
  next => exact local_erase hname
  next other hsource =>
    split
    · exact Walk.local_skip
    · exact local_copy hname (mem_of_source? hsource hvalue) id

theorem local_assign {visit : Expr → Walk State Finding} {target value : Expr}
    (hvisit : ∀ e : Expr, e.vars ⊆ names → (visit e).Local marks names)
    (htarget : target.vars ⊆ names) (hvalue : value.vars ⊆ names) :
    (assign p visit target value).Local marks names := by
  cases target with
  | ident name | varRef name =>
    exact local_bind (hvisit value hvalue) (htarget List.mem_cons_self) hvalue
  | deref x | index name x => exact (hvisit value hvalue).andThen (hvisit _ htarget)
  | absent => exact Walk.local_fail .absentTarget
  | _ => exact (Walk.local_note _).andThen (hvisit value hvalue)

theorem local_expr (d : Nat) (e : Expr) (he : e.vars ⊆ names) :
    (expr p d e).Local marks names := by
  induction d generalizing e with
  | zero => exact Walk.local_fail .tooDeep
  | succ d ih =>
    cases e with
    | absent => exact Walk.local_fail .absentExpr
    | foreign kind => exact Walk.local_note _
    | intLit | stringLit => exact Walk.local_skip
    | ident name | varRef name => exact local_read (he List.mem_cons_self)
    | addr name =>
      have hname := he List.mem_cons_self
      exact local_copy hname hname fun m => { m with uninit := false }
    | deref x =>
      rw [expr]
      split
      next name hname => exact local_deref (Expr.mem_of_name? hname he)
      next => exact ih x he
    | index name i =>
      obtain ⟨hname, hi⟩ := List.cons_subset.1 he
      exact (local_deref hname).andThen (ih i hi)
    | arrayDecl name size =>
      obtain ⟨hname, hsize⟩ := List.cons_subset.1 he
      exact (ih size hsize).andThen (local_erase hname)
    | call f args =>
      have hargs := Expr.varsAll_subset.1 he
      rw [expr]
      split
      next name hfree =>
        have hname := Primitives.mem_of_freedName? hfree he
        exact (local_read hname).andThen (local_free hname)
      next => exact Walk.local_all fun a hmem => ih a (hargs a hmem)
    | binary op left right =>
      obtain ⟨hleft, hright⟩ := List.append_subset.1 he
      exact (ih left hleft).andThen (ih right hright)
    | assign target value =>
      obtain ⟨htarget, hvalue⟩ := List.append_subset.1 he
      exact local_assign ih htarget hvalue

theorem pass_local (p : Primitives) : (pass p).Local marks where
  expr := local_expr
  declare d name e hname he := by
    by_cases ha : e = .absent
    · rw [ha]
      exact local_set hname _
    · show (declare p d name e).Local marks _
      rw [declare_of_ne ha]
      exact local_bind (local_expr d e he) hname he

end Memory

/-! ### The pointer check -/

namespace Pointer.Context

variable (c : Context) {s t : State}

theorem isLive_congr {name : String} (h : s.get? name = t.get? name) :
    c.isLive s name = c.isLive t name := by
  rw [isLive, isLive, h]

/-- Whether an expression is a pointer depends on the names in it. -/
theorem isPointer_congr (hst : ∀ n ∈ names, s.get? n = t.get? n) (e : Expr)
    (he : e.vars ⊆ names) : c.isPointer s e = c.isPointer t e := by
  induction e using Expr.induct with
  | ident name =>
    have hname := c.isLive_congr (hst name (he List.mem_cons_self))
    rw [isPointer, isPointer, hname]
  | assign target value _ ih => exact ih (List.append_subset.1 he).2
  | binary op left right ih =>
    have hleft := ih (List.append_subset.1 he).1
    cases op with
    | add | sub => exact hleft
    | _ => rfl
  | _ => rfl

/-- What a variable is given by an expression depends on the names in it. -/
theorem produces_congr (hst : ∀ n ∈ names, s.get? n = t.get? n) (e : Expr)
    (he : e.vars ⊆ names) : c.produces s e = c.produces t e := by
  induction e using Expr.induct with
  | ident name | varRef name =>
    have hname := c.isLive_congr (hst name (he List.mem_cons_self))
    rw [produces, produces, hname]
  | assign target value _ ih => exact ih (List.append_subset.1 he).2
  | binary op left right ih =>
    have hleft : left.vars ⊆ names := (List.append_subset.1 he).1
    cases op with
    | add | sub => rw [produces, produces, c.isPointer_congr hst left hleft, ih hleft]
    | _ => rfl
  | _ => rfl

theorem local_deref {name : String} (hname : name ∈ names) :
    (c.deref name).Local Table.get? names := by
  apply Walk.local_look
  · intro s t hst
    rw [c.isLive_congr (hst name hname)]
  · intro s
    split
    · exact Walk.local_skip
    · exact Walk.local_note _

theorem local_free {name : String} (hname : name ∈ names) :
    (free name).Local Table.get? names := by
  apply Walk.local_look
  · intro s t hst
    rw [hst name hname]
  · intro s
    split
    · exact Walk.local_note _
    · exact Walk.local_note _
    · exact local_set hname _

theorem local_bind {visit : Expr → Walk State Finding} {name : String} {value : Expr}
    (hvisit : (visit value).Local Table.get? names) (hname : name ∈ names)
    (hvalue : value.vars ⊆ names) : (c.bind visit name value).Local Table.get? names := by
  apply hvisit.andThen
  exact Walk.local_change (fun s => some (c.produces s value)) hname
    (fun s n => s.get?_set name n _) fun s t hst => congrArg some (c.produces_congr hst value hvalue)

theorem nonPointers_congr (hst : ∀ n ∈ names, s.get? n = t.get? n) (f : String)
    (pointer : List Bool) {args : List Expr} (hargs : Expr.varsAll args ⊆ names) :
    c.nonPointers s f pointer args = c.nonPointers t f pointer args := by
  unfold nonPointers
  apply List.filterMap_congr
  rintro ⟨⟨wanted, arg⟩, i⟩ hmem
  have harg : arg ∈ args := (List.of_mem_zip (List.fst_mem_of_mem_zipIdx hmem)).2
  simp only [c.isPointer_congr hst arg (Expr.varsAll_subset.1 hargs arg harg)]

theorem local_checkCall (f : String) {args : List Expr} (hargs : Expr.varsAll args ⊆ names) :
    (c.checkCall f args).Local Table.get? names := by
  apply Walk.local_look
  · intro s t hst
    cases c.signatures.get? f with
    | none => rfl
    | some sig => simp only [c.nonPointers_congr hst f sig.pointer hargs]
  · intro s
    split
    · exact Walk.local_skip
    · split
      · exact Walk.local_note _
      · exact Walk.local_note _

theorem local_call {visit : Expr → Walk State Finding} (f : String) {args : List Expr}
    (hvisit : ∀ e : Expr, e.vars ⊆ names → (visit e).Local Table.get? names)
    (hargs : Expr.varsAll args ⊆ names) : (c.call visit f args).Local Table.get? names := by
  unfold call
  split
  next name hfree =>
    split
    · exact Walk.local_skip
    · exact local_free (Primitives.mem_of_freedName? hfree hargs)
  next =>
    have hall := Walk.local_all fun a hmem => hvisit a (Expr.varsAll_subset.1 hargs a hmem)
    exact hall.andThen (c.local_checkCall f hargs)

theorem local_assign {visit : Expr → Walk State Finding} {target value : Expr}
    (hvisit : ∀ e : Expr, e.vars ⊆ names → (visit e).Local Table.get? names)
    (htarget : target.vars ⊆ names) (hvalue : value.vars ⊆ names) :
    (c.assign visit target value).Local Table.get? names := by
  cases target with
  | ident name | varRef name =>
    exact c.local_bind (hvisit value hvalue) (htarget List.mem_cons_self) hvalue
  | deref x | index name x => exact (hvisit value hvalue).andThen (hvisit _ htarget)
  | absent => exact Walk.local_fail .absentTarget
  | _ => exact (Walk.local_note _).andThen (hvisit value hvalue)

theorem local_expr (d : Nat) (e : Expr) (he : e.vars ⊆ names) :
    (c.expr d e).Local Table.get? names := by
  induction d generalizing e with
  | zero => exact Walk.local_fail .tooDeep
  | succ d ih =>
    cases e with
    | absent => exact Walk.local_fail .absentExpr
    | foreign kind => exact Walk.local_note _
    | ident | varRef | addr | intLit | stringLit => exact Walk.local_skip
    | deref x =>
      rw [expr]
      split
      next name hname => exact c.local_deref (Expr.mem_of_name? hname he)
      next => exact ih x he
    | index name i =>
      obtain ⟨hname, hi⟩ := List.cons_subset.1 he
      exact (ih i hi).andThen (c.local_deref hname)
    | arrayDecl name size =>
      obtain ⟨hname, hsize⟩ := List.cons_subset.1 he
      exact (ih size hsize).andThen (local_set hname _)
    | call f args => exact c.local_call f ih he
    | binary op left right =>
      obtain ⟨hleft, hright⟩ := List.append_subset.1 he
      exact (ih left hleft).andThen (ih right hright)
    | assign target value =>
      obtain ⟨htarget, hvalue⟩ := List.append_subset.1 he
      exact c.local_assign ih htarget hvalue

theorem pass_local : c.pass.Local Table.get? where
  expr := c.local_expr
  declare d name e hname he := by
    by_cases ha : e = .absent
    · rw [ha]
      exact local_erase hname
    · show (c.declare d name e).Local Table.get? _
      rw [c.declare_of_ne ha]
      exact c.local_bind (c.local_expr d e he) hname he

end Pointer.Context

/-! ### Statements -/

/-- What a check does with a statement depends on what its state shows for the variables of the
statement, and only that can change. -/
theorem stmt_depends_on_variables (p : Primitives) (sigs : Signatures) (depth : Nat) (s : Stmt) :
    (Bounds.pass.stmt depth s).DependsOn Table.get? s.vars ∧
    ((Memory.pass p).stmt depth s).DependsOn Memory.marks s.vars ∧
    ((Pointer.Context.mk p sigs).pass.stmt depth s).DependsOn Table.get? s.vars := by
  have hs : s.vars ⊆ s.vars := List.Subset.refl _
  refine ⟨?_, ?_, ?_⟩
  · exact (Bounds.pass_local.stmt depth s hs).dependsOn
  · exact ((Memory.pass_local p).stmt depth s hs).dependsOn
  · exact ((Pointer.Context.mk p sigs).pass_local.stmt depth s hs).dependsOn

end Check

end MemLint
