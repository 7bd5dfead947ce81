import MemLint.Check.Bounds
import MemLint.Proofs.Check.Simulation

/-! The reaching declaration of an array access. What the bounds check meets in a tree makes a
trace: declarations, accesses, and where branches, loops and functions start and end. Looking back
from an access, the first declaration of its name that does not stand in something that has ended
is the one that reaches it. The check passes over arrays whose size is no literal, and reports
exactly the literal accesses outside the array that it comes to, in the order of the trace. If every
array has a literal size, that is the array that reaches the access. -/

namespace MemLint

namespace Check.Bounds

/-! ### Traces -/

/-- What is met in a tree. -/
inductive Event where
  | array (name : String) (size : Expr)
  /-- A variable or a parameter, which is no array, is declared. -/
  | plain (name : String)
  | access (name : String) (i : Expr)
  /-- A branch, a loop or a function starts. -/
  | enter
  | leave

/-- A branch, a loop or a function with what is met in it. -/
def enclosed (es : List Event) : List Event := .enter :: es ++ [.leave]

end Check.Bounds

open Check.Bounds (Event enclosed)

namespace Expr

mutual

/-- Arrays and accesses, each after what stands in its size or its index. -/
def trace : Expr → List Event
  | arrayDecl name size => size.trace ++ [.array name size]
  | index name i => i.trace ++ [.access name i]
  | call _ args => traceOf args
  | deref x => x.trace
  | binary _ left right => left.trace ++ right.trace
  | assign target value => target.trace ++ value.trace
  | _ => []

def traceOf : List Expr → List Event
  | [] => []
  | e :: es => e.trace ++ traceOf es

end

theorem traceOf_eq (es : List Expr) : traceOf es = es.flatMap trace := by
  induction es with
  | nil => rfl
  | cons e es ih => rw [traceOf, ih, List.flatMap_cons]

end Expr

namespace Stmt

mutual

/-- A block is open: what is declared in it is met by what follows it. -/
def trace : Stmt → List Event
  | block ss => traceOf ss
  | expr x => x.trace
  | decl name init => init.trace ++ [.plain name]
  | cond test yes no => test.trace ++ (enclosed yes.trace ++ enclosed no.trace)
  | loop init test post body =>
    enclosed (init.trace ++ (test.trace ++ (body.trace ++ post.trace)))
  | ret x => x.trace
  | _ => []

def traceOf : List Stmt → List Event
  | [] => []
  | s :: ss => s.trace ++ traceOf ss

end

theorem traceOf_eq (ss : List Stmt) : traceOf ss = ss.flatMap trace := by
  induction ss with
  | nil => rfl
  | cons s ss ih => rw [traceOf, ih, List.flatMap_cons]

end Stmt

def Decl.trace : Decl → List Event
  | func _ params _ body => enclosed (params.map (fun p => .plain p.name) ++ body.trace)
  | var name init => init.trace ++ [.plain name]
  | stmt s => s.trace
  | _ => []

namespace Check.Bounds

/-! ### Looking back -/

namespace Event

/-- The event declares the name. -/
def declares (name : String) : Event → Bool
  | array n _ | plain n => n == name
  | _ => false

/-- The event is no array whose size is not a literal or negative. -/
def sized : Event → Bool
  | array _ (.intLit c) => 0 ≤ c
  | array _ _ => false
  | _ => true

/-- The check takes note of the event as a declaration of the name. -/
def records (name : String) (e : Event) : Bool := e.declares name && e.sized

/-- The capacity that a declaration gives its name. -/
def capacity? : Event → Option Int
  | array _ (.intLit c) => some c
  | _ => none

/-- The finding for a literal access, given the capacities of the arrays. -/
def verdict (capacity : String → Option Int) : Event → List Finding
  | access name (.intLit i) =>
    match capacity name with
    | some c => if i < 0 ∨ c ≤ i then [.outOfBounds name i c] else []
    | none => []
  | _ => []

end Event

/-- The latest event in `p` of a trace whose last event comes first. Going back, `ended` counts what
has been left and not yet entered, and all that stands in it is passed over. -/
def latest (p : Event → Bool) : (ended : Nat) → List Event → Option Event
  | _, [] => none
  | ended, .leave :: past => latest p (ended + 1) past
  | ended, .enter :: past => latest p (ended - 1) past
  | ended, e :: past => if ended = 0 ∧ p e then some e else latest p ended past

/-- The capacity of a name by the declaration that reaches the end of the trace. -/
def reaching (past : List Event) (name : String) : Option Int :=
  (latest (·.declares name) 0 past).bind Event.capacity?

/-- The capacity of a name that the check knows, if it starts from the table. -/
def known (caps : Capacities) (past : List Event) (name : String) : Option Int :=
  (latest (·.records name) 0 past).elim (caps.get? name) Event.capacity?

/-- The findings along a trace that follows `past`. -/
def verdicts (capacity : List Event → String → Option Int) (past : List Event) :
    List Event → List Finding
  | [] => []
  | e :: es => e.verdict (capacity past) ++ verdicts capacity (e :: past) es

theorem verdicts_append (capacity : List Event → String → Option Int) (past es es' : List Event) :
    verdicts capacity past (es ++ es') =
      verdicts capacity past es ++ verdicts capacity (es.reverse ++ past) es' := by
  induction es generalizing past with
  | nil => rfl
  | cons e es ih =>
    rw [List.cons_append, verdicts, verdicts, ih, List.append_assoc, List.reverse_cons,
      List.append_assoc, List.singleton_append]

theorem verdicts_enclosed (capacity : List Event → String → Option Int) (past es : List Event) :
    verdicts capacity past (enclosed es) = verdicts capacity (.enter :: past) es := by
  rw [enclosed, List.cons_append, verdicts, verdicts_append]
  exact List.append_nil _

theorem latest_congr {p q : Event → Bool} {past : List Event} (h : ∀ e ∈ past, p e = q e)
    (ended : Nat) : latest p ended past = latest q ended past := by
  induction past generalizing ended with
  | nil => rfl
  | cons e past ih =>
    have hpast := ih fun e he => h e (by simp [he])
    cases e <;> simp [latest, hpast, h]

/-! ### What has ended -/

/-- The trace ends what it starts, so that looking back passes over it. -/
def Closed (es : List Event) : Prop :=
  ∀ p ended past, latest p (ended + 1) (es.reverse ++ past) = latest p (ended + 1) past

theorem closed_nil : Closed [] := fun _ _ _ => rfl

theorem Closed.append {es es' : List Event} (h : Closed es) (h' : Closed es') :
    Closed (es ++ es') := by
  intro p ended past
  rw [List.reverse_append, List.append_assoc, h', h]

theorem closed_flatMap {α : Type} {f : α → List Event} {as : List α} (h : ∀ a ∈ as, Closed (f a)) :
    Closed (as.flatMap f) := by
  induction as with
  | nil => exact closed_nil
  | cons a as ih =>
    rw [List.flatMap_cons]
    exact (h a (by simp)).append (ih fun a' ha' => h a' (by simp [ha']))

/-- Behind an enclosed trace the view is the same as in front of it. -/
theorem latest_enclosed {es : List Event} (h : Closed es) (p : Event → Bool) (ended : Nat)
    (past : List Event) : latest p ended ((enclosed es).reverse ++ past) = latest p ended past := by
  have hback : (enclosed es).reverse ++ past = .leave :: (es.reverse ++ .enter :: past) := by
    simp [enclosed]
  rw [hback, latest, h, latest, Nat.add_sub_cancel]

theorem Closed.enclosed {es : List Event} (h : Closed es) : Closed (enclosed es) :=
  fun p ended => latest_enclosed h p (ended + 1)

theorem closed_array (name : String) (size : Expr) : Closed [.array name size] := by
  intro p ended past
  simp [latest]

theorem closed_plain (name : String) : Closed [.plain name] := by
  intro p ended past
  simp [latest]

theorem closed_access (name : String) (i : Expr) : Closed [.access name i] := by
  intro p ended past
  simp [latest]

theorem closed_expr (e : Expr) : Closed e.trace := by
  induction e using Expr.induct with
  | call f args ih =>
    rw [Expr.trace, Expr.traceOf_eq]
    exact closed_flatMap ih
  | deref x ih => exact ih
  | binary op left right hleft hright => exact hleft.append hright
  | assign target value htarget hvalue => exact htarget.append hvalue
  | index name i ih => exact ih.append (closed_access name i)
  | arrayDecl name size ih => exact ih.append (closed_array name size)
  | _ => exact closed_nil

mutual

theorem closed_stmt : (s : Stmt) → Closed s.trace
  | .absent | .foreign _ | .jump _ => closed_nil
  | .block ss => closed_stmts ss
  | .expr x | .ret x => closed_expr x
  | .decl name init => (closed_expr init).append (closed_plain name)
  | .cond test yes no =>
    (closed_expr test).append ((closed_stmt yes).enclosed.append (closed_stmt no).enclosed)
  | .loop init test post body => ((closed_stmt init).append ((closed_expr test).append
      ((closed_stmt body).append (closed_expr post)))).enclosed

theorem closed_stmts : (ss : List Stmt) → Closed (Stmt.traceOf ss)
  | [] => closed_nil
  | s :: ss => (closed_stmt s).append (closed_stmts ss)

end

theorem closed_params (params : List Param) : Closed (params.map fun p => .plain p.name) := by
  rw [List.map_eq_flatMap]
  exact closed_flatMap fun p _ => closed_plain p.name

/-! ### What the check knows and reports -/

variable {base caps : Capacities} {past es es' : List Event} {v w : Walk Capacities Finding}

/-- The table is what the check knows behind the trace. -/
def Knows (base : Capacities) (past : List Event) (caps : Capacities) : Prop :=
  ∀ name, caps.get? name = known base past name

theorem knows_self (base : Capacities) : Knows base [] base := fun _ => rfl

def Finding.isOutside (x : Finding) : Bool := x.diagnostic.kind = .outOfBounds

/-- The walk follows the trace: the table stays what the check knows, and the accesses that are
reported are those outside the arrays that it knows. -/
def Traces (base : Capacities) (es : List Event) (w : Walk Capacities Finding) : Prop :=
  ∀ past caps caps' xs, Knows base past caps → w caps = .ok (caps', xs) →
    Knows base (es.reverse ++ past) caps' ∧
      xs.filter Finding.isOutside = verdicts (known base) past es

theorem traces_fail (f : Fault) : Traces base es (.fail f) := fun _ _ _ _ _ h => nomatch h

theorem traces_skip : Traces base [] .skip := by
  intro past caps caps' xs hcaps h
  cases h
  exact ⟨hcaps, rfl⟩

theorem traces_unsupported (kind : String) : Traces base [] (.note [.unsupported kind]) := by
  intro past caps caps' xs hcaps h
  cases h
  exact ⟨hcaps, rfl⟩

theorem Traces.andThen (hv : Traces base es v) (hw : Traces base es' w) :
    Traces base (es ++ es') (v.andThen w) := by
  intro past caps caps'' zs hcaps h
  obtain ⟨caps', xs, ys, hxs, hys, rfl⟩ := Walk.andThen_eq_ok.1 h
  obtain ⟨hcaps', hx⟩ := hv past caps caps' xs hcaps hxs
  obtain ⟨hcaps'', hy⟩ := hw _ caps' caps'' ys hcaps' hys
  rw [List.reverse_append, List.append_assoc, List.filter_append, verdicts_append, hx, hy]
  exact ⟨hcaps'', rfl⟩

theorem traces_all {α : Type} {f : α → Walk Capacities Finding} {es : α → List Event} {as : List α}
    (h : ∀ a ∈ as, Traces base (es a) (f a)) :
    Traces base (as.flatMap es) (.all (as.map f)) := by
  induction as with
  | nil => exact traces_skip
  | cons a as ih =>
    rw [List.flatMap_cons, List.map_cons, Walk.all_cons]
    exact (h a (by simp)).andThen (ih fun a' ha' => h a' (by simp [ha']))

/-- A copy of the table sees what is enclosed, and the table itself does not. -/
theorem Traces.fork (h : Traces base es w) (hes : Closed es) :
    Traces base (enclosed es) w.fork := by
  intro past caps caps' xs hcaps hw
  obtain ⟨rfl, caps'', hw⟩ := Walk.fork_eq_ok.1 hw
  obtain ⟨-, hx⟩ := h (.enter :: past) _ caps'' xs hcaps hw
  refine ⟨fun name => ?_, hx.trans (verdicts_enclosed _ past es).symm⟩
  rw [known, latest_enclosed hes]
  exact hcaps name

theorem known_array (name : String) (size : Expr) (other : String) :
    known base (.array name size :: past) other =
      if (Event.array name size).records other then (Event.array name size).capacity?
      else known base past other := by
  simp only [known, latest, true_and]
  split <;> rfl

theorem known_plain (name other : String) :
    known base (.plain name :: past) other =
      if (Event.plain name).records other then none else known base past other := by
  simp only [known, latest, true_and]
  split <;> rfl

theorem Knows.set (h : Knows base past caps) (name : String) {c : Int} (hc : 0 ≤ c) :
    Knows base (.array name (.intLit c) :: past) (caps.set name c) := by
  intro other
  rw [Table.get?_set, known_array, ← h other]
  by_cases hn : other = name
  · simp [Event.records, Event.declares, Event.sized, Event.capacity?, hn, hc]
  · simp [Event.records, Event.declares, hn, Ne.symm hn]

/-- An array without a literal size changes nothing. -/
theorem Knows.pass_over (h : Knows base past caps) (name : String) {size : Expr}
    (hsize : (Event.array name size).sized = false) :
    Knows base (.array name size :: past) caps := by
  intro other
  rw [known_array, Event.records, hsize, Bool.and_false, if_neg Bool.false_ne_true]
  exact h other

theorem Knows.erase (h : Knows base past caps) (name : String) :
    Knows base (.plain name :: past) (caps.erase name) := by
  intro other
  rw [Table.get?_erase, known_plain, ← h other]
  by_cases hn : other = name
  · simp [Event.records, Event.declares, Event.sized, hn]
  · simp [Event.records, Event.declares, hn, Ne.symm hn]

theorem traces_erase (name : String) : Traces base [.plain name] (.update (·.erase name)) := by
  intro past caps caps' xs hcaps h
  cases h
  exact ⟨hcaps.erase name, rfl⟩

theorem traces_declareArray (name : String) (size : Expr) :
    Traces base [.array name size] (declareArray name size) := by
  intro past caps caps' xs hcaps h
  cases size with
  | intLit c =>
    by_cases hc : 0 ≤ c
    · rw [declareArray, if_pos hc] at h
      cases h
      exact ⟨hcaps.set name hc, rfl⟩
    · rw [declareArray, if_neg hc] at h
      cases h
      exact ⟨hcaps.pass_over name (decide_eq_false hc), rfl⟩
  | _ =>
    cases h
    exact ⟨hcaps.pass_over name rfl, rfl⟩

theorem traces_access (name : String) (i : Expr) :
    Traces base [.access name i] (access name i) := by
  intro past caps caps' xs hcaps h
  have hknown : Knows base (.access name i :: past) caps := hcaps
  cases hc : caps.get? name with
  | none =>
    simp only [access, Walk.look, hc] at h
    cases h
    refine ⟨hknown, ?_⟩
    cases i with
    | intLit n =>
      rw [verdicts, Event.verdict, ← hcaps name, hc]
      rfl
    | _ => rfl
  | some c =>
    cases i with
    | intLit n =>
      simp only [access, Walk.look, hc] at h
      rw [verdicts, Event.verdict, ← hcaps name, hc]
      split at h
      next hout =>
        cases h
        exact ⟨hknown, by simp [verdicts, hout, Finding.isOutside, Finding.diagnostic]⟩
      next hin =>
        cases h
        exact ⟨hknown, by simp [verdicts, hin]⟩
    | _ =>
      simp only [access, Walk.look, hc] at h
      cases h
      exact ⟨hknown, rfl⟩

theorem traces_expr (base : Capacities) (d : Nat) (e : Expr) :
    Traces base e.trace (expr d e) := by
  induction d generalizing e with
  | zero => exact traces_fail .tooDeep
  | succ d ih =>
    cases e with
    | absent => exact traces_fail .absentExpr
    | foreign kind => exact traces_unsupported kind
    | ident | varRef | addr | intLit | stringLit => exact traces_skip
    | arrayDecl name size => exact (ih size).andThen (traces_declareArray name size)
    | index name i => exact (ih i).andThen (traces_access name i)
    | call f args =>
      rw [Expr.trace, Expr.traceOf_eq]
      exact traces_all fun a _ => ih a
    | deref x => exact ih x
    | binary op left right => exact (ih left).andThen (ih right)
    | assign target value => exact (ih target).andThen (ih value)

theorem traces_ifExpr (base : Capacities) (d : Nat) (e : Expr) :
    Traces base e.trace (ifExpr e (expr d e)) := by
  cases e with
  | absent => exact traces_skip
  | _ => exact traces_expr base d _

theorem traces_declare (base : Capacities) (d : Nat) (name : String) (init : Expr) :
    Traces base (init.trace ++ [.plain name]) (declare d name init) :=
  (traces_ifExpr base d init).andThen (traces_erase name)

theorem traces_ifStmt {s : Stmt} (habsent : s = .absent → Traces base es .skip)
    (h : Traces base es w) : Traces base es (ifStmt s w) := by
  cases s with
  | absent => exact habsent rfl
  | _ => exact h

theorem traces_stmt (base : Capacities) (d : Nat) (s : Stmt) :
    Traces base s.trace (pass.stmt d s) := by
  induction d generalizing s with
  | zero => exact traces_fail .tooDeep
  | succ d ih =>
    cases s with
    | absent => exact traces_fail .absentStmt
    | foreign kind => exact traces_unsupported kind
    | block ss =>
      rw [Stmt.trace, Stmt.traceOf_eq]
      exact traces_all fun s _ => ih s
    | expr x => exact traces_expr base d x
    | decl name init => exact traces_declare base d name init
    | cond test yes no =>
      have hno : Traces base (enclosed no.trace) (ifStmt no (pass.stmt d no).fork) := by
        refine traces_ifStmt ?_ ((ih no).fork (closed_stmt no))
        rintro rfl
        exact traces_skip.fork closed_nil
      exact (traces_expr base d test).andThen (((ih yes).fork (closed_stmt yes)).andThen hno)
    | loop init test post body =>
      have hinit : Traces base init.trace (ifStmt init (pass.stmt d init)) := by
        refine traces_ifStmt ?_ (ih init)
        rintro rfl
        exact traces_skip
      refine Traces.fork ?_ ?_
      · exact hinit.andThen ((traces_ifExpr base d test).andThen
          ((ih body).andThen (traces_ifExpr base d post)))
      · exact (closed_stmt init).append ((closed_expr test).append
          ((closed_stmt body).append (closed_expr post)))
    | ret x => exact traces_ifExpr base d x
    | jump kind => exact traces_skip

/-- Parameters are declared in order, in front of the body. -/
theorem traces_enter (base : Capacities) (params : List Param) :
    Traces base (params.map fun p => .plain p.name) (.update (pass.enter params)) := by
  induction params with
  | nil => exact traces_skip
  | cons p params ih => exact (traces_erase p.name).andThen ih

theorem traces_decl (base : Capacities) (depth : Nat) (d : Decl) :
    Traces base d.trace (pass.decl depth d) := by
  cases d with
  | absent => exact traces_fail .absentDecl
  | foreign kind => exact traces_unsupported kind
  | func name params ret body =>
    have hparams := traces_enter base params
    refine traces_ifStmt ?_ ?_
    · -- a prototype has nothing behind its parameters
      rintro rfl
      exact (hparams.andThen traces_skip).fork ((closed_params params).append closed_nil)
    · exact (hparams.andThen (traces_stmt base depth body)).fork
        ((closed_params params).append (closed_stmt body))
  | var name init => exact traces_declare base depth name init
  | stmt s => exact traces_stmt base depth s

/-! ### Arrays with literal sizes -/

theorem known_eq_reaching (h : ∀ e ∈ past, e.sized = true) : known .empty past = reaching past := by
  funext name
  have hlatest : latest (·.records name) 0 past = latest (·.declares name) 0 past :=
    latest_congr (fun e he => by rw [Event.records, h e he, Bool.and_true]) 0
  rw [known, reaching, hlatest]
  cases latest (·.declares name) 0 past <;> rfl

theorem verdicts_of_sized (hpast : ∀ e ∈ past, e.sized = true) (hes : ∀ e ∈ es, e.sized = true) :
    verdicts (known .empty) past es = verdicts reaching past es := by
  induction es generalizing past with
  | nil => rfl
  | cons e es ih =>
    obtain ⟨he, hes⟩ := List.forall_mem_cons.1 hes
    rw [verdicts, verdicts, known_eq_reaching hpast, ih (List.forall_mem_cons.2 ⟨he, hpast⟩) hes]

/-- If every array in a file has a literal size that is not negative, the bounds check reports, one
after the other, the literal accesses outside the array that reaches them, and no others. -/
theorem accesses_judged_by_reaching_declaration {o : Options} {ds : List Decl}
    {xs : List Diagnostic} (h : analyzeFile o ds = .ok xs)
    (hsized : ∀ e ∈ ds.flatMap Decl.trace, e.sized = true) :
    xs.filter (·.kind = .outOfBounds) =
      (verdicts reaching [] (ds.flatMap Decl.trace)).map Finding.diagnostic := by
  obtain ⟨caps, ys, hrun, rfl⟩ := report_eq_ok.1 h
  have htraces := traces_all fun d (_ : d ∈ ds) => traces_decl .empty o.depth d
  obtain ⟨-, hys⟩ := htraces [] .empty caps ys (knows_self .empty) hrun
  rw [List.filter_map, ← verdicts_of_sized (List.forall_mem_nil _) hsized, ← hys]
  rfl

/-- A parameter hides the array; a block in a function declares it anew for what follows, a branch
does not, and the initialiser of a variable is still an access to it. -/
theorem accesses_judged_by_reaching_declaration_at_shadows :
    let declared (c : Int) : Stmt := .expr (.arrayDecl "a" (.intLit c))
    let entry (i : Int) : Expr := .index "a" (.intLit i)
    let int : DeclType := .base .int
    let ds : List Decl := [.stmt (declared 3),
      .func "f" [⟨"a", .pointer int⟩] int (.ret (entry 5)),
      .func "g" [] int (.block [.block [declared 8], .expr (.assign (entry 8) (entry 7)),
        .cond (entry (-1)) (declared 1) .absent, .expr (.index "a" (entry 9)), .decl "a" (entry 10),
        .ret (entry 11)]),
      .stmt (.expr (entry 3))]
    (∀ e ∈ ds.flatMap Decl.trace, e.sized = true) ∧
    ∃ xs, analyzeFile {} ds = .ok xs ∧ xs.filter (·.kind = .outOfBounds) =
      [Finding.outOfBounds "a" 8 8, .outOfBounds "a" (-1) 8, .outOfBounds "a" 9 8,
        .outOfBounds "a" 10 8, .outOfBounds "a" 3 3].map Finding.diagnostic := by
  intro declared entry int ds
  have hsized : ∀ e ∈ ds.flatMap Decl.trace, e.sized = true := List.all_eq_true.1 rfl
  obtain ⟨xs, hxs⟩ : ∃ xs, analyzeFile {} ds = .ok xs := ⟨_, rfl⟩
  exact ⟨hsized, xs, hxs, accesses_judged_by_reaching_declaration hxs hsized⟩

end Check.Bounds

end MemLint
