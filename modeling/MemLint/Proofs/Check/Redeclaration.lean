import Mathlib.Tactic.ByContra
import MemLint.Proofs.Check.Reaching
import MemLint.Proofs.Check.Success

/-! Declaring a name again in the bounds check. Behind a variable, a parameter or an array with a
literal size, what is known of the name comes from that declaration alone. An array whose size is no
literal leaves the capacity that the name had, and accesses are held against it until the name is
declared once more. -/

namespace MemLint.Check.Bounds

/-! ### Declarations -/

/-- How a name is declared. -/
inductive Declaration where
  | array (size : Expr)
  /-- A variable that is no array; `init` may be absent. -/
  | scalar (init : Expr)
  | parameter (type : DeclType)

namespace Declaration

/-- What the check does at a declaration of the name, with `d` levels to go. -/
def walk (d : Nat) (name : String) : Declaration → Walk Capacities Finding
  | array size => expr d (.arrayDecl name size)
  | scalar init => declare d name init
  | parameter type => .update (pass.enter [⟨name, type⟩])

def trace (name : String) : Declaration → List Event
  | array size => (Expr.arrayDecl name size).trace
  | scalar init => init.trace ++ [.plain name]
  | parameter _ => [.plain name]

/-- The check takes note of the declaration: of any but an array whose size is no literal, or a
negative one, unless an array of the name is declared inside the size. -/
def Recorded (name : String) : Declaration → Prop
  | array size =>
    (∃ c, 0 ≤ c ∧ size = .intLit c) ∨ ∃ e ∈ size.trace, e.records name = true
  | scalar _ | parameter _ => True

theorem recorded_iff {name : String} {decl : Declaration} :
    decl.Recorded name ↔ ∃ e ∈ decl.trace name, e.records name = true := by
  cases decl with
  | array size =>
    have hsize : (Event.array name size).records name = true ↔ ∃ c, 0 ≤ c ∧ size = .intLit c := by
      cases size <;> simp [Event.records, Event.declares, Event.sized]
    simp [Recorded, trace, Expr.trace, or_and_right, exists_or, hsize, or_comm]
  | scalar init => simp [Recorded, trace, or_and_right, exists_or, Event.records, Event.declares,
      Event.sized]
  | parameter type => simp [Recorded, trace, Event.records, Event.declares, Event.sized]

theorem traces (base : Capacities) (d : Nat) (name : String) (decl : Declaration) :
    Traces base (decl.trace name) (decl.walk d name) := by
  cases decl with
  | array size => exact traces_expr base d _
  | scalar init => exact traces_declare base d name init
  | parameter type => exact traces_enter base [⟨name, type⟩]

theorem succeeds (d : Nat) (name : String) (decl : Declaration) :
    ∃ P, (decl.walk d name).SucceedsIff P := by
  cases decl with
  | array size => exact ⟨_, succeedsIff_expr d _⟩
  | scalar init => exact ⟨_, succeedsIff_declare d name init⟩
  | parameter type => exact ⟨_, Walk.succeedsIff_update _⟩

end Declaration

/-! ### Traces without branches -/

/-- Nothing starts or ends in the trace. -/
def Flat (es : List Event) : Prop := ∀ e ∈ es, e ≠ .enter ∧ e ≠ .leave

theorem Flat.append {es es' : List Event} (h : Flat es) (h' : Flat es') : Flat (es ++ es') :=
  List.forall_mem_append.2 ⟨h, h'⟩

theorem flat_expr (e : Expr) : Flat e.trace := by
  induction e using Expr.induct with
  | call f args ih =>
    rw [Expr.trace, Expr.traceOf_eq]
    intro e he
    obtain ⟨a, ha, he⟩ := List.mem_flatMap.1 he
    exact ih a ha e he
  | deref x ih => exact ih
  | binary op left right hleft hright => exact hleft.append hright
  | assign target value htarget hvalue => exact htarget.append hvalue
  | index name i ih => exact ih.append (by simp [Flat])
  | arrayDecl name size ih => exact ih.append (by simp [Flat])
  | _ => exact List.forall_mem_nil _

theorem flat_declaration (name : String) (decl : Declaration) : Flat (decl.trace name) := by
  cases decl with
  | array size => exact flat_expr _
  | scalar init => exact (flat_expr init).append (by simp [Flat])
  | parameter type => simp [Flat, Declaration.trace]

theorem latest_eq_find? {past : List Event} (h : Flat past) (p : Event → Bool) :
    latest p 0 past = past.find? p := by
  induction past with
  | nil => rfl
  | cons e past ih =>
    obtain ⟨he, hpast⟩ := List.forall_mem_cons.1 h
    rw [List.find?_cons, ← ih hpast]
    cases e with
    | enter => exact (he.1 rfl).elim
    | leave => exact (he.2 rfl).elim
    | _ =>
      simp only [latest, true_and]
      split <;> simp_all

theorem latest_eq_none {p : Event → Bool} {past : List Event} (h : ∀ e ∈ past, p e = false)
    (ended : Nat) : latest p ended past = none := by
  induction past generalizing ended with
  | nil => rfl
  | cons e past ih =>
    have hpast := ih fun e he => h e (by simp [he])
    cases e <;> simp [latest, hpast, h]

/-! ### The capacity behind a declaration -/

section Behind

variable {name : String} {decl : Declaration} {d : Nat} {caps caps₁ : Capacities}
  {xs : List Finding}

theorem get?_of_walk (h : decl.walk d name caps = .ok (caps₁, xs)) :
    caps₁.get? name = ((decl.trace name).reverse.find? (·.records name)).elim (caps.get? name)
      Event.capacity? := by
  have hflat : Flat (decl.trace name).reverse := fun e he =>
    flat_declaration name decl e (List.mem_reverse.1 he)
  obtain ⟨hknows, -⟩ := decl.traces caps d name [] caps caps₁ xs (knows_self caps) h
  rw [hknows name, List.append_nil, known, latest_eq_find? hflat]

/-- A declaration that is not recorded leaves the capacity that the name had. -/
theorem get?_of_not_recorded (h : decl.walk d name caps = .ok (caps₁, xs))
    (hdecl : ¬ decl.Recorded name) : caps₁.get? name = caps.get? name := by
  have hfind : (decl.trace name).reverse.find? (·.records name) = none := by
    refine List.find?_eq_none.2 fun e he hrecords => hdecl ?_
    exact Declaration.recorded_iff.2 ⟨e, List.mem_reverse.1 he, hrecords⟩
  rw [get?_of_walk h, hfind]
  rfl

/-- A recorded declaration gives the name the same capacity whatever the table held before. -/
theorem get?_of_recorded (h : decl.walk d name caps = .ok (caps₁, xs))
    (hdecl : decl.Recorded name) {other other₁ : Capacities} {ys : List Finding}
    (hother : decl.walk d name other = .ok (other₁, ys)) : other₁.get? name = caps₁.get? name := by
  obtain ⟨e, he, hrecords⟩ := Declaration.recorded_iff.1 hdecl
  have hsome : ((decl.trace name).reverse.find? (·.records name)).isSome = true :=
    List.find?_isSome.2 ⟨e, List.mem_reverse.2 he, hrecords⟩
  obtain ⟨e', hfind⟩ := Option.isSome_iff_exists.1 hsome
  rw [get?_of_walk h, get?_of_walk hother, hfind]
  rfl

/-- For each table there is one that holds something else for the name. -/
theorem exists_get?_ne (caps : Capacities) (name : String) :
    ∃ other : Capacities, other.get? name ≠ caps.get? name := by
  cases h : caps.get? name with
  | none => exact ⟨caps.set name 0, by simp⟩
  | some c => exact ⟨caps.erase name, by simp⟩

theorem recorded_of_independent (h : decl.walk d name caps = .ok (caps₁, xs))
    (hall : ∀ other other₁ ys, decl.walk d name other = .ok (other₁, ys) →
      other₁.get? name = caps₁.get? name) : decl.Recorded name := by
  by_contra hdecl
  obtain ⟨other, hne⟩ := exists_get?_ne caps name
  obtain ⟨P, hP⟩ := decl.succeeds d name
  obtain ⟨⟨other₁, ys⟩, hother⟩ := (hP other).2 ((hP caps).1 ⟨_, h⟩)
  have hsame := hall other other₁ ys hother
  rw [get?_of_not_recorded hother hdecl, get?_of_not_recorded h hdecl] at hsame
  exact hne hsame

end Behind

/-! ### Accesses behind a declaration -/

theorem mem_verdict {capacity : String → Option Int} {e : Event} {name : String} {i c : Int} :
    .outOfBounds name i c ∈ e.verdict capacity ↔
      e = .access name (.intLit i) ∧ capacity name = some c ∧ (i < 0 ∨ c ≤ i) := by
  constructor
  · intro h
    unfold Event.verdict at h
    split at h
    · split at h
      next hc =>
        split at h
        next hout =>
          cases List.mem_singleton.1 h
          exact ⟨rfl, hc, hout⟩
        next => cases h
      next => cases h
    next => cases h
  · rintro ⟨rfl, hc, hout⟩
    simp [Event.verdict, hc, hout]

/-- A finding along a trace belongs to a literal access outside the capacity at its place. -/
theorem mem_verdicts {capacity : List Event → String → Option Int} {past es : List Event}
    {name : String} {i c : Int} :
    .outOfBounds name i c ∈ verdicts capacity past es ↔
      ∃ before after, es = before ++ .access name (.intLit i) :: after ∧
        capacity (before.reverse ++ past) name = some c ∧ (i < 0 ∨ c ≤ i) := by
  induction es generalizing past with
  | nil => simp [verdicts]
  | cons e es ih =>
    rw [verdicts, List.mem_append, mem_verdict, ih]
    constructor
    · rintro (⟨rfl, hc, hout⟩ | ⟨before, after, rfl, hc, hout⟩)
      · exact ⟨[], es, rfl, hc, hout⟩
      · exact ⟨e :: before, after, rfl, by simpa using hc, hout⟩
    · rintro ⟨before, after, heq, hc, hout⟩
      cases before with
      | nil =>
        cases heq
        exact .inl ⟨rfl, hc, hout⟩
      | cons b before =>
        cases heq
        exact .inr ⟨before, after, rfl, by simpa using hc, hout⟩

theorem mem_of_isOutside {xs ys : List Finding} (h : xs.filter Finding.isOutside = ys)
    {name : String} {i c : Int} : .outOfBounds name i c ∈ xs ↔ .outOfBounds name i c ∈ ys := by
  rw [← h, List.mem_filter]
  exact ⟨fun hx => ⟨hx, rfl⟩, And.left⟩

/-- While a name is not declared, the accesses to it are held against the capacity that the table
has for it. -/
theorem reported_iff {d : Nat} {s : Stmt} {name : String} {caps caps' : Capacities}
    {xs : List Finding} (hrun : pass.stmt d s caps = .ok (caps', xs))
    (hs : ∀ e ∈ s.trace, e.declares name = false) {i c : Int} :
    .outOfBounds name i c ∈ xs ↔
      .access name (.intLit i) ∈ s.trace ∧ caps.get? name = some c ∧ (i < 0 ∨ c ≤ i) := by
  obtain ⟨-, hxs⟩ := traces_stmt caps d s [] caps caps' xs (knows_self caps) hrun
  have hknown {before after : List Event} (hsplit : s.trace = before ++ after) :
      known caps (before.reverse ++ []) name = caps.get? name := by
    have hnone : latest (·.records name) 0 (before.reverse ++ []) = none := by
      refine latest_eq_none (fun e he => ?_) 0
      have hmem : e ∈ s.trace := by
        rw [hsplit]
        exact List.mem_append_left _ (by simpa using he)
      rw [Event.records, hs e hmem, Bool.false_and]
    rw [known, hnone]
    rfl
  rw [mem_of_isOutside hxs, mem_verdicts]
  constructor
  · rintro ⟨before, after, hsplit, hc, hout⟩
    refine ⟨?_, (hknown hsplit).symm.trans hc, hout⟩
    rw [hsplit]
    exact List.mem_append_right _ (List.mem_cons_self ..)
  · rintro ⟨hmem, hc, hout⟩
    obtain ⟨before, after, hsplit⟩ := List.append_of_mem hmem
    exact ⟨before, after, hsplit, (hknown hsplit).trans hc, hout⟩

/-- What is known of a name behind a declaration comes from the declaration alone exactly if it is
recorded. Otherwise the name keeps the capacity that it had, and the accesses to it that follow pass
exactly if they are inside. -/
theorem last_declaration_wins_iff {decl : Declaration} {d : Nat} {name : String}
    {caps caps₁ : Capacities} {xs : List Finding} (h : decl.walk d name caps = .ok (caps₁, xs)) :
    ((∀ other other₁ ys, decl.walk d name other = .ok (other₁, ys) →
      other₁.get? name = caps₁.get? name) ↔ decl.Recorded name) ∧
    (¬ decl.Recorded name → caps₁.get? name = caps.get? name) ∧
    ∀ {d' s caps₂ ys}, pass.stmt d' s caps₁ = .ok (caps₂, ys) →
      (∀ e ∈ s.trace, e.declares name = false) →
      ((∀ i c, .outOfBounds name i c ∉ ys) ↔ ∀ c, caps₁.get? name = some c →
        ∀ i, .access name (.intLit i) ∈ s.trace → 0 ≤ i ∧ i < c) := by
  refine ⟨⟨recorded_of_independent h, fun hdecl other other₁ ys => get?_of_recorded h hdecl⟩,
    get?_of_not_recorded h, fun {d' s caps₂ ys} hrun hs => ?_⟩
  simp only [reported_iff hrun hs]
  constructor
  · intro hnone c hc i hmem
    by_contra hout
    exact hnone i c ⟨hmem, hc, by omega⟩
  · rintro hall i c ⟨hmem, hc, hout⟩
    have := hall c hc i hmem
    omega

/-- Behind an array of three elements, one of a computed size: the name keeps the three, and the
sixth element is reported. -/
theorem last_declaration_wins_iff_at_computed_size :
    let decl : Declaration := .array (.ident "n")
    let s : Stmt := .expr (.assign (.index "a" (.intLit 5)) (.intLit 1))
    let caps : Capacities := Table.empty.set "a" 3
    decl.walk 2 "a" caps = .ok (caps, []) ∧
    (¬ ∀ other other₁ ys, decl.walk 2 "a" other = .ok (other₁, ys) →
      other₁.get? "a" = caps.get? "a") ∧
    ∃ ys, pass.stmt 4 s caps = .ok (caps, ys) ∧ ¬ ∀ i c, .outOfBounds "a" i c ∉ ys := by
  intro decl s caps
  have hdecl : decl.walk 2 "a" caps = .ok (caps, []) := rfl
  have hrun : pass.stmt 4 s caps = .ok (caps, [.outOfBounds "a" 5 3]) := rfl
  have hs : ∀ e ∈ s.trace, e.declares "a" = false := List.forall_mem_singleton.2 rfl
  have hnot : ¬ decl.Recorded "a" := by simp [decl, Declaration.Recorded, Expr.trace]
  obtain ⟨hwins, -, hreported⟩ := last_declaration_wins_iff hdecl
  refine ⟨hdecl, mt hwins.1 hnot, _, hrun, fun hnone => ?_⟩
  have hinside := (hreported hrun hs).1 hnone 3 rfl 5 (List.mem_singleton.2 rfl)
  omega

end MemLint.Check.Bounds
