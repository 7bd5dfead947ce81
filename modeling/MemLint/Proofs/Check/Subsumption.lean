import MemLint.Proofs.Check.Clean
import MemLint.Proofs.Check.Simulation

/-! The pointer check subsumes the memory check: it finds every double free and every null
dereference that the memory check finds. What the memory check knows of a name bounds what the
pointer check holds of it. A freed name is dead, a name with an allocation is live, and a name with
null is not live. -/

namespace MemLint

/-- Expressions that assign nothing and declare no array. -/
def NodeRule.still : NodeRule where
  expr
    | .assign .. | .arrayDecl .. => False
    | _ => True

/-- What is assigned to can be assigned to, no name of the null pointer is declared or assigned, and
an index changes no name. -/
def NodeRule.tracked (p : Check.Primitives) : NodeRule where
  expr
    | .assign target _ => target.assignable ∧ ∀ n, target.name? = some n → p.isNull n = false
    | .arrayDecl n _ => p.isNull n = false
    | .index _ i => i.Every .still
    | _ => True
  stmt
    | .decl n _ => p.isNull n = false
    | _ => True
  decl
    | .var n _ => p.isNull n = false
    | _ => True

namespace Check

/-! ### What the pointer check holds of a value -/

namespace Pointer.Context

variable (c : Context)

/-- What a copy of a name holds. -/
def held (s : State) (name : String) : Hold := if c.isLive s name then .live else .dead

@[simp] theorem isLive_set {s : State} {name other : String} {h : Hold}
    (hn : c.primitives.isNull name = false) :
    c.isLive (s.set name h) other = if other = name then h == .live else c.isLive s other := by
  simp only [isLive, Table.get?_set]
  split
  next heq => simp [heq, hn]
  next => rfl

/-- A value that may not be passed for a pointer brings nothing that is live. -/
theorem produces_of_not_isPointer {s : State} {e : Expr} (h : c.isPointer s e = false) :
    c.produces s e = .dead := by
  induction e using Expr.induct with
  | ident n =>
    simp only [isPointer, Bool.or_eq_false_iff] at h
    simp [produces, h.2]
  | call f args =>
    simp only [isPointer] at h
    simp [produces, h]
  | assign target value _ ih =>
    rw [produces]
    exact ih (by simpa only [isPointer] using h)
  | binary op left right ih =>
    cases op
    case add | sub =>
      simp only [isPointer] at h
      simp [produces, h]
    all_goals rfl
  | varRef | addr | deref | stringLit => simp [isPointer] at h
  | _ => rfl

/-- A pointer and an offset bring what the pointer brings. -/
theorem produces_offset {op : BinOp} (hop : op = .add ∨ op = .sub) (s : State)
    (left right : Expr) : c.produces s (.binary op left right) = c.produces s left := by
  have hif : c.produces s (.binary op left right) =
      if c.isPointer s left then c.produces s left else .dead := by
    rcases hop with rfl | rfl <;> rfl
  rw [hif]
  split
  · rfl
  next h => exact (c.produces_of_not_isPointer (by simpa using h)).symm

/-- A variable that was given a value does not change what the value brings. -/
theorem produces_set {s : State} {name : String} (hn : c.primitives.isNull name = false)
    (e : Expr) : c.produces (s.set name (c.produces s e)) e = c.produces s e := by
  induction e using Expr.induct with
  | ident n | varRef n =>
    simp only [produces, c.isLive_set hn]
    by_cases h : n = name <;> cases c.isLive s n <;> simp [h]
  | assign target value _ ih => simpa only [produces] using ih
  | binary op left right ih =>
    cases op
    case add => simpa only [c.produces_offset (.inl rfl)] using ih
    case sub => simpa only [c.produces_offset (.inr rfl)] using ih
    all_goals rfl
  | _ => rfl

/-- After a value that carries the state of a name was walked, it brings what the name holds. -/
theorem produces_walked {d : Nat} {e : Expr} {s s' : State} {ys : List Finding} {name : String}
    (he : e.Every (.tracked c.primitives)) (hsource : Memory.source? e = some name)
    (h : c.expr d e s = .ok (s', ys)) : c.produces s' e = c.held s' name := by
  cases e with
  | ident n | varRef n =>
    cases hsource
    rfl
  | assign target value =>
    obtain ⟨hassignable, hnull⟩ := he.here
    have hname : target.name? = some name := by
      cases target with
      | ident | varRef | deref | index => exact hsource
      | _ => cases hassignable
    have hn := hnull name hname
    cases d with
    | zero => cases h
    | succ d =>
      have hbind : c.bind (c.expr d) name value s = .ok (s', ys) := by
        cases target with
        | ident | varRef =>
          cases hname
          exact h
        | _ => cases hname
      obtain ⟨s₁, xs, zs, -, hset, -⟩ := Walk.andThen_eq_ok.1 hbind
      cases hset
      rw [produces, c.produces_set hn, held, c.isLive_set hn]
      cases c.produces s₁ value <;> simp
  | _ => cases hsource

/-! ### Names that are not live -/

theorem keeps_free {name other : String} (hn : c.primitives.isNull name = false) :
    (free name).Keeps fun s => c.isLive s other = false := by
  refine Walk.keeps_look fun s => ?_
  split
  · exact Walk.keeps_note _
  · exact Walk.keeps_note _
  · refine Walk.keeps_update fun s hs => ?_
    rw [c.isLive_set hn, hs]
    simp

theorem keeps_deref {I : State → Prop} (name : String) : (c.deref name).Keeps I := by
  refine Walk.keeps_look fun s => ?_
  split
  · exact Walk.keeps_skip
  · exact Walk.keeps_note _

theorem keeps_checkCall {I : State → Prop} (f : String) (args : List Expr) :
    (c.checkCall f args).Keeps I := by
  refine Walk.keeps_look fun s => ?_
  split
  · exact Walk.keeps_skip
  · split <;> exact Walk.keeps_note _

/-- An expression that assigns nothing and declares no array makes no name live. -/
theorem keeps_of_still {d : Nat} {e : Expr} (he : e.Every .still) (name : String) :
    (c.expr d e).Keeps fun s => c.isLive s name = false := by
  induction d generalizing e with
  | zero => exact Walk.keeps_fail .tooDeep
  | succ d ih =>
    cases e with
    | absent => exact Walk.keeps_fail .absentExpr
    | foreign kind => exact Walk.keeps_note _
    | ident | varRef | addr | intLit | stringLit => exact Walk.keeps_skip
    | call f args =>
      simp only [expr, call]
      split
      next freed _ =>
        split
        · exact Walk.keeps_skip
        next hn => exact c.keeps_free (by simpa using hn)
      next =>
        refine (Walk.keeps_all fun w hw => ?_).andThen (c.keeps_checkCall f args)
        obtain ⟨a, ha, rfl⟩ := List.mem_map.1 hw
        exact ih (he.args a ha)
    | deref x =>
      simp only [expr]
      split
      · exact c.keeps_deref _
      · exact ih he.2
    | binary op left right => exact (ih he.2.1).andThen (ih he.2.2)
    | index n i => exact (ih he.2).andThen (c.keeps_deref n)
    | assign | arrayDecl => exact he.here.elim

end Pointer.Context

/-! ### The link between the two checks -/

/-- The number of diagnostics of a kind about a name. -/
def tally (kind : Diagnostic.Kind) (name : String) (ds : List Diagnostic) : Nat :=
  ds.countP fun d => d.kind = kind ∧ d.name = name

theorem tally_append (kind : Diagnostic.Kind) (name : String) (ds ds' : List Diagnostic) :
    tally kind name (ds ++ ds') = tally kind name ds + tally kind name ds' := List.countP_append

/-- The marks hold neither an allocation nor null. -/
structure Memory.Marks.Idle (m : Memory.Marks) : Prop where
  allocated : m.allocated = false
  freed : m.freed = false
  null : m.null = false

theorem Memory.idle_default : ({} : Memory.Marks).Idle := ⟨rfl, rfl, rfl⟩

/-- What the pointer check holds of a name that has these marks in the memory check. -/
structure Fits (m : Memory.Marks) (h : Option Pointer.Hold) : Prop where
  freed : m.freed → h = some .dead
  live : m.allocated → m.freed = false → h = some .live
  null : m.null → h ≠ some .live

theorem Memory.Marks.Idle.fits {m : Memory.Marks} (hm : m.Idle) (h : Option Pointer.Hold) :
    Fits m h := by
  refine ⟨fun hf => ?_, fun ha => ?_, fun hn => ?_⟩
  · simp [hm.freed] at hf
  · simp [hm.allocated] at ha
  · simp [hm.null] at hn

/-- The states of the two checks after the same part of a file. The memory check knows nothing of a
name of the null pointer. -/
structure Agree (p : Primitives) (s : Memory.State) (t : Pointer.State) : Prop where
  fits : ∀ n, Fits (Memory.marks s n) (t.get? n)
  idle : ∀ n, p.isNull n → (Memory.marks s n).Idle

theorem agree_empty (p : Primitives) : Agree p .empty .empty :=
  ⟨fun _ => Memory.idle_default.fits _, fun _ _ => Memory.idle_default⟩

/-- Only what is known of one name changes. -/
theorem Agree.change {p : Primitives} {s s' : Memory.State} {t t' : Pointer.State}
    (h : Agree p s t) (name : String)
    (hs : ∀ n, n ≠ name → Memory.marks s' n = Memory.marks s n)
    (ht : ∀ n, n ≠ name → t'.get? n = t.get? n)
    (hfits : Fits (Memory.marks s' name) (t'.get? name))
    (hidle : p.isNull name → (Memory.marks s' name).Idle) : Agree p s' t' := by
  refine ⟨fun n => ?_, fun n hn => ?_⟩
  · by_cases hname : n = name
    · rw [hname]
      exact hfits
    · rw [hs n hname, ht n hname]
      exact h.fits n
  · by_cases hname : n = name
    · rw [hname] at hn ⊢
      exact hidle hn
    · rw [hs n hname]
      exact h.idle n hn

/-- The kinds of findings that both checks can have. -/
def shared : List Diagnostic.Kind := [.doubleFree, .nullPointerDereference]

def link (p : Primitives) : Link Memory.State Pointer.State Memory.Finding Pointer.Finding where
  states := Agree p
  covers xs ys := ∀ kind ∈ shared, ∀ name,
    tally kind name (xs.map Memory.Finding.diagnostic) ≤
      tally kind name (ys.map Pointer.Finding.diagnostic)
  covers_nil _ := fun _ _ _ => Nat.zero_le _
  covers_append h h' := by
    intro kind hk name
    rw [List.map_append, List.map_append, tally_append, tally_append]
    exact Nat.add_le_add (h kind hk name) (h' kind hk name)

/-- Findings of other kinds need no counterpart. -/
theorem covers_of_other {p : Primitives} {xs : List Memory.Finding}
    (h : ∀ x ∈ xs, x.diagnostic.kind ∉ shared) (ys : List Pointer.Finding) :
    (link p).covers xs ys := by
  intro kind hk name
  have hzero : tally kind name (xs.map Memory.Finding.diagnostic) = 0 := by
    refine List.countP_eq_zero.2 fun d hd => ?_
    obtain ⟨x, hx, rfl⟩ := List.mem_map.1 hd
    have hne : x.diagnostic.kind ≠ kind := fun heq => h x hx (heq ▸ hk)
    simp [hne]
  rw [hzero]
  exact Nat.zero_le _

/-! ### What happens to a name -/

section Names

variable {p : Primitives}

theorem read_quiet (name : String) (s : Memory.State) :
    ∃ xs, Memory.read name s = .ok (s, xs) ∧ (link p).covers xs [] := by
  simp only [Memory.read, Walk.look]
  split
  · refine ⟨_, rfl, covers_of_other (fun x hx => ?_) []⟩
    rw [List.mem_singleton.1 hx]
    simp [Memory.Finding.diagnostic, shared]
  · exact ⟨[], rfl, (link p).covers_nil []⟩

/-- The memory check finds a null dereference where the name is null. -/
theorem deref_walked (name : String) (s : Memory.State) :
    ∃ xs, Memory.deref name s = .ok (s, xs) ∧
      ∀ ys, ((Memory.marks s name).null → ys = [.nullDereference name]) →
        (link p).covers xs ys := by
  obtain ⟨xs, hread, hx⟩ := read_quiet (p := p) name s
  by_cases hnull : (Memory.marks s name).null
  · have hnote : Memory.deref name s = .ok (s, xs ++ [.nullDereference name]) :=
      Walk.andThen_eq_ok.2 ⟨s, xs, _, hread, by simp [Walk.look, hnull, Walk.note], rfl⟩
    refine ⟨_, hnote, fun ys hys => ?_⟩
    rw [hys hnull]
    exact (link p).covers_append hx fun kind _ n => Nat.le_refl _
  · have hskip : Memory.deref name s = .ok (s, xs ++ []) :=
      Walk.andThen_eq_ok.2 ⟨s, xs, _, hread, by simp [Walk.look, hnull, Walk.skip], rfl⟩
    exact ⟨_, hskip, fun ys _ => (link p).covers_append hx ((link p).covers_nil ys)⟩

theorem Agree.not_live_of_null {c : Pointer.Context} {s : Memory.State} {t : Pointer.State}
    {name : String} (h : Agree c.primitives s t) (hnull : (Memory.marks s name).null) :
    c.isLive t name = false := by
  simp [Pointer.Context.isLive, (h.fits name).null hnull]

theorem deref_eq_ok {c : Pointer.Context} {name : String} {t t' : Pointer.State}
    {ys : List Pointer.Finding} (h : c.deref name t = .ok (t', ys)) :
    t' = t ∧ (c.isLive t name = false → ys = [.nullDereference name]) := by
  simp only [Pointer.Context.deref, Walk.look] at h
  split at h
  next hlive =>
    cases h
    exact ⟨rfl, fun hdead => by simp [hdead] at hlive⟩
  next =>
    cases h
    exact ⟨rfl, fun _ => rfl⟩

theorem follows_deref {c : Pointer.Context} (name : String) :
    (Memory.deref name).Follows (link c.primitives) (c.deref name) := by
  intro s t hst t' ys ht
  obtain ⟨rfl, hys⟩ := deref_eq_ok ht
  obtain ⟨xs, hs, hx⟩ := deref_walked name s
  exact ⟨s, xs, hs, hst, hx ys fun hnull => hys (hst.not_live_of_null hnull)⟩

theorem follows_free {name : String} (hn : p.isNull name = false) :
    (Memory.free name).Follows (link p) (Pointer.Context.free name) := by
  intro s t hst t' ys ht
  have hfits := hst.fits name
  simp only [Pointer.Context.free, Walk.look] at ht
  simp only [Memory.free, Walk.look]
  by_cases hfreed : (Memory.marks s name).freed
  · rw [hfits.freed hfreed] at ht
    cases ht
    rw [if_pos hfreed]
    exact ⟨s, _, rfl, hst, fun kind _ n => Nat.le_refl _⟩
  · have hnot : (Memory.marks s name).freed = false := by simpa using hfreed
    rw [if_neg hfreed]
    by_cases halloc : (Memory.marks s name).allocated
    · rw [hfits.live halloc hnot] at ht
      cases ht
      rw [if_pos halloc]
      refine ⟨_, [], rfl, ?_, (link p).covers_nil []⟩
      refine hst.change name (by simp +contextual) (by simp +contextual) ?_ (by simp [hn])
      simp only [Memory.marks_set, Table.get?_set, if_true]
      exact ⟨fun _ => rfl, fun _ => nofun, fun _ => nofun⟩
    · rw [if_neg halloc]
      cases hget : t.get? name with
      | none =>
        rw [hget] at ht
        cases ht
        exact ⟨s, [], rfl, hst, (link p).covers_nil _⟩
      | some hold =>
        rw [hget] at ht
        cases hold with
        | dead =>
          cases ht
          exact ⟨s, [], rfl, hst, (link p).covers_nil _⟩
        | live =>
          -- the memory check knows of no allocation here, so a dead name fits as well
          cases ht
          refine ⟨s, [], rfl, ?_, (link p).covers_nil _⟩
          refine hst.change name (fun _ _ => rfl) (by simp +contextual) ?_ (by simp [hn])
          rw [Table.get?_set, if_pos rfl]
          exact ⟨fun h => (hfreed h).elim, fun h => (halloc h).elim, fun _ => nofun⟩

/-- A name of the null pointer is never freed. -/
theorem follows_free_null {name : String} (hn : p.isNull name) :
    (Memory.free name).Follows (link p) (.skip : Walk Pointer.State Pointer.Finding) := by
  intro s t hst t' ys ht
  cases ht
  have hidle := hst.idle name hn
  simp only [Memory.free, Walk.look, hidle.freed, hidle.allocated]
  exact ⟨s, [], rfl, hst, (link p).covers_nil []⟩

/-- The marks that a value brings. -/
def Memory.carried (p : Primitives) (s : Memory.State) (value : Expr) : Memory.Marks :=
  if p.isAllocCall value then { allocated := true }
  else if p.isNullExpr value then { null := true }
  else ((Memory.source? value).map (Memory.marks s)).getD {}

theorem allocate_walked (name : String) (value : Expr) (s : Memory.State) :
    ∃ xs, Memory.allocate name value s = .ok (s.set name { allocated := true }, xs) ∧
      (link p).covers xs [] := by
  simp only [Memory.allocate, Walk.look]
  split
  · refine ⟨_, rfl, covers_of_other (fun x hx => ?_) []⟩
    rw [List.mem_singleton.1 hx]
    simp [Memory.Finding.diagnostic, shared]
  · exact ⟨[], rfl, (link p).covers_nil []⟩

/-- A name takes the marks that its value brings; nothing else changes after the value. -/
theorem bind_walked {visit : Expr → Walk Memory.State Memory.Finding} {value : Expr}
    {s s' : Memory.State} {xs : List Memory.Finding} (name : String)
    (hvisit : visit value s = .ok (s', xs)) (hnull : p.isNullExpr value → s' = s) :
    ∃ s'' xs', Memory.bind p visit name value s = .ok (s'', xs') ∧
      (∀ n, Memory.marks s'' n =
        if n = name then Memory.carried p s' value else Memory.marks s' n) ∧
      ∀ ys, (link p).covers xs ys → (link p).covers xs' ys := by
  unfold Memory.bind Memory.carried
  split
  · obtain ⟨zs, hz, hcovers⟩ := allocate_walked (p := p) name value s'
    refine ⟨_, _, Walk.andThen_eq_ok.2 ⟨s', xs, zs, hvisit, hz, rfl⟩, by simp, fun ys hys => ?_⟩
    have := (link p).covers_append hys hcovers
    rwa [List.append_nil] at this
  · split
    next hn =>
      rw [hnull hn]
      exact ⟨_, [], rfl, by simp, fun ys _ => (link p).covers_nil ys⟩
    next =>
      have hquiet : ∀ ys, (link p).covers xs ys → (link p).covers (xs ++ []) ys := by simp
      cases hsource : Memory.source? value with
      | none =>
        exact ⟨_, _, Walk.andThen_eq_ok.2 ⟨s', xs, [], hvisit, rfl, rfl⟩, by simp, hquiet⟩
      | some other =>
        dsimp only
        split
        next heq =>
          refine ⟨_, _, Walk.andThen_eq_ok.2 ⟨s', xs, [], hvisit, rfl, rfl⟩, fun n => ?_, hquiet⟩
          by_cases hname : n = name <;> simp [hname, heq]
        next =>
          exact ⟨_, _, Walk.andThen_eq_ok.2 ⟨s', xs, [], hvisit, rfl, rfl⟩, by simp, hquiet⟩

/-- A copy of a name fits the marks of the name. -/
theorem Agree.fits_held {c : Pointer.Context} {s : Memory.State} {t : Pointer.State}
    (h : Agree c.primitives s t) (name : String) :
    Fits (Memory.marks s name) (some (c.held t name)) := by
  have hfits := h.fits name
  refine ⟨fun hf => ?_, fun ha hf => ?_, fun hn => ?_⟩
  · simp [Pointer.Context.held, Pointer.Context.isLive, hfits.freed hf]
  · have hnull : c.primitives.isNull name = false := by
      rw [Bool.eq_false_iff]
      intro hnull
      rw [(h.idle name hnull).allocated] at ha
      cases ha
    simp [Pointer.Context.held, Pointer.Context.isLive, hfits.live ha hf, hnull]
  · simp [Pointer.Context.held, Pointer.Context.isLive, hfits.null hn]

theorem Agree.fits_carried {c : Pointer.Context} {s : Memory.State} {t : Pointer.State}
    {value : Expr} (h : Agree c.primitives s t)
    (hsource : ∀ n, Memory.source? value = some n → c.produces t value = c.held t n) :
    Fits (Memory.carried c.primitives s value) (some (c.produces t value)) := by
  unfold Memory.carried
  split
  next halloc =>
    cases value with
    | call f args =>
      have hpointer : c.givesPointer f := by
        simp only [Primitives.isAllocCall] at halloc
        simp [Pointer.Context.givesPointer, halloc]
      rw [Pointer.Context.produces, if_pos hpointer]
      exact ⟨nofun, fun _ _ => rfl, nofun⟩
    | _ => cases halloc
  next =>
    split
    next hnull =>
      cases value with
      | ident n =>
        have hdead : c.isLive t n = false := by
          simp only [Primitives.isNullExpr] at hnull
          simp [Pointer.Context.isLive, hnull]
        rw [Pointer.Context.produces, hdead]
        exact ⟨nofun, nofun, fun _ => nofun⟩
      | _ => cases hnull
    next =>
      cases hn : Memory.source? value with
      | none => exact Memory.idle_default.fits _
      | some n =>
        rw [hsource n hn]
        exact h.fits_held n

theorem follows_bind {c : Pointer.Context} {d : Nat} {name : String} {value : Expr}
    (hn : c.primitives.isNull name = false) (hv : value.Every (.tracked c.primitives))
    (h : (Memory.expr c.primitives d value).Follows (link c.primitives) (c.expr d value)) :
    (Memory.bind c.primitives (Memory.expr c.primitives d) name value).Follows
      (link c.primitives) (c.bind (c.expr d) name value) := by
  intro s t hst t'' ys ht
  obtain ⟨t', ys, zs, hw, hset, rfl⟩ := Walk.andThen_eq_ok.1 ht
  cases hset
  obtain ⟨s', xs, hs, hst', hx⟩ := h s t hst t' ys hw
  -- the memory check does not walk a null value, and the walk would have changed nothing
  have hnull : c.primitives.isNullExpr value → s' = s := by
    intro hnull
    cases value with
    | ident n =>
      cases d with
      | zero => cases hs
      | succ d =>
        obtain ⟨xs', hread, -⟩ := read_quiet (p := c.primitives) n s
        have heq := hread.symm.trans hs
        cases heq
        rfl
    | _ => cases hnull
  obtain ⟨s'', xs', hs', hmarks, hcovers⟩ := bind_walked name hs hnull
  refine ⟨s'', xs', hs', ?_, ?_⟩
  · refine Agree.change hst' name (fun n hne => ?_) (by simp +contextual) ?_ (by simp [hn])
    · rw [hmarks, if_neg hne]
    · rw [hmarks, if_pos rfl, Table.get?_set, if_pos rfl]
      exact hst'.fits_carried fun n hsource => c.produces_walked hv hsource hw
  · rw [List.append_nil]
    exact hcovers ys hx

/-- The memory check dereferences before it walks the index, the pointer check afterwards; the index
makes no name live in between. -/
theorem follows_index {c : Pointer.Context} {d : Nat} {name : String} {i : Expr}
    (hi : i.Every .still)
    (h : (Memory.expr c.primitives d i).Follows (link c.primitives) (c.expr d i)) :
    ((Memory.deref name).andThen (Memory.expr c.primitives d i)).Follows (link c.primitives)
      ((c.expr d i).andThen (c.deref name)) := by
  intro s t hst t'' ys ht
  obtain ⟨t', ys, zs, hw, hderef, rfl⟩ := Walk.andThen_eq_ok.1 ht
  obtain ⟨rfl, hzs⟩ := deref_eq_ok hderef
  obtain ⟨s', xs, hs, hst', hx⟩ := h s t hst t'' ys hw
  obtain ⟨us, hus, hcovers⟩ := deref_walked (p := c.primitives) name s
  refine ⟨s', us ++ xs, Walk.andThen_eq_ok.2 ⟨s, us, xs, hus, hs, rfl⟩, hst', ?_⟩
  have huz : (link c.primitives).covers us zs := hcovers zs fun hnull =>
    hzs (c.keeps_of_still hi name t t'' ys (hst.not_live_of_null hnull) hw)
  intro kind hk n
  have := (link c.primitives).covers_append huz hx kind hk n
  rw [List.map_append, tally_append] at this ⊢
  rw [List.map_append, tally_append] at this ⊢
  omega

end Names

/-! ### The two passes -/

section Passes

variable (c : Pointer.Context)

theorem follows_call {d : Nat} {f : String} {args : List Expr}
    (h : ∀ a ∈ args, (Memory.expr c.primitives d a).Follows (link c.primitives) (c.expr d a)) :
    (Memory.expr c.primitives (d + 1) (.call f args)).Follows (link c.primitives)
      (c.call (c.expr d) f args) := by
  simp only [Memory.expr, Pointer.Context.call]
  cases c.primitives.freedName? f args with
  | some name =>
    refine .look_first ?_ (read_quiet name)
    dsimp only
    split
    next hn => exact follows_free_null hn
    next hn => exact follows_free (by simpa using hn)
  | none =>
    refine (Walk.follows_all h).look_last fun t t' ys ht => ?_
    exact c.keeps_checkCall (I := (· = t)) f args t t' ys rfl ht

theorem follows_expr (d : Nat) (e : Expr) (he : e.Every (.tracked c.primitives)) :
    (Memory.expr c.primitives d e).Follows (link c.primitives) (c.expr d e) := by
  -- on the depth: the two checks go down side by side and run out of it at the same node
  induction d generalizing e with
  | zero => exact Walk.follows_fail .tooDeep
  | succ d ih =>
    cases e with
    | absent => exact Walk.follows_fail .absentExpr
    | foreign kind => exact Walk.follows_note (covers_of_other (by simp [Memory.Finding.diagnostic,
        Diagnostic.unsupportedNode, shared]) _)
    | intLit | stringLit => exact Walk.follows_skip
    | ident name | varRef name =>
      intro s t hst t' ys ht
      cases ht
      obtain ⟨xs, hs, hx⟩ := read_quiet (p := c.primitives) name s
      exact ⟨s, xs, hs, hst, hx⟩
    | addr name =>
      refine Walk.follows_update (g := id) fun s t hst => ?_
      refine hst.change name (by simp +contextual) (fun _ _ => rfl) ?_ fun hn => ?_
      · simp only [Memory.marks_set, if_true]
        exact ⟨(hst.fits name).freed, (hst.fits name).live, (hst.fits name).null⟩
      · simp only [Memory.marks_set, if_true]
        exact ⟨(hst.idle name hn).allocated, (hst.idle name hn).freed, (hst.idle name hn).null⟩
    | deref x =>
      simp only [Memory.expr, Pointer.Context.expr]
      cases x.name? with
      | some name => exact follows_deref name
      | none => exact ih x he.2
    | index name i => exact follows_index he.1 (ih i he.2)
    | arrayDecl name size =>
      refine (ih size he.2).andThen (Walk.follows_update fun s t hst => ?_)
      refine hst.change name (by simp +contextual) (by simp +contextual) ?_ fun _ => ?_
      · simpa using Memory.idle_default.fits _
      · simpa using Memory.idle_default
    | call f args => exact follows_call c fun a ha => ih a (he.args a ha)
    | binary op left right => exact (ih left he.2.1).andThen (ih right he.2.2)
    | assign target value =>
      obtain ⟨⟨hassignable, hnull⟩, ht, hv⟩ := he
      cases target with
      | ident name | varRef name => exact follows_bind (hnull name rfl) hv (ih value hv)
      | deref | index => exact (ih value hv).andThen (ih _ ht)
      | _ => cases hassignable

theorem follows_enter (params : List Param) (s : Memory.State) (t : Pointer.State)
    (hst : Agree c.primitives s t) :
    Agree c.primitives ((Memory.pass c.primitives).enter params s) (c.pass.enter params t) := by
  simp only [Memory.pass, Pointer.Context.pass, Pointer.Context.enter]
  induction params generalizing s t with
  | nil => exact hst
  | cons prm params ih =>
    refine ih _ _ (hst.change prm.name (by simp +contextual) (fun n hn => ?_) ?_ fun _ => ?_)
    · dsimp only
      split <;> simp [hn]
    · simpa using Memory.idle_default.fits _
    · simpa using Memory.idle_default

theorem follows_declare (d : Nat) (name : String) (init : Expr)
    (hn : c.primitives.isNull name = false) (hi : init.EveryIf (.tracked c.primitives)) :
    (Memory.declare c.primitives d name init).Follows (link c.primitives)
      (c.declare d name init) := by
  by_cases ha : init = .absent
  · rw [ha]
    refine Walk.follows_update fun s t hst => ?_
    refine hst.change name (by simp +contextual) (by simp +contextual) ?_ (by simp [hn])
    simp only [Memory.marks_set, Table.get?_erase, if_true]
    exact ⟨nofun, nofun, nofun⟩
  · rw [Memory.declare_of_ne ha, c.declare_of_ne ha]
    have hi := hi.resolve_left ha
    exact follows_bind hn hi (follows_expr c d init hi)

/-- At file scope a variable without a value is null for the memory check; it is not live. -/
theorem follows_declareGlobal (d : Nat) (name : String) (init : Expr)
    (hn : c.primitives.isNull name = false) (hi : init.EveryIf (.tracked c.primitives)) :
    (Memory.declareGlobal c.primitives d name init).Follows (link c.primitives)
      (c.declare d name init) := by
  by_cases ha : init = .absent
  · rw [ha]
    refine Walk.follows_update fun s t hst => ?_
    refine hst.change name (by simp +contextual) (by simp +contextual) ?_ (by simp [hn])
    simp only [Memory.marks_set, Table.get?_erase, if_true]
    exact ⟨nofun, nofun, fun _ => nofun⟩
  · rw [Memory.declareGlobal_of_ne ha, c.declare_of_ne ha]
    have hi := hi.resolve_left ha
    exact follows_bind hn hi (follows_expr c d init hi)

theorem pass_follows :
    (Memory.pass c.primitives).Follows (link c.primitives) (.tracked c.primitives) c.pass where
  expr := follows_expr c
  declare := follows_declare c
  declareGlobal := follows_declareGlobal c
  enter := follows_enter c
  unsupported kind := by
    refine covers_of_other (fun x hx => ?_) _
    rw [List.mem_singleton.1 hx]
    simp [Memory.pass, Memory.Finding.diagnostic, Diagnostic.unsupportedNode, shared]

end Passes

/-- On a file in which the pointer check succeeds the memory check succeeds as well, and it has no
more double frees and no more null dereferences to report of any name. -/
theorem pointer_check_subsumes_memory_check {o : Options} {ds : List Decl} {ys : List Diagnostic}
    (hds : ∀ d ∈ ds, d.Every (.tracked o.primitives))
    (h : Pointer.analyzeFile o ds = .ok ys) :
    ∃ xs, Memory.analyzeFile o ds = .ok xs ∧ ∀ name,
      tally .doubleFree name xs ≤ tally .doubleFree name ys ∧
      tally .nullPointerDereference name xs ≤ tally .nullPointerDereference name ys := by
  obtain ⟨t, found, hwalk, rfl⟩ := report_eq_ok.1 h
  have hfollows := (pass_follows ⟨o.primitives, signatures ds⟩).decls o.depth ds hds
  obtain ⟨s, xs, hs, -, hcovers⟩ :=
    hfollows .empty .empty (agree_empty o.primitives) t found hwalk
  refine ⟨_, report_eq_ok.2 ⟨s, xs, hs, rfl⟩, fun name => ⟨?_, ?_⟩⟩
  · exact hcovers .doubleFree (by simp [shared]) name
  · exact hcovers .nullPointerDereference (by simp [shared]) name

theorem pointer_check_subsumes_memory_check_at_copy :
    let ds : List Decl := [.var "p" (.call "malloc" [.intLit 4]), .var "q" .absent,
      .stmt (.block [.expr (.assign (.varRef "q") (.assign (.varRef "p") (.varRef "p"))),
        .expr (.call "free" [.varRef "q"]), .expr (.call "free" [.varRef "q"]),
        .expr (.assign (.varRef "p") (.ident "nullptr")),
        .expr (.assign (.index "p" (.intLit 0)) (.intLit 1))])]
    let ys := [Pointer.Finding.doubleFree "q", .nullDereference "p"].map (·.diagnostic)
    (∀ d ∈ ds, d.Every (.tracked .default)) ∧ Pointer.analyzeFile {} ds = .ok ys ∧
    ∃ xs, Memory.analyzeFile {} ds = .ok xs ∧ ∀ name,
      tally .doubleFree name xs ≤ tally .doubleFree name ys ∧
      tally .nullPointerDereference name xs ≤ tally .nullPointerDereference name ys := by
  intro ds ys
  have hnames : Primitives.default.isNull "p" = false ∧ Primitives.default.isNull "q" = false := by
    decide
  have hds : ∀ d ∈ ds, d.Every (.tracked .default) := by
    simp [ds, Decl.Every, Stmt.Every, Stmt.EveryOf, Expr.EveryIf, Expr.Every, Expr.EveryOf,
      NodeRule.tracked, NodeRule.still, Expr.assignable, Expr.name?, hnames]
  have hys : Pointer.analyzeFile {} ds = .ok ys := by rfl
  exact ⟨hds, hys, pointer_check_subsumes_memory_check hds hys⟩

end Check

end MemLint
