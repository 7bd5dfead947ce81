import Mathlib.Data.List.Basic
import MemLint.Proofs.Check.Composition

/-! A choice of checkers. What a run with some of the checkers finds is what a run with all of them
finds, less what the others report; the chosen checkers are run one after another, and the first
that fails decides how the run fails. -/

namespace MemLint

namespace Settings

/-- The kinds of diagnostics that a checker can report. -/
def Checker.kinds : Checker → List Diagnostic.Kind
  | bounds => [.outOfBounds, .unsupported]
  | memory => [.memoryLeak, .doubleFree, .uninitializedAccess, .nullPointerDereference, .unsupported]
  | pointer => [.nullPointerDereference, .doubleFree, .invalidFree, .incorrectNumberOfArguments,
      .nonPointerArgumentForPointerParameter, .unsupported]

theorem Checker.ofName?_name (c : Checker) : ofName? c.name = some c := by
  cases c <;> rfl

/-- The diagnostic is from a chosen checker. -/
def Checkers.covers (m : Checkers) (d : Diagnostic) : Bool := (Checker.ofName? d.checker).any m.has

theorem Checkers.covers_of_checker {m : Checkers} {d : Diagnostic} {c : Checker}
    (h : d.checker = c.name) : m.covers d = m.has c := by
  rw [covers, h, Checker.ofName?_name]
  rfl

/-- All checkers, if each of them is chosen. -/
theorem Checkers.toList_of_has {m : Checkers} (h : ∀ c, m.has c = true) : m.toList = Checker.all :=
  List.filter_eq_self.2 fun c _ => h c

end Settings

namespace Analysis

open Settings (Checker Checkers)

variable {o : Check.Options} {file : List Decl} {c : Checker} {cs : List Checker}
  {ds : List Diagnostic}

/-! ### What a checker reports -/

theorem diagnose_of_inspection (p : Check.Primitives) (sigs : Check.Signatures) (c : Checker)
    (x : (Check.inspection p sigs c).Finding) :
    ((Check.inspection p sigs c).diagnose x).checker = c.name ∧
      ((Check.inspection p sigs c).diagnose x).kind ∈ c.kinds := by
  cases c with
  | bounds | memory | pointer =>
    cases x <;> exact ⟨rfl, List.mem_of_elem_eq_true rfl⟩

/-- A checker signs what it reports, and reports only kinds of its own. -/
theorem signed_of_check (h : check o file c = .ok ds) {d : Diagnostic} (hd : d ∈ ds) :
    d.checker = c.name ∧ d.kind ∈ c.kinds := by
  rw [Check.check_eq_report] at h
  obtain ⟨s, xs, -, rfl⟩ := Check.report_eq_ok.1 h
  obtain ⟨x, -, rfl⟩ := List.mem_map.1 hd
  exact diagnose_of_inspection _ _ c x

/-! ### One checker after another -/

/-- What a checker finds; nothing if it fails. -/
def found (o : Check.Options) (file : List Decl) (c : Checker) : List Diagnostic :=
  ((check o file c).toOption).getD []

theorem found_of_check (h : check o file c = .ok ds) : found o file c = ds := by
  rw [found, h]
  rfl

theorem runAll_nil (o : Check.Options) (file : List Decl) :
    (runAll o false file []).result = .ok [] := rfl

theorem runAll_cons_of_error {e : StructuralError} (h : check o file c = .error e)
    (cs : List Checker) : (runAll o false file (c :: cs)).result = .error (.structural e) := by
  simp [runAll, h]

theorem runAll_cons_of_ok (h : check o file c = .ok ds) (cs : List Checker) :
    (runAll o false file (c :: cs)).result = (runAll o false file cs).result.map (ds ++ ·) := by
  simp [runAll, h]

/-- A run succeeds if all its checkers do, with what they find one after another. -/
theorem runAll_eq_ok {L : List Diagnostic} :
    (runAll o false file cs).result = .ok L ↔
      (∀ c ∈ cs, ∃ ds, check o file c = .ok ds) ∧ L = cs.flatMap (found o file) := by
  induction cs generalizing L with
  | nil =>
    rw [runAll_nil]
    constructor
    · rintro ⟨⟩
      exact ⟨fun _ hc => (List.not_mem_nil hc).elim, rfl⟩
    · rintro ⟨-, rfl⟩
      rfl
  | cons c cs ih =>
    rw [List.forall_mem_cons]
    cases hc : check o file c with
    | error e =>
      rw [runAll_cons_of_error hc]
      constructor
      · rintro ⟨⟩
      · rintro ⟨⟨⟨ds, hds⟩, -⟩, -⟩
        cases hds
    | ok ds =>
      rw [runAll_cons_of_ok hc, List.flatMap_cons, found_of_check hc]
      cases hr : (runAll o false file cs).result with
      | error f =>
        constructor
        · rintro ⟨⟩
        · rintro ⟨⟨-, hcs⟩, -⟩
          cases hr.symm.trans (ih.2 ⟨hcs, rfl⟩)
      | ok rest =>
        obtain ⟨hcs, rfl⟩ := ih.1 hr
        constructor
        · rintro ⟨⟩
          exact ⟨⟨⟨ds, rfl⟩, hcs⟩, rfl⟩
        · rintro ⟨-, rfl⟩
          rfl

/-- A run fails with the error of the first checker that fails. -/
theorem runAll_eq_error {f : Failure} :
    (runAll o false file cs).result = .error f ↔
      ∃ before c after e, cs = before ++ c :: after ∧
        (∀ b ∈ before, ∃ ds, check o file b = .ok ds) ∧ check o file c = .error e ∧
        f = .structural e := by
  induction cs with
  | nil =>
    rw [runAll_nil]
    constructor
    · rintro ⟨⟩
    · rintro ⟨before, c, after, e, hcs, -⟩
      exact absurd hcs (by simp)
  | cons c cs ih =>
    cases hc : check o file c with
    | error e =>
      rw [runAll_cons_of_error hc]
      constructor
      · rintro ⟨⟩
        exact ⟨[], c, cs, e, rfl, fun _ hb => (List.not_mem_nil hb).elim, hc, rfl⟩
      · rintro ⟨before, c', after, e', hcs, hbefore, hc', rfl⟩
        cases before with
        | nil =>
          obtain ⟨rfl, rfl⟩ := List.cons.inj hcs
          cases hc.symm.trans hc'
          rfl
        | cons b before =>
          obtain ⟨rfl, rfl⟩ := List.cons.inj hcs
          obtain ⟨ds, hds⟩ := hbefore _ List.mem_cons_self
          cases hc.symm.trans hds
    | ok ds =>
      have hmap : (runAll o false file cs).result.map (ds ++ ·) = .error f ↔
          (runAll o false file cs).result = .error f := by
        cases (runAll o false file cs).result with
        | error f' => exact Iff.rfl
        | ok rest => exact ⟨nofun, nofun⟩
      rw [runAll_cons_of_ok hc, hmap, ih]
      constructor
      · rintro ⟨before, c', after, e, rfl, hbefore, hc', rfl⟩
        exact ⟨c :: before, c', after, e, rfl, List.forall_mem_cons.2 ⟨⟨ds, hc⟩, hbefore⟩, hc', rfl⟩
      · rintro ⟨before, c', after, e, hcs, hbefore, hc', rfl⟩
        cases before with
        | nil =>
          obtain ⟨rfl, rfl⟩ := List.cons.inj hcs
          cases hc.symm.trans hc'
        | cons b before =>
          obtain ⟨rfl, rfl⟩ := List.cons.inj hcs
          exact ⟨before, c', after, e, rfl, (List.forall_mem_cons.1 hbefore).2, hc', rfl⟩

/-! ### Choices -/

/-- The report of a file under a choice of checkers. -/
def reported (p : Plan) (file : List Decl) (m : Checkers) : Except Failure (List Diagnostic) :=
  (run { p with checkers := m } false (some file)).result

theorem reported_eq (p : Plan) (file : List Decl) (m : Checkers) :
    reported p file m = (runAll p.check false file m.toList).result := by
  simp only [reported, run]
  split <;> rfl

/-- Each checker keeps what it finds, or all of it is left out. -/
theorem filter_flatMap_found {q : Diagnostic → Bool} {r : Checker → Bool}
    (h : ∀ c ∈ cs, ∃ ds, check o file c = .ok ds)
    (hq : ∀ (c : Checker) (d : Diagnostic), d.checker = c.name → q d = r c) :
    (cs.flatMap (found o file)).filter q = (cs.filter r).flatMap (found o file) := by
  induction cs with
  | nil => rfl
  | cons c cs ih =>
    obtain ⟨⟨ds, hds⟩, hcs⟩ := List.forall_mem_cons.1 h
    have hsame : ∀ d ∈ found o file c, q d = r c := by
      intro d hd
      rw [found_of_check hds] at hd
      exact hq c d (signed_of_check hds hd).1
    rw [List.flatMap_cons, List.filter_append, ih hcs, List.filter_cons]
    cases hc : r c with
    | true =>
      rw [List.filter_eq_self.2 fun d hd => (hsame d hd).trans hc]
      rfl
    | false =>
      rw [List.filter_eq_nil_iff.2 fun d hd => by rw [hsame d hd, hc]; decide]
      rfl

/-- How the report under the choice `m` follows from the report of all checkers and from what each
checker says of the file. -/
structure Selects (p : Plan) (file : List Decl) (full m : Checkers) : Prop where
  filtered : ∀ L, reported p file full = .ok L → reported p file m = .ok (L.filter m.covers)
  /-- What one checker finds stands together, in the order in which the checkers run. -/
  ordered : ∀ L, reported p file full = .ok L →
    L = Checker.all.flatMap fun c => L.filter fun d => d.checker = c.name
  signed : ∀ L, reported p file m = .ok L → ∀ d ∈ L, ∃ c ds, m.has c = true ∧
    check p.check file c = .ok ds ∧ d ∈ ds ∧ d.checker = c.name ∧ d.kind ∈ c.kinds
  failure : ∀ f, reported p file m = .error f ↔
    ∃ before c after e, Checker.all.filter m.has = before ++ c :: after ∧
      (∀ b ∈ before, ∃ ds, check p.check file b = .ok ds) ∧ check p.check file c = .error e ∧
      f = .structural e
  fails_iff : (∃ f, reported p file m = .error f) ↔
    ∃ c e, m.has c = true ∧ check p.check file c = .error e

theorem mem_all (c : Checker) : c ∈ Checker.all := by
  cases c <;> decide

theorem mem_toList {m : Checkers} : c ∈ m.toList ↔ m.has c = true :=
  List.mem_filter.trans (and_iff_right (mem_all c))

theorem signed_of_reported {p : Plan} {m : Checkers} {L : List Diagnostic}
    (h : reported p file m = .ok L) {d : Diagnostic} (hd : d ∈ L) :
    ∃ c ds, m.has c = true ∧ check p.check file c = .ok ds ∧ d ∈ ds ∧ d.checker = c.name ∧
      d.kind ∈ c.kinds := by
  rw [reported_eq] at h
  obtain ⟨hcs, rfl⟩ := runAll_eq_ok.1 h
  obtain ⟨c, hc, hd⟩ := List.mem_flatMap.1 hd
  obtain ⟨ds, hds⟩ := hcs c hc
  rw [found_of_check hds] at hd
  exact ⟨c, ds, mem_toList.1 hc, hds, hd, signed_of_check hds hd⟩

theorem reported_fails_iff {p : Plan} {m : Checkers} :
    (∃ f, reported p file m = .error f) ↔
      ∃ c e, m.has c = true ∧ check p.check file c = .error e := by
  rw [reported_eq]
  constructor
  · rintro ⟨f, hf⟩
    obtain ⟨before, c, after, e, hcs, -, hc, -⟩ := runAll_eq_error.1 hf
    have hmem : c ∈ m.toList := by simp [hcs]
    exact ⟨c, e, mem_toList.1 hmem, hc⟩
  · rintro ⟨c, e, hm, hc⟩
    cases hr : (runAll p.check false file m.toList).result with
    | error f => exact ⟨f, rfl⟩
    | ok L =>
      obtain ⟨ds, hds⟩ := (runAll_eq_ok.1 hr).1 c (mem_toList.2 hm)
      cases hc.symm.trans hds

/-- To choose checkers is to filter the report of all of them. -/
theorem choice_filters_report (p : Plan) (file : List Decl) {full : Checkers}
    (hfull : ∀ c, full.has c = true) (m : Checkers) : Selects p file full m := by
  have hwhole {L : List Diagnostic} (h : reported p file full = .ok L) :
      (∀ c ∈ Checker.all, ∃ ds, check p.check file c = .ok ds) ∧
        L = Checker.all.flatMap (found p.check file) := by
    rw [reported_eq, Checkers.toList_of_has hfull] at h
    exact runAll_eq_ok.1 h
  constructor
  case filtered =>
    intro L h
    obtain ⟨hall, rfl⟩ := hwhole h
    rw [filter_flatMap_found hall fun c d => Checkers.covers_of_checker, reported_eq]
    exact runAll_eq_ok.2 ⟨fun c _ => hall c (mem_all c), rfl⟩
  case ordered =>
    intro L h
    obtain ⟨hall, rfl⟩ := hwhole h
    -- of what all find, the part that a checker signed is what it finds itself
    refine List.flatMap_congr fun c hc => ?_
    have hname (c' : Checker) (d : Diagnostic) (hd : d.checker = c'.name) :
        decide (d.checker = c.name) = decide (c' = c) := by
      rw [hd]
      cases c' <;> cases c <;> rfl
    rw [filter_flatMap_found hall hname]
    cases c <;> simp [Checker.all]
  case signed => exact fun L h d hd => signed_of_reported h hd
  case failure =>
    intro f
    rw [reported_eq]
    exact runAll_eq_error
  case fails_iff => exact reported_fails_iff

/-- Each of the three finds something in the file. A bit of no checker chooses nothing. -/
theorem choice_filters_report_at_memory :
    let file : List Decl := [.stmt (.expr (.arrayDecl "a" (.intLit 2))),
      .stmt (.expr (.index "a" (.intLit 5))), .stmt (.decl "p" .absent),
      .stmt (.expr (.deref (.ident "p")))]
    (∀ c, Checkers.has ⟨0xF⟩ c = true) ∧ Selects {} file ⟨0xF⟩ ⟨0xA⟩ ∧
      (reported {} file ⟨0xF⟩).toOption.map (·.map Diagnostic.kind) =
        some [.outOfBounds, .uninitializedAccess, .nullPointerDereference] ∧
      (reported {} file ⟨0xA⟩).toOption.map (·.map Diagnostic.kind) =
        some [.uninitializedAccess] := by
  intro file
  have hfull : ∀ c, Checkers.has ⟨0xF⟩ c = true := by
    intro c
    cases c <;> rfl
  exact ⟨hfull, choice_filters_report {} file hfull ⟨0xA⟩, rfl, rfl⟩

end Analysis

end MemLint
