import MemLint.Analysis
import MemLint.Proofs.Check.Simulation

/-! What a check finds is composed along the file. A walk only adds to what was noted before it, so
what is found in the first declarations comes first. The body of a function is walked on a copy of
the state, so it adds one block of findings and changes nothing for what follows. Signatures are all
that a check knows of declarations that are still to come, and they do not depend on bodies. -/

namespace MemLint.Check

variable {σ φ : Type}

/-! ### Walks in a row -/

namespace Walk

theorem skip_andThen (w : Walk σ φ) : skip.andThen w = w := by
  funext s
  simp only [andThen, skip]
  cases w s with
  | error f => rfl
  | ok r => rfl

theorem andThen_assoc (u v w : Walk σ φ) :
    (u.andThen v).andThen w = u.andThen (v.andThen w) := by
  funext s
  simp only [andThen]
  cases u s with
  | error f => rfl
  | ok r =>
    obtain ⟨s', xs⟩ := r
    dsimp only
    cases v s' with
    | error f => rfl
    | ok r =>
      obtain ⟨s'', ys⟩ := r
      dsimp only
      cases w s'' with
      | error f => rfl
      | ok r => simp only [List.append_assoc]

theorem all_append (ws vs : List (Walk σ φ)) : all (ws ++ vs) = (all ws).andThen (all vs) := by
  induction ws with
  | nil => exact (skip_andThen (all vs)).symm
  | cons w ws ih => rw [List.cons_append, all_cons, all_cons, ih, andThen_assoc]

end Walk

/-! ### Files -/

namespace Pass

variable {p : Pass σ φ} {depth : Nat} {s s' : σ} {zs : List φ}

theorem decls_append (p : Pass σ φ) (depth : Nat) (ds es : List Decl) :
    p.decls depth (ds ++ es) = (p.decls depth ds).andThen (p.decls depth es) := by
  unfold decls
  rw [List.map_append, Walk.all_append]

theorem decls_cons (p : Pass σ φ) (depth : Nat) (d : Decl) (ds : List Decl) :
    p.decls depth (d :: ds) = (p.decl depth d).andThen (p.decls depth ds) := by
  unfold decls
  rw [List.map_cons, Walk.all_cons]

/-- A function leaves the state as it is and notes what its body notes. -/
theorem decl_func {name : String} {params : List Param} {ret : DeclType} {body : Stmt}
    (hb : body ≠ .absent) :
    p.decl depth (.func name params ret body) s = .ok (s', zs) ↔
      s' = s ∧ ∃ u, p.stmt depth body (p.enter params s) = .ok (u, zs) := by
  have hwalk : p.decl depth (.func name params ret body) =
      ((Walk.update (p.enter params)).andThen (p.stmt depth body)).fork := by
    cases body with
    | absent => exact (hb rfl).elim
    | _ => rfl
  have hbody (u : σ) : (Walk.update (p.enter params)).andThen (p.stmt depth body) s = .ok (u, zs) ↔
      p.stmt depth body (p.enter params s) = .ok (u, zs) := by
    constructor
    · intro h
      obtain ⟨t, xs, ys, ⟨⟩, ht, rfl⟩ := Walk.andThen_eq_ok.1 h
      exact ht
    · intro h
      exact Walk.andThen_eq_ok.2 ⟨p.enter params s, [], zs, rfl, h, rfl⟩
  rw [hwalk, Walk.fork_eq_ok]
  exact and_congr_right fun _ => exists_congr hbody

/-- Without the body of one function, all the rest is noted as before. The body notes what it does
from the state that the declarations before it leave. -/
theorem decls_without_body {before after : List Decl} {name : String} {params : List Param}
    {ret : DeclType} {body : Stmt} (hb : body ≠ .absent)
    (h : p.decls depth (before ++ .func name params ret body :: after) s = .ok (s', zs)) :
    ∃ t xs u block ys, p.decls depth before s = .ok (t, xs) ∧
      p.stmt depth body (p.enter params t) = .ok (u, block) ∧ zs = xs ++ (block ++ ys) ∧
      p.decls depth (before ++ .func name params ret .absent :: after) s = .ok (s', xs ++ ys) := by
  rw [decls_append, decls_cons] at h
  obtain ⟨t, xs, rest, hbefore, hrest, rfl⟩ := Walk.andThen_eq_ok.1 h
  obtain ⟨t', block, ys, hfunc, hafter, rfl⟩ := Walk.andThen_eq_ok.1 hrest
  obtain ⟨rfl, u, hbody⟩ := (decl_func hb).1 hfunc
  refine ⟨t', xs, u, block, ys, hbefore, hbody, rfl, ?_⟩
  rw [decls_append, decls_cons]
  have hprototype : p.decl depth (.func name params ret .absent) = Walk.skip := rfl
  rw [hprototype, Walk.skip_andThen]
  exact Walk.andThen_eq_ok.2 ⟨t', xs, ys, hbefore, hafter, rfl⟩

end Pass

/-! ### Signatures -/

/-- Only functions have signatures. -/
theorem signatures_append_of_no_func (ds : List Decl) {es : List Decl}
    (h : ∀ d ∈ es, d.funcName? = none) : signatures (ds ++ es) = signatures ds := by
  unfold signatures
  rw [List.foldl_append]
  generalize ds.foldl _ _ = sigs
  induction es with
  | nil => rfl
  | cons d es ih =>
    have hd := h d List.mem_cons_self
    have hes := ih fun d' hd' => h d' (List.mem_cons_of_mem d hd')
    cases d with
    | func name params ret body => cases hd
    | _ => exact hes

theorem signatures_of_body (before after : List Decl) (name : String) (params : List Param)
    (ret : DeclType) (body body' : Stmt) :
    signatures (before ++ .func name params ret body :: after) =
      signatures (before ++ .func name params ret body' :: after) := by
  unfold signatures
  rw [List.foldl_append, List.foldl_append, List.foldl_cons, List.foldl_cons]

/-! ### The three checkers -/

/-- What a checker brings to a file: its pass, the state it starts from, and how it tells what it
finds. -/
structure Inspection where
  State : Type
  Finding : Type
  pass : Pass State Finding
  start : State
  checker : String
  diagnose : Finding → Diagnostic

/-- What a checker brings to a file with the signatures. -/
def inspection (p : Primitives) (sigs : Signatures) : Settings.Checker → Inspection
  | .bounds => ⟨_, _, Bounds.pass, .empty, Bounds.checker, Bounds.Finding.diagnostic⟩
  | .memory => ⟨_, _, Memory.pass p, .empty, Memory.checker, Memory.Finding.diagnostic⟩
  | .pointer =>
    ⟨_, _, Pointer.Context.pass ⟨p, sigs⟩, .empty, Pointer.checker, Pointer.Finding.diagnostic⟩

/-- What a checker finds in a file is the report of its inspection. -/
theorem check_eq_report (o : Options) (ds : List Decl) (c : Settings.Checker) :
    Analysis.check o ds c =
      let k := inspection o.primitives (signatures ds) c
      report k.checker o.depth k.diagnose (k.pass.decls o.depth ds k.start) := by
  cases c <;> rfl

/-- Signatures make no difference but for the pointer check. -/
theorem inspection_of_ne {c : Settings.Checker} (hc : c ≠ .pointer) (p : Primitives)
    (sigs sigs' : Signatures) : inspection p sigs c = inspection p sigs' c := by
  cases c with
  | pointer => exact (hc rfl).elim
  | _ => rfl

/-- What is found in the first declarations of a file comes first. -/
theorem check_prefix {o : Options} {c : Settings.Checker} {ds es : List Decl}
    {found : List Diagnostic} (hes : c = .pointer → ∀ d ∈ es, d.funcName? = none)
    (h : Analysis.check o (ds ++ es) c = .ok found) :
    ∃ front, Analysis.check o ds c = .ok front ∧ front <+: found := by
  have hk : inspection o.primitives (signatures (ds ++ es)) c =
      inspection o.primitives (signatures ds) c := by
    by_cases hc : c = .pointer
    · rw [signatures_append_of_no_func ds (hes hc)]
    · exact inspection_of_ne hc _ _ _
  rw [check_eq_report, hk] at h
  obtain ⟨s', zs, hwalk, rfl⟩ := report_eq_ok.1 h
  rw [Pass.decls_append] at hwalk
  obtain ⟨s, xs, ys, hds, -, rfl⟩ := Walk.andThen_eq_ok.1 hwalk
  refine ⟨xs.map (inspection o.primitives (signatures ds) c).diagnose, ?_, ?_⟩
  · rw [check_eq_report]
    exact report_eq_ok.2 ⟨s, xs, hds, rfl⟩
  · rw [List.map_append]
    exact List.prefix_append _ _

/-- Diagnostics compose along the file. Those of the first declarations come first, where the
pointer check asks that no function follows. The body of a function adds one block: what it yields
from the state that the declarations before it leave, once the parameters are entered. -/
theorem diagnostics_compose (o : Options) (c : Settings.Checker) :
    (∀ ds es found, (c = .pointer → ∀ d ∈ es, d.funcName? = none) →
      Analysis.check o (ds ++ es) c = .ok found →
      ∃ front, Analysis.check o ds c = .ok front ∧ front <+: found) ∧
    ∀ before after name params ret body found, body ≠ .absent →
      Analysis.check o (before ++ .func name params ret body :: after) c = .ok found →
      let sigs := signatures (before ++ .func name params ret body :: after)
      let k := inspection o.primitives sigs c
      ∃ s xs s' block ys, k.pass.decls o.depth before k.start = .ok (s, xs) ∧
        k.pass.stmt o.depth body (k.pass.enter params s) = .ok (s', block) ∧
        found = xs.map k.diagnose ++ (block.map k.diagnose ++ ys) ∧
        Analysis.check o (before ++ .func name params ret .absent :: after) c =
          .ok (xs.map k.diagnose ++ ys) := by
  refine ⟨fun ds es found hes h => check_prefix hes h, ?_⟩
  intro before after name params ret body found hb h sigs k
  rw [check_eq_report] at h
  obtain ⟨s'', zs, hwalk, rfl⟩ := report_eq_ok.1 h
  obtain ⟨s, xs, s', block, ys, hbefore, hbody, rfl, hwithout⟩ := Pass.decls_without_body hb hwalk
  refine ⟨s, xs, s', block, ys.map k.diagnose, hbefore, hbody, ?_, ?_⟩
  · rw [List.map_append, List.map_append]
  · rw [check_eq_report, signatures_of_body _ _ _ _ _ .absent body]
    exact report_eq_ok.2 ⟨s'', xs ++ ys, hwithout, List.map_append.symm⟩

/-- A body frees a variable of the file, which the file then frees itself. -/
theorem diagnostics_compose_at_free :
    let before : List Decl := [.var "p" (.call "malloc" [.intLit 4])]
    let params : List Param := [⟨"q", .pointer (.base .int)⟩]
    let body : Stmt := .block [.expr (.call "free" [.varRef "p"]), .expr (.deref (.varRef "p"))]
    let after : List Decl := [.stmt (.expr (.call "free" [.varRef "p"]))]
    let file : List Decl := before ++ .func "f" params (.base .void) body :: after
    let k := inspection .default (signatures file) .pointer
    (∀ d ∈ after, d.funcName? = none) ∧ body ≠ .absent ∧
      ∃ found, Analysis.check {} file .pointer = .ok found ∧
        (∃ front, Analysis.check {} (before ++ [.func "f" params (.base .void) body]) .pointer =
          .ok front ∧ front <+: found) ∧
        ∃ s xs s' block ys, k.pass.decls 1000 before k.start = .ok (s, xs) ∧
          k.pass.stmt 1000 body (k.pass.enter params s) = .ok (s', block) ∧
          found = xs.map k.diagnose ++ (block.map k.diagnose ++ ys) ∧
          Analysis.check {} (before ++ .func "f" params (.base .void) .absent :: after) .pointer =
            .ok (xs.map k.diagnose ++ ys) := by
  intro before params body after file k
  have hafter : ∀ d ∈ after, d.funcName? = none := by decide
  obtain ⟨hfront, hbody⟩ := diagnostics_compose {} .pointer
  refine ⟨hafter, nofun, _, rfl, ?_, ?_⟩
  · exact hfront (before ++ [Decl.func "f" params (.base .void) body]) after _ (fun _ => hafter) rfl
  · exact hbody before after "f" params (.base .void) body _ nofun rfl

end MemLint.Check
