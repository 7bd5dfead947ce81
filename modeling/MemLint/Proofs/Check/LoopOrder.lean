import Mathlib.Data.List.Lattice
import MemLint.Proofs.Check.Clean
import MemLint.Proofs.Check.Composition
import MemLint.Proofs.Check.Locality
import MemLint.Proofs.Grammar.WellFormed

/-! The order in which a check goes through a loop. The condition comes before the body, wherever
the text has it: a loop that tests behind its body is the same tree as one that tests in front of
it. So what is found is what the order of the text leads to exactly if the two orders lead to the
same, and where condition and body have no variable in common the two differ at most in the order of
the findings. -/

namespace MemLint.Check

open Grammar (Gives TestRule)

variable {σ φ β : Type} {view : σ → String → β} {names others : List String}

/-! ### Walks one behind the other -/

namespace Walk

variable {v w : Walk σ φ} {s s' t : σ} {xs xs' ys ys' : List φ}

theorem andThen_skip (w : Walk σ φ) : w.andThen skip = w := by
  funext s
  simp only [andThen, skip]
  cases w s with
  | error f => rfl
  | ok r => simp only [List.append_nil]

/-- A walk notes the same behind a walk that is about other names. -/
theorem Local.behind (hw : w.Local view others) (hv : v.Local view names)
    (hne : names.Disjoint others) (hs : v s = .ok (s', xs)) (ht : w s = .ok (t, ys)) :
    ∃ t', w s' = .ok (t', ys) := by
  have hkept : ∀ n ∈ others, view s n = view s' n := by
    intro n hn
    rcases hv.dependsOn s s fun _ _ => rfl with ⟨f, hf, -⟩ | ⟨u, u', zs, hu, -, -, hrest⟩
    · rw [hs] at hf
      cases hf
    · rw [hs] at hu
      cases hu
      exact (hrest n fun hn' => hne hn' hn).1.symm
  rcases hw.dependsOn s s' hkept with ⟨f, hf, -⟩ | ⟨u, u', zs, hu, hu', -, -⟩
  · rw [ht] at hf
    cases hf
  · rw [ht] at hu
    cases hu
    exact ⟨u', hu'⟩

/-- From the state, the first walk notes `xs` and the second one behind it notes `ys`. -/
def InTurn (v w : Walk σ φ) (s : σ) (xs ys : List φ) : Prop :=
  ∃ s' s'', v s = .ok (s', xs) ∧ w s' = .ok (s'', ys)

theorem InTurn.fork (h : v.InTurn w s xs ys) : (v.andThen w).fork s = .ok (s, xs ++ ys) := by
  obtain ⟨s', s'', hv, hw⟩ := h
  exact fork_eq_ok.2 ⟨rfl, s'', andThen_eq_ok.2 ⟨s', xs, ys, hv, hw, rfl⟩⟩

/-- Walks about different names note the same in both orders. -/
theorem InTurn.swap (hv : v.Local view names) (hw : w.Local view others)
    (hne : names.Disjoint others) (h : v.InTurn w s xs ys) (h' : w.InTurn v s ys' xs') :
    xs' = xs ∧ ys' = ys := by
  obtain ⟨s₁, s₂, hvs, hws₁⟩ := h
  obtain ⟨t₁, t₂, hws, hvt₁⟩ := h'
  obtain ⟨u, hu⟩ := hw.behind hv hne hvs hws
  obtain ⟨u', hu'⟩ := hv.behind hw hne.symm hws hvs
  rw [hws₁] at hu
  rw [hvt₁] at hu'
  cases hu
  cases hu'
  exact ⟨rfl, rfl⟩

theorem Clean.inTurn {N : φ → Prop} {deep deep' : Prop} (hv : v.Clean N deep)
    (hw : w.Clean N deep') (hdeep : ¬ deep) (hdeep' : ¬ deep') (s : σ) :
    ∃ xs ys, v.InTurn w s xs ys := by
  rcases hv s with ⟨-, hd⟩ | ⟨s', xs, hs, -⟩
  · exact (hdeep hd).elim
  · rcases hw s' with ⟨-, hd⟩ | ⟨s'', ys, hs', -⟩
    · exact (hdeep' hd).elim
    · exact ⟨xs, ys, s', s'', hs, hs'⟩

end Walk

/-- A loop without a first part and without a last one. -/
theorem Pass.stmt_loop (p : Pass σ φ) (d : Nat) {test : Expr} (htest : test ≠ .absent)
    (body : Stmt) :
    p.stmt (d + 1) (.loop .absent test .absent body) =
      ((p.expr d test).andThen (p.stmt d body)).fork := by
  have hloop : p.stmt (d + 1) (.loop .absent test .absent body) =
      (Walk.skip.andThen ((p.expr d test).andThen ((p.stmt d body).andThen Walk.skip))).fork := by
    cases test with
    | absent => exact (htest rfl).elim
    | _ => rfl
  rw [hloop, Walk.skip_andThen, Walk.andThen_skip]

/-! ### The three checkers -/

section Checkers

variable (p : Primitives) (sigs : Signatures) (c : Settings.Checker)

theorem inspection_tidy :
    (inspection p sigs c).pass.Tidy (Known (inspection p sigs c).diagnose) := by
  cases c with
  | bounds => exact Bounds.pass_tidy
  | memory => exact Memory.pass_tidy p
  | pointer => exact Pointer.Context.pass_tidy ⟨p, sigs⟩

theorem inspection_local :
    ∃ (β : Type) (view : (inspection p sigs c).State → String → β),
      (inspection p sigs c).pass.Local view := by
  cases c with
  | bounds => exact ⟨_, _, Bounds.pass_local⟩
  | memory => exact ⟨_, _, Memory.pass_local p⟩
  | pointer => exact ⟨_, _, Pointer.Context.pass_local ⟨p, sigs⟩⟩

end Checkers

/-- The diagnostics for what a walk notes from a state. -/
def Inspection.diagnostics (k : Inspection) (w : Walk k.State k.Finding) (s : k.State) :
    Except Fault (List Diagnostic) := (w s).map fun r => r.2.map k.diagnose

theorem Inspection.diagnostics_eq_iff {k : Inspection} {v w : Walk k.State k.Finding}
    {s s' t : k.State} {xs ys : List k.Finding} (hv : v s = .ok (s', xs)) (hw : w s = .ok (t, ys)) :
    k.diagnostics v s = k.diagnostics w s ↔ xs.map k.diagnose = ys.map k.diagnose := by
  simp only [diagnostics, hv, hw, Except.map, Except.ok.injEq]

/-! ### Condition and body -/

section Loop

variable {test : Expr} {body : Stmt} {d : Nat}

/-- Condition and body get through in both orders. -/
theorem Pass.Tidy.inTurn {p : Pass σ φ} {N : φ → Prop} (h : p.Tidy N) (htest : test.WellFormed)
    (hbody : body.WellFormed) (hd : test.height ≤ d) (hd' : body.height ≤ d) (s : σ) :
    (∃ xs ys, (p.expr d test).InTurn (p.stmt d body) s xs ys) ∧
      ∃ ys xs, (p.stmt d body).InTurn (p.expr d test) s ys xs := by
  have htest := h.expr d test htest
  have hbody := h.stmt d body hbody
  have hd := Nat.not_lt.2 hd
  have hd' := Nat.not_lt.2 hd'
  exact ⟨htest.inTurn hbody hd hd' s, hbody.inTurn htest hd' hd s⟩

/-- Without a common variable, condition and body note the same in both orders. -/
theorem Pass.Local.inTurn {p : Pass σ φ} (h : p.Local view) (hne : test.vars.Disjoint body.vars)
    {s : σ} {xs xs' ys ys' : List φ} (hs : (p.expr d test).InTurn (p.stmt d body) s xs ys)
    (hs' : (p.stmt d body).InTurn (p.expr d test) s ys' xs') : xs' = xs ∧ ys' = ys :=
  hs.swap (h.expr d test (List.Subset.refl _)) (h.stmt d body (List.Subset.refl _)) hne hs'

end Loop

/-- A loop is gone through with its condition in front, also where the text has it behind the body.
In front of `while` this is the order of the text. Behind `do` the diagnostics are those for the
order of the text exactly if both orders lead to the same ones; if condition and body have no
variable in common, each of them leads to the same in both orders. -/
theorem do_loop_in_text_order_iff (p : Primitives) (sigs : Signatures) (c : Settings.Checker)
    (depth : Nat) (scopes : Grammar.Scopes) :
    let k := inspection p sigs c
    (∀ ⦃t ts mid rest test body σ⦄, t.kind = Token.Kind.kwWhile →
      TestRule (Grammar.assign scopes depth) ts test mid →
      Gives (Grammar.stmt depth scopes mid) (body, σ) rest →
      ∃ loop, Gives (Grammar.stmt (depth + 1) scopes (t :: ts)) (loop, σ) rest ∧
        ∀ d, k.pass.stmt (d + 1) loop = ((k.pass.expr d test).andThen (k.pass.stmt d body)).fork) ∧
    ∀ ⦃t u e ts mid rest test body σ⦄, t.kind = Token.Kind.kwDo →
      Gives (Grammar.stmt depth scopes ts) (body, σ) (u :: mid) → u.kind = .kwWhile →
      TestRule (Grammar.assign σ depth) mid test (e :: rest) → e.kind = .semi →
      ∃ loop, Gives (Grammar.stmt (depth + 1) scopes (t :: ts)) (loop, σ) rest ∧
        ∀ d s, test.height ≤ d → body.height ≤ d →
          ∃ xs ys xs' ys', (k.pass.expr d test).InTurn (k.pass.stmt d body) s xs ys ∧
            (k.pass.stmt d body).InTurn (k.pass.expr d test) s ys' xs' ∧
            k.pass.stmt (d + 1) loop s = .ok (s, xs ++ ys) ∧
            (k.diagnostics (k.pass.stmt (d + 1) loop) s =
                k.diagnostics ((k.pass.stmt d body).andThen (k.pass.expr d test)).fork s ↔
              (xs ++ ys).map k.diagnose = (ys' ++ xs').map k.diagnose) ∧
            (test.vars.Disjoint body.vars → xs' = xs ∧ ys' = ys) := by
  intro k
  have hwell := fun σ => (Grammar.wellFormed.toExprInvariant.builds σ depth).1
  constructor
  · intro t ts mid rest test body σ ht htest hbody
    have hgood : test.WellFormed := (hwell scopes).testRule htest
    exact ⟨_, Grammar.gives_stmt_succ.2 (.whileLoop ht htest hbody),
      fun d => k.pass.stmt_loop d hgood.ne_absent body⟩
  · intro t u e ts mid rest test body σ ht hbody hu htest he
    have hgood : test.WellFormed := (hwell σ).testRule htest
    have hgood' : body.WellFormed := Grammar.wellFormed.toStmtInvariant.builds depth hbody
    refine ⟨_, Grammar.gives_stmt_succ.2 (.doLoop ht hbody hu htest he), ?_⟩
    intro d s hd hd'
    obtain ⟨⟨xs, ys, h⟩, ys', xs', h'⟩ :=
      (inspection_tidy p sigs c).inTurn hgood hgood' hd hd' s
    have hloop : k.pass.stmt (d + 1) (.loop .absent test .absent body) s = .ok (s, xs ++ ys) := by
      rw [k.pass.stmt_loop d hgood.ne_absent]
      exact h.fork
    obtain ⟨β, view, hlocal⟩ := inspection_local p sigs c
    exact ⟨xs, ys, xs', ys', h, h', hloop, Inspection.diagnostics_eq_iff hloop h'.fork,
      fun hne => hlocal.inTurn hne h h'⟩

/-- The body assigns a variable that has no value yet, and the condition reads it. -/
theorem do_loop_in_text_order_iff_at_assignment :
    let k := inspection .default .empty .memory
    let s : Memory.State := Table.empty.set "x" { uninit := true }
    let token (kind : Token.Kind) (lex : String) : Token := ⟨kind, lex, .start⟩
    let body := [token .ident "x", token .assign "=", token .int "1", token .semi ";"]
    let test := [token .lparen "(", token .ident "x", token .rparen ")"]
    let assigns : Stmt := .expr (.assign (.ident "x") (.intLit 1))
    let reads : Expr := .ident "x"
    (∃ loop, Gives (Grammar.stmt 5 .file (token .kwWhile "while" :: (test ++ body)))
        (loop, .file) [] ∧
      ∀ d, k.pass.stmt (d + 1) loop =
        ((k.pass.expr d reads).andThen (k.pass.stmt d assigns)).fork) ∧
    ∃ loop, Gives (Grammar.stmt 5 .file (token .kwDo "do" ::
        (body ++ token .kwWhile "while" :: (test ++ [token .semi ";"])))) (loop, .file) [] ∧
      reads.height ≤ 3 ∧ assigns.height ≤ 3 ∧
      k.pass.stmt 4 loop s = .ok (s, [.uninitialized "x"]) ∧
      k.diagnostics (k.pass.stmt 4 loop) s ≠
        k.diagnostics ((k.pass.stmt 3 assigns).andThen (k.pass.expr 3 reads)).fork s := by
  intro k s token body test assigns reads
  obtain ⟨hwhile, hdo⟩ := do_loop_in_text_order_iff .default .empty .memory 4 .file
  let after := token .kwWhile "while" :: (test ++ [token .semi ";"])
  have hbody : Gives (Grammar.stmt 4 .file body) (assigns, .file) [] := by
    dsimp only [body, assigns, token]
    exact ⟨by decide, by with_unfolding_all rfl⟩
  have hbody' : Gives (Grammar.stmt 4 .file (body ++ after)) (assigns, .file) after := by
    dsimp only [body, assigns, after, test, token]
    exact ⟨by decide, by with_unfolding_all rfl⟩
  have htest : TestRule (Grammar.assign .file 4) (test ++ body) reads body :=
    Grammar.gives_condition.1 ⟨by decide, by with_unfolding_all rfl⟩
  have htest' : TestRule (Grammar.assign .file 4) (test ++ [token .semi ";"]) reads
      [token .semi ";"] := Grammar.gives_condition.1 ⟨by decide, by with_unfolding_all rfl⟩
  obtain ⟨loop, hloop, h⟩ := hdo (t := token .kwDo "do") (u := token .kwWhile "while")
    (e := token .semi ";") rfl hbody' rfl htest' rfl
  obtain ⟨xs, ys, xs', ys', ⟨s₁, s₂, hxs, hys⟩, ⟨t₁, t₂, hys', hxs'⟩, hrun, hiff, -⟩ :=
    h 3 s (by decide) (by decide)
  refine ⟨hwhile rfl htest hbody, loop, hloop, by decide, by decide, ?_, ?_⟩
  · cases hxs
    cases hys
    exact hrun
  · cases hxs
    cases hys
    cases hys'
    cases hxs'
    rw [Ne, hiff]
    decide

end MemLint.Check
