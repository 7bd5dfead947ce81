import Mathlib.Logic.Relation
import MemLint.Proofs.Check.DepthLimit
import MemLint.Proofs.Grammar.Built

/-! Blocks are transparent. A block is walked on the state of the list it stands in, so its
statements may stand there in its place, at any depth of the tree and any number of times: a check
that gets through the tree then finds the same and ends in the same state. Only the levels of
nesting tell the two apart, and there are fewer of them without the block. -/

namespace MemLint

/-! ### Opening blocks -/

/-- One block that stands in another one gives way to its statements. -/
inductive Stmt.Opens : Stmt → Stmt → Prop where
  | here (before inner after : List Stmt) :
      Opens (.block (before ++ .block inner :: after)) (.block (before ++ (inner ++ after)))
  | within (before after : List Stmt) {s s' : Stmt} (h : Opens s s') :
      Opens (.block (before ++ s :: after)) (.block (before ++ s' :: after))
  | yes {test : Expr} {yes yes' no : Stmt} (h : Opens yes yes') :
      Opens (.cond test yes no) (.cond test yes' no)
  | no {test : Expr} {yes no no' : Stmt} (h : Opens no no') :
      Opens (.cond test yes no) (.cond test yes no')
  | init {test post : Expr} {init init' body : Stmt} (h : Opens init init') :
      Opens (.loop init test post body) (.loop init' test post body)
  | body {test post : Expr} {init body body' : Stmt} (h : Opens body body') :
      Opens (.loop init test post body) (.loop init test post body')

/-- Any number of blocks are opened in the list and in the blocks, branches and loops below it. -/
def Stmt.Opened (ss ss' : List Stmt) : Prop :=
  Relation.ReflTransGen Opens (.block ss) (.block ss')

/-- One block is opened in a declaration of a file, which may be a function. -/
inductive Decl.Opens : List Decl → List Decl → Prop where
  | func (before after : List Decl) {name : String} {params : List Param} {ret : DeclType}
      {body body' : Stmt} (h : body.Opens body') :
      Opens (before ++ .func name params ret body :: after)
        (before ++ .func name params ret body' :: after)
  | stmt (before after : List Decl) {s s' : Stmt} (h : s.Opens s') :
      Opens (before ++ .stmt s :: after) (before ++ .stmt s' :: after)

/-- Any number of blocks are opened in the declarations of a file. -/
def Decl.Opened : List Decl → List Decl → Prop := Relation.ReflTransGen Opens

theorem Stmt.Opened.splice (before inner after : List Stmt) :
    Opened (before ++ .block inner :: after) (before ++ (inner ++ after)) :=
  .single (.here before inner after)

namespace Check

variable {σ φ : Type}

/-! ### Walks -/

namespace Walk

variable {u v w : Walk σ φ}

theorem CutsShort.trans (h : u.CutsShort v) (h' : v.CutsShort w) : u.CutsShort w := by
  intro s
  rcases h s with hs | hs
  · exact .inl hs
  · rw [hs]
    exact h' s

/-- What gets through goes the way of the other walk. -/
theorem CutsShort.eq_ok (h : v.CutsShort w) {s : σ} {r : σ × List φ} (hs : v s = .ok r) :
    w s = .ok r := by
  rcases h s with hdeep | heq
  · rw [hs] at hdeep
    cases hdeep
  · rw [← heq, hs]

end Walk

theorem cutsShort_ifStmt_opens {s s' : Stmt} (hs : s.Opens s') {v w : Walk σ φ}
    (h : v.CutsShort w) : (ifStmt s v).CutsShort (ifStmt s' w) := by
  -- neither statement is absent
  cases hs <;> exact h

namespace Pass

theorem stmts_append (p : Pass σ φ) (d : Nat) (ss ss' : List Stmt) :
    p.stmts d (ss ++ ss') = (p.stmts d ss).andThen (p.stmts d ss') := by
  unfold stmts
  rw [List.map_append, Walk.all_append]

theorem stmts_cons (p : Pass σ φ) (d : Nat) (s : Stmt) (ss : List Stmt) :
    p.stmts d (s :: ss) = (p.stmt d s).andThen (p.stmts d ss) := by
  unfold stmts
  rw [List.map_cons, Walk.all_cons]

theorem stmt_block (p : Pass σ φ) (d : Nat) (ss : List Stmt) :
    p.stmt (d + 1) (.block ss) = p.stmts d ss := rfl

namespace Limited

variable {p : Pass σ φ} (h : p.Limited)

include h

/-- The statements of a block have a level more without it. -/
theorem stmts_of_block (d : Nat) (ss : List Stmt) :
    (p.stmt d (.block ss)).CutsShort (p.stmts d ss) := by
  cases d with
  | zero => exact Walk.cutsShort_tooDeep _
  | succ d => exact Walk.cutsShort_all fun s => h.stmt d.le_succ s

/-- One block is opened somewhere in a statement. -/
theorem stmt_of_opens {s s' : Stmt} (hs : s.Opens s') (d : Nat) :
    (p.stmt d s).CutsShort (p.stmt d s') := by
  -- on the way down to the block; what stands beside it is walked as before
  induction d generalizing s s' with
  | zero => exact Walk.cutsShort_tooDeep _
  | succ d ih =>
    cases hs with
    | here before inner after =>
      rw [stmt_block, stmt_block, stmts_append, stmts_append, stmts_append, stmts_cons]
      exact (Walk.CutsShort.refl _).andThen ((h.stmts_of_block d inner).followedBy _)
    | within before after hs =>
      rw [stmt_block, stmt_block, stmts_append, stmts_append, stmts_cons, stmts_cons]
      exact (Walk.CutsShort.refl _).andThen ((ih hs).followedBy _)
    | yes hyes => exact (Walk.CutsShort.refl _).andThen ((ih hyes).fork.followedBy _)
    | no hno =>
      have hno := cutsShort_ifStmt_opens hno (ih hno).fork
      exact (Walk.CutsShort.refl _).andThen ((Walk.CutsShort.refl _).andThen hno)
    | init hinit => exact ((cutsShort_ifStmt_opens hinit (ih hinit)).followedBy _).fork
    | body hbody =>
      exact ((Walk.CutsShort.refl _).andThen ((Walk.CutsShort.refl _).andThen
        ((ih hbody).followedBy _))).fork

theorem stmts_of_opened {ss ss' : List Stmt} (hs : Stmt.Opened ss ss') (d : Nat) :
    (p.stmts d ss).CutsShort (p.stmts d ss') := by
  have hblock : ∀ s', Relation.ReflTransGen Stmt.Opens (.block ss) s' →
      (p.stmt (d + 1) (.block ss)).CutsShort (p.stmt (d + 1) s') := by
    intro s' hs
    induction hs with
    | refl => exact .refl _
    | tail _ hstep ih => exact ih.trans (h.stmt_of_opens hstep (d + 1))
  exact hblock (.block ss') hs

theorem decls_of_opens {ds ds' : List Decl} (hds : Decl.Opens ds ds') (d : Nat) :
    (p.decls d ds).CutsShort (p.decls d ds') := by
  cases hds with
  | @func before after name params ret body body' hbody =>
    have hwalk := (Walk.CutsShort.refl (Walk.update (p.enter params) : Walk σ φ)).andThen
      (h.stmt_of_opens hbody d)
    rw [decls_append, decls_append, decls_cons, decls_cons]
    exact (Walk.CutsShort.refl _).andThen
      ((cutsShort_ifStmt_opens hbody hwalk.fork).followedBy _)
  | stmt before after hs =>
    rw [decls_append, decls_append, decls_cons, decls_cons]
    exact (Walk.CutsShort.refl _).andThen ((h.stmt_of_opens hs d).followedBy _)

theorem decls_of_opened {ds ds' : List Decl} (hds : Decl.Opened ds ds') (d : Nat) :
    (p.decls d ds).CutsShort (p.decls d ds') := by
  induction hds with
  | refl => exact .refl _
  | tail _ hstep ih => exact ih.trans (h.decls_of_opens hstep d)

end Limited

end Pass

/-! ### The three checkers -/

/-- No signature depends on a block. -/
theorem signatures_of_opened {ds ds' : List Decl} (h : Decl.Opened ds ds') :
    signatures ds = signatures ds' := by
  induction h with
  | refl => rfl
  | tail _ hstep ih =>
    rw [ih]
    cases hstep with
    | func before after _ => exact signatures_of_body before after _ _ _ _ _
    | stmt before after _ =>
      unfold signatures
      rw [List.foldl_append, List.foldl_append, List.foldl_cons, List.foldl_cons]

theorem check_of_opened {o : Options} {c : Settings.Checker} {ds ds' : List Decl}
    (h : Decl.Opened ds ds') {found : List Diagnostic} (hds : Analysis.check o ds c = .ok found) :
    Analysis.check o ds' c = .ok found := by
  rw [check_eq_report] at hds ⊢
  rw [← signatures_of_opened h]
  obtain ⟨s, xs, hwalk, rfl⟩ := report_eq_ok.1 hds
  have hwalk' := ((inspection_limited _ _ c).decls_of_opened h _).eq_ok hwalk
  exact report_eq_ok.2 ⟨s, xs, hwalk', rfl⟩

/-- The declarations that the parser joins to one statement may stand in its place. -/
theorem opened_joined (before after : List Stmt) {ss : List Stmt} :
    Stmt.Opened (before ++ Grammar.joined ss :: after) (before ++ (ss ++ after)) := by
  unfold Grammar.joined
  split
  · exact .refl
  · exact .splice before ss after

/-- Blocks are transparent to each of the checkers. A list of statements that is got through from a
state leads to the same findings in the same order and to the same state once blocks in it are
opened, and a file to the same diagnostics. So the statement that the parser makes of a declaration
of several names is as good as the declarations one by one. -/
theorem blocks_transparent (p : Primitives) (c : Settings.Checker) :
    (∀ sigs depth ss ss' s r, Stmt.Opened ss ss' →
      (inspection p sigs c).pass.stmts depth ss s = .ok r →
      (inspection p sigs c).pass.stmts depth ss' s = .ok r) ∧
    (∀ maxDepth ds ds' found, Decl.Opened ds ds' →
      Analysis.check ⟨p, maxDepth⟩ ds c = .ok found →
      Analysis.check ⟨p, maxDepth⟩ ds' c = .ok found) ∧
    ∀ limit scopes ts decl σ rest,
      Grammar.Gives (Grammar.localDecl (Grammar.assign · limit) scopes ts) (decl, σ) rest →
      ∃ ss, decl = Grammar.joined ss ∧ (∀ s ∈ ss, Grammar.Declared (fun _ => True) s) ∧
        ∀ sigs depth before after s r,
          (inspection p sigs c).pass.stmts depth (before ++ decl :: after) s = .ok r →
          (inspection p sigs c).pass.stmts depth (before ++ (ss ++ after)) s = .ok r := by
  have hstmts : ∀ sigs depth ss ss' s r, Stmt.Opened ss ss' →
      (inspection p sigs c).pass.stmts depth ss s = .ok r →
      (inspection p sigs c).pass.stmts depth ss' s = .ok r :=
    fun sigs depth ss ss' s r hss => ((inspection_limited p sigs c).stmts_of_opened hss depth).eq_ok
  refine ⟨hstmts, fun _ _ _ _ hds => check_of_opened hds, ?_⟩
  intro limit scopes ts decl σ rest h
  obtain ⟨type, n, mid, ss, -, -, hss, rfl⟩ := Grammar.gives_localDecl.1 h
  obtain ⟨-, hdeclared⟩ := Grammar.declared_of_declarators (P := fun _ => True)
    (fun _ _ _ _ _ => trivial) hss
  exact ⟨ss, rfl, hdeclared, fun sigs depth before after s r =>
    hstmts sigs depth _ _ s r (opened_joined before after)⟩

/-- A function that frees what it allocated and, blocks and a branch further in, frees it again;
and the declaration of two names. -/
theorem blocks_transparent_at_branch :
    let takes : Stmt := .decl "p" (.call "malloc" [.intLit 4])
    let frees : Stmt := .expr (.call "free" [.varRef "p"])
    let branch (ss : List Stmt) : Stmt := .cond (.ident "x") (.block ss) .absent
    let nested : List Stmt := [takes, .block [frees, .block [branch [.block [frees]]]]]
    let flat := [takes, frees, branch [frees]]
    let file (ss : List Stmt) : List Decl := [.func "f" [] (.base .void) (.block ss)]
    let token (kind : Token.Kind) (lex : String) : Token := ⟨kind, lex, .start⟩
    let text := [token .kwInt "int", token .ident "a", token .comma ",", token .star "*",
      token .ident "b", token .semi ";"]
    let decl : Stmt := .block [.decl "a" .absent, .decl "b" .absent]
    let scopes := (Grammar.Scopes.file.declare "a" false).declare "b" true
    Stmt.Opened nested flat ∧ (∃ r, (Memory.pass .default).stmts 8 flat .empty = .ok r) ∧
      Analysis.check ⟨.default, 9⟩ (file flat) .memory =
        .ok [Memory.Finding.diagnostic (.doubleFree "p")] ∧
      Grammar.Gives (Grammar.localDecl (Grammar.assign · 3) .file text) (decl, scopes) [] ∧
      ∃ ss, decl = Grammar.joined ss ∧ ∀ s ∈ ss, Grammar.Declared (fun _ => True) s := by
  intro takes frees branch nested flat file token text decl scopes
  obtain ⟨hstmts, hfile, hdecl⟩ := blocks_transparent .default .memory
  have hopens : Stmt.Opens (.block [takes, frees, branch [.block [frees]]]) (.block flat) :=
    .within [takes, frees] [] (.yes (.here [] [frees] []))
  have hopened : Stmt.Opened nested flat :=
    .head (.here [takes] [frees, .block [branch [.block [frees]]]] [])
      (.head (.here [takes, frees] [branch [.block [frees]]] []) (.single hopens))
  have hbody : Decl.Opened (file nested) (file flat) :=
    Relation.ReflTransGen.lift (fun s => [Decl.func "f" [] (.base .void) s])
      (fun _ _ h => Decl.Opens.func [] [] h) _ _ hopened
  have hread : Grammar.Gives (Grammar.localDecl (Grammar.assign · 3) .file text)
      (decl, scopes) [] := by
    refine ⟨by decide, ?_⟩
    with_unfolding_all rfl
  obtain ⟨ss, hss, hdeclared, -⟩ := hdecl _ _ _ _ _ _ hread
  exact ⟨hopened, ⟨_, hstmts .empty 8 nested flat .empty _ hopened rfl⟩,
    hfile 9 _ _ _ hbody rfl, hread, ss, hss, hdeclared⟩

end MemLint.Check
