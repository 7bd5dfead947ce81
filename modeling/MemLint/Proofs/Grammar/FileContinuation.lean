import MemLint.Proofs.Grammar.Continuation

/-! Statements and declarations in a longer text. They bring a token to stop at with them, a
semicolon or a brace, and look no further. Only an `if` looks whether an `else` follows. -/

namespace MemLint.Grammar

variable {v : String → Bool} {more ts mid rest : List Token} {scopes scopes' σ : Scopes} {e : Expr}
  {s : Stmt} {value : Scopes → Parser Expr} {stmt : Declaring Stmt}

/-- An `else` follows behind `rest` only if it follows without `more`. -/
def NoElse (more rest : List Token) : Prop := peek (rest ++ more) = .kwElse → peek rest = .kwElse

theorem Guarded.noElse (h : Guarded more rest) : NoElse more rest := fun he => h.peek ▸ he

theorem Guarded.of_peek {k : Token.Kind} (h : Grammar.peek ts = k) (hk : k ≠ .eof) :
    Guarded more ts := by
  obtain ⟨t, rest, rfl, -⟩ := exists_of_peek h hk
  exact .token t rest

/-- Values under scopes that agree. -/
def CarriesValue (more : List Token) (v : String → Bool) (value : Scopes → Parser Expr) : Prop :=
  ∀ ⦃scopes scopes'⦄, scopes.Agree v scopes' → Carries more v (value scopes) (value scopes')

/-- Statements under scopes that agree: the scopes behind them agree too. -/
def CarriesStmt (more : List Token) (v : String → Bool) (stmt : Declaring Stmt) : Prop :=
  ∀ ⦃scopes scopes' ts s σ rest⦄, scopes.Agree v scopes' → Gives (stmt scopes ts) (s, σ) rest →
    NoElse more rest → ∃ s' σ', Gives (stmt scopes' (ts ++ more)) (s', σ') (rest ++ more) ∧
      s.Alike v s' ∧ σ.Agree v σ'

/-! ### Declarators -/

theorem Carries.arrayRule {p q : Parser Expr} (hp : Carries more v p q) {size : Expr}
    (h : ArrayRule p ts size rest) (hr : Guarded more rest) :
    ∃ size', ArrayRule q (ts ++ more) size' (rest ++ more) ∧ size.Alike v size' := by
  cases h with
  | @sized c _ _ _ hb hs hc hl ha =>
    obtain ⟨size', hs', hal⟩ := hp.expression hs (.token c rest)
    have hb' : peek (ts ++ more) ≠ .rbrack := by rwa [peek_of_gives hs]
    have hl' : peek (rest ++ more) ≠ .lbrack := by rwa [hr.peek]
    have ha' : peek (rest ++ more) ≠ .assign := by rwa [hr.peek]
    exact ⟨size', .sized hb' hs' hc hl' ha', hal⟩
  | @filled c a _ mid _ _ _ hb hs hc ha hn =>
    obtain ⟨size', hs', hal⟩ := hp.expression hs (.token c (a :: mid))
    have hb' : peek (ts ++ more) ≠ .rbrack := by rwa [peek_of_gives hs]
    exact ⟨size', .filled hb' hs' hc ha (hp.initList hn), hal⟩
  | counted hc ha hn => exact ⟨_, .counted hc ha (hp.initList hn), rfl⟩

theorem CarriesValue.declaratorRule (hv : CarriesValue more v value) (hs : scopes.Agree v scopes')
    {type : DeclType} {name : String}
    (h : DeclaratorRule value type name scopes ts (s, σ) rest) (hr : Guarded more rest) :
    ∃ s' σ', DeclaratorRule value type name scopes' (ts ++ more) (s', σ') (rest ++ more) ∧
      s.Alike v s' ∧ σ.Agree v σ' := by
  cases h with
  | array ht hsize =>
    obtain ⟨size', hsize', hal⟩ := (hv hs).arrayRule hsize hr
    exact ⟨_, _, .array ht hsize', congrArg Stmt.expr (hal.arrayDecl name), hs.declare name true⟩
  | init ht he =>
    obtain ⟨e', he', hal⟩ := hv hs he hr
    exact ⟨_, _, .init ht he', congrArg (Stmt.decl name) hal, hs.declare name type.isPointer⟩
  | plain hl ha =>
    have hl' : peek (ts ++ more) ≠ .lbrack := by rwa [hr.peek]
    have ha' : peek (ts ++ more) ≠ .assign := by rwa [hr.peek]
    exact ⟨_, _, .plain hl' ha', rfl, hs.declare name type.isPointer⟩

/-- Statements that are alike, and scopes behind them that agree. -/
def AlikeSoFar (v : String → Bool) (r r' : List Stmt × Scopes) : Prop :=
  r.1.map (Stmt.blur v) = r'.1.map (Stmt.blur v) ∧ r.2.Agree v r'.2

theorem AlikeSoFar.cons {done done' : List Stmt} {s s' : Stmt} {τ τ' σ σ' : Scopes}
    (h : AlikeSoFar v (done, τ) (done', τ')) (hs : s.Alike v s') (hσ : σ.Agree v σ') :
    AlikeSoFar v (s :: done, σ) (s' :: done', σ') := ⟨List.cons_eq_cons.2 ⟨hs, h.1⟩, hσ⟩

theorem CarriesValue.declaratorRound (hv : CarriesValue more v value) (base : DeclType.Base) :
    CarriesRound more (AlikeSoFar v) (declaratorRound value base) (declaratorRound value base) where
  step := by
    rintro ⟨done, τ⟩ ⟨done', τ'⟩ ts b rest hal hs hr
    obtain ⟨t, mid, n, mid', s, σ, rfl, ht, hm, hn, hd, rfl⟩ := step_declaratorRound.1 hs
    obtain ⟨s', σ', hd', hsal, hσ⟩ := hv.declaratorRule hal.2 hd hr
    have hstars : Guarded more (absorb star (.base base) mid).2 := by
      rw [hm]
      exact .token n mid'
    have hm' : absorb star (.base base) (mid ++ more) =
        ((absorb star (.base base) mid).1, n :: (mid' ++ more)) := by
      rw [absorb_append hstars, hm]
      rfl
    refine ⟨(s' :: done', σ'), step_declaratorRound.2 ?_, hal.cons hsal hσ⟩
    exact ⟨t, mid ++ more, n, mid' ++ more, s', σ', rfl, ht, by rw [hm'], hn, by rwa [hm'], rfl⟩
  stop a a' ts hs hg := by
    rw [declaratorRound_eq_none] at hs ⊢
    rwa [hg.peek]

/-- Declarators bring their semicolon. -/
theorem CarriesValue.declaratorsRule (hv : CarriesValue more v value) (hs : scopes.Agree v scopes')
    {type : DeclType} {name : String} {ss : List Stmt}
    (h : DeclaratorsRule value type name scopes ts ss σ rest) :
    ∃ ss' σ', DeclaratorsRule value type name scopes' (ts ++ more) ss' σ' (rest ++ more) ∧
      ss.map (Stmt.blur v) = ss'.map (Stmt.blur v) ∧ σ.Agree v σ' := by
  obtain ⟨s, τ, mid, done, t, hfirst, hrounds, ht, rfl⟩ := h
  obtain ⟨s', τ', hfirst', hal, hτ⟩ :=
    hv.declaratorRule hs hfirst (.of_rounds hrounds (.token t rest))
  have hstart : AlikeSoFar v ([s], τ) ([s'], τ') := ⟨List.cons_eq_cons.2 ⟨hal, rfl⟩, hτ⟩
  obtain ⟨⟨done', σ'⟩, hrounds', hdone, hσ⟩ :=
    (hv.declaratorRound type.root).rounds hrounds hstart (.token t rest)
  refine ⟨done'.reverse, σ', ⟨s', τ', _, done', t, hfirst', hrounds', ht, rfl⟩, ?_, hσ⟩
  rw [List.map_reverse, List.map_reverse, hdone]

theorem CarriesValue.localDecl (hv : CarriesValue more v value) (hs : scopes.Agree v scopes')
    (h : Gives (localDecl value scopes ts) (s, σ) rest) :
    ∃ s' σ', Gives (localDecl value scopes' (ts ++ more)) (s', σ') (rest ++ more) ∧
      s.Alike v s' ∧ σ.Agree v σ' := by
  obtain ⟨type, n, mid, ss, ht, hn, hss, rfl⟩ := gives_localDecl.1 h
  obtain ⟨ss', σ', hss', hal, hσ⟩ := hv.declaratorsRule hs hss
  have hdecl := gives_localDecl.2
    ⟨type, n, mid ++ more, ss', declType_append ht (.token n mid), hn, hss', rfl⟩
  exact ⟨_, σ', hdecl, by rw [Stmt.Alike, blur_joined, blur_joined, hal], hσ⟩

/-! ### Statements -/

theorem CarriesStmt.blockRound (hb : CarriesStmt more v stmt) :
    CarriesRound more (AlikeSoFar v) (blockRound stmt) (blockRound stmt) where
  step := by
    rintro ⟨done, τ⟩ ⟨done', τ'⟩ ts b rest hal hs hr
    obtain ⟨hbrace, heof, s, σ, hstmt, rfl⟩ := step_blockRound.1 hs
    obtain ⟨s', σ', hstmt', hsal, hσ⟩ := hb hal.2 hstmt hr.noElse
    have hbrace' : peek (ts ++ more) ≠ .rbrace := by rwa [peek_of_gives hstmt]
    have heof' : peek (ts ++ more) ≠ .eof := by rwa [peek_of_gives hstmt]
    exact ⟨_, step_blockRound.2 ⟨hbrace', heof', s', σ', hstmt', rfl⟩, hal.cons hsal hσ⟩
  stop a a' ts hs hg := by
    rw [blockRound_eq_none] at hs ⊢
    rwa [hg.peek]

/-- A block brings its brace. -/
theorem CarriesStmt.blockRule (hb : CarriesStmt more v stmt) (hs : scopes.Agree v scopes')
    (h : BlockRule stmt scopes ts s rest) :
    ∃ s', BlockRule stmt scopes' (ts ++ more) s' (rest ++ more) ∧ s.Alike v s' := by
  obtain @⟨t, c, ts, _, done, σ, ht, hrounds, hc⟩ := h
  have hstart : AlikeSoFar v ([], scopes.push) ([], scopes'.push) := ⟨rfl, hs.push⟩
  obtain ⟨⟨done', σ'⟩, hrounds', hdone, -⟩ := hb.blockRound.rounds hrounds hstart (.token c rest)
  refine ⟨_, .mk ht hrounds' hc, .block ?_⟩
  rw [List.map_reverse, List.map_reverse, hdone]

theorem Carries.testRule {p q : Parser Expr} (hp : Carries more v p q)
    (h : TestRule p ts e rest) :
    ∃ e', TestRule q (ts ++ more) e' (rest ++ more) ∧ e.Alike v e' := by
  obtain @⟨t, c, ts, _, e, ht, he, hc⟩ := h
  obtain ⟨e', he', hal⟩ := hp.expression he (.token c rest)
  exact ⟨e', .mk ht he' hc, hal⟩

theorem Guarded.of_optional {p : Parser Expr} {stop : Token.Kind}
    (h : OptionalRule stop p ts e rest) (hr : Guarded more rest) : Guarded more ts := by
  cases h with
  | absent => exact hr
  | present _ he => exact .of_gives he

theorem Carries.optionalRule {p q : Parser Expr} (hp : Carries more v p q)
    {stop : Token.Kind} (h : OptionalRule stop p ts e rest) (hr : Guarded more rest) :
    ∃ e', OptionalRule stop q (ts ++ more) e' (rest ++ more) ∧ e.Alike v e' := by
  have hpeek : peek (ts ++ more) = peek ts := (Guarded.of_optional h hr).peek
  cases h with
  | absent hs => exact ⟨.absent, .absent (hpeek.trans hs), rfl⟩
  | present hs he =>
    obtain ⟨e', he', hal⟩ := hp.expression he hr
    exact ⟨e', .present (by rwa [hpeek]) he', hal⟩

theorem CarriesStmt.forInitRule (hb : CarriesStmt more v stmt) (hs : scopes.Agree v scopes')
    (h : ForInitRule stmt scopes ts s σ rest) (hr : Guarded more rest) :
    ∃ s' σ', ForInitRule stmt scopes' (ts ++ more) s' σ' (rest ++ more) ∧
      s.Alike v s' ∧ σ.Agree v σ' := by
  cases h with
  | absent ht => exact ⟨_, _, .absent ht, rfl, hs.push⟩
  | present ht hstmt =>
    obtain ⟨s', σ', hstmt', hal, hσ⟩ := hb hs.push hstmt hr.noElse
    have ht' : peek (ts ++ more) ≠ .semi := by rwa [peek_of_gives hstmt]
    exact ⟨s', σ', .present ht' hstmt', hal, hσ⟩

theorem CarriesStmt.stmtRule (hv : CarriesValue more v value) (hb : CarriesStmt more v stmt)
    (hs : scopes.Agree v scopes') (h : StmtRule value stmt scopes ts s σ rest)
    (hr : NoElse more rest) :
    ∃ s' σ', StmtRule value stmt scopes' (ts ++ more) s' σ' (rest ++ more) ∧
      s.Alike v s' ∧ σ.Agree v σ' := by
  cases h with
  | block hblock =>
    obtain ⟨s', hblock', hal⟩ := hb.blockRule hs hblock
    exact ⟨s', scopes', .block hblock', hal, hs⟩
  | empty ht => exact ⟨_, scopes', .empty ht, rfl, hs⟩
  | @ret t c ts _ x ht hx hc =>
    obtain ⟨x', hx', hal⟩ := (hv hs).optionalRule hx (.token c rest)
    exact ⟨_, scopes', .ret ht hx' hc, congrArg Stmt.ret hal, hs⟩
  | @cond t ts mid _ test yes _ ht htest hyes helse =>
    obtain ⟨test', htest', hal⟩ := (hv hs).testRule htest
    obtain ⟨yes', σ', hyes', hal', hσ⟩ := hb hs hyes hr
    -- of all statements only this one looks at what follows it
    have hcond := StmtRule.cond ht htest' hyes' fun h => helse (hr h)
    exact ⟨_, σ', hcond, by simp only [Stmt.Alike, Stmt.blur, hal, hal'], hσ⟩
  | @condElse t u ts mid mid' _ test yes no τ _ ht htest hyes hu hno =>
    obtain ⟨test', htest', hal⟩ := (hv hs).testRule htest
    obtain ⟨yes', τ', hyes', hal', hτ⟩ := hb hs hyes (Guarded.token u mid').noElse
    obtain ⟨no', σ', hno', hal'', hσ⟩ := hb hτ hno hr
    exact ⟨_, σ', .condElse ht htest' hyes' hu hno',
      by simp only [Stmt.Alike, Stmt.blur, hal, hal', hal''], hσ⟩
  | whileLoop ht htest hbody =>
    obtain ⟨test', htest', hal⟩ := (hv hs).testRule htest
    obtain ⟨body', σ', hbody', hal', hσ⟩ := hb hs hbody hr
    exact ⟨_, σ', .whileLoop ht htest' hbody',
      by simp only [Stmt.Alike, Stmt.blur, hal, hal'], hσ⟩
  | @doLoop t u c ts mid _ test body _ ht hbody hu htest hc =>
    obtain ⟨body', σ', hbody', hal', hσ⟩ := hb hs hbody (Guarded.token u mid).noElse
    obtain ⟨test', htest', hal⟩ := (hv hσ).testRule htest
    exact ⟨_, σ', .doLoop ht hbody' hu htest' hc,
      by simp only [Stmt.Alike, Stmt.blur, hal, hal'], hσ⟩
  | @forLoop t o c c' ts mid mid' mid'' _ init body test post τ _ ht ho hinit htest hc hpost hc'
      hbody =>
    have hmid : Guarded more mid := .of_optional htest (.token c mid')
    obtain ⟨init', τ', hinit', hal, hτ⟩ := hb.forInitRule hs hinit hmid
    obtain ⟨test', htest', hal'⟩ := (hv hτ).optionalRule htest (.token c mid')
    obtain ⟨post', hpost', hal''⟩ := (hv hτ).optionalRule hpost (.token c' mid'')
    obtain ⟨body', σ', hbody', hal''', -⟩ := hb hτ hbody hr
    exact ⟨_, scopes', .forLoop ht ho hinit' htest' hc hpost' hc' hbody',
      by simp only [Stmt.Alike, Stmt.blur, hal, hal', hal'', hal'''], hs⟩
  | jump ht hc => exact ⟨_, scopes', .jump ht hc, rfl, hs⟩
  | decl ht hdecl =>
    obtain ⟨s', σ', hdecl', hal, hσ⟩ := hv.localDecl hs hdecl
    have ht' : (peek (ts ++ more)).startsType := by rw [peek_of_gives hdecl, ht]
    exact ⟨s', σ', .decl ht' hdecl', hal, hσ⟩
  | @expr c _ _ x ht hx hc =>
    obtain ⟨x', hx', hal⟩ := (hv hs).expression hx (.token c rest)
    have ht' : startsExpr (peek (ts ++ more)) := by rw [peek_of_gives hx, ht]
    exact ⟨_, scopes', .expr ht' hx' hc, congrArg Stmt.expr hal, hs⟩

theorem carriesValue_assign (more : List Token) (v : String → Bool) (d : Nat) :
    CarriesValue more v (assign · d) := fun _ _ hs => (carries_expr more hs d).1

/-- Every statement. -/
theorem carriesStmt (more : List Token) (v : String → Bool) (d : Nat) :
    CarriesStmt more v (Grammar.stmt d) := by
  induction d with
  | zero => exact fun _ _ _ _ _ _ _ h => (not_gives_stmt_zero h).elim
  | succ d ih =>
    intro scopes scopes' ts s σ rest hs h hr
    obtain ⟨s', σ', h', hal⟩ :=
      CarriesStmt.stmtRule (carriesValue_assign more v d) ih hs (gives_stmt_succ.1 h) hr
    exact ⟨s', σ', gives_stmt_succ.2 h', hal⟩

/-! ### Parameters -/

theorem skip_append (k : Token.Kind) (h : Guarded more ts) :
    skip k (ts ++ more) = skip k ts ++ more := by
  cases h with
  | token t ts => by_cases hk : t.kind = k <;> simp [skip, hk]
  | last h => rw [h, List.append_nil, List.append_nil]

theorem nameHere_append (h : Guarded more ts) : nameHere (ts ++ more) = nameHere ts := by
  cases h with
  | token t ts => rfl
  | last h => rw [h, List.append_nil]

theorem Guarded.of_skip {k : Token.Kind} (h : Guarded more (skip k ts)) : Guarded more ts := by
  cases ts with
  | nil =>
    unfold skip at h
    split at h <;> exact h
  | cons t ts => exact .token t ts

/-- The place behind the ampersand of a parameter, and the place behind its name. -/
theorem guarded_of_paramRule {type : DeclType} {p : Param} (h : ParamRule type ts p rest)
    (hr : Guarded more rest) :
    Guarded more (skip .amp ts) ∧ Guarded more (skip .ident (skip .amp ts)) := by
  cases h with
  | plain => exact ⟨hr.of_skip, hr⟩
  | @array o _ mid _ ho =>
    have hname : Guarded more (skip .ident (skip .amp ts)) := by
      rw [ho]
      exact .token o mid
    exact ⟨hname.of_skip, hname⟩

theorem paramRule_append {type : DeclType} {p : Param} (h : ParamRule type ts p rest)
    (hr : Guarded more rest) : ParamRule type (ts ++ more) p (rest ++ more) := by
  obtain ⟨hamp, hname⟩ := guarded_of_paramRule h hr
  have hskip : skip .ident (skip .amp (ts ++ more)) = skip .ident (skip .amp ts) ++ more := by
    rw [skip_append .amp hamp.of_skip, skip_append .ident hamp]
  have hhere : nameHere (skip .amp (ts ++ more)) = nameHere (skip .amp ts) := by
    rw [skip_append .amp hamp.of_skip, nameHere_append hamp]
  cases h with
  | plain hl =>
    rw [← hhere, ← hskip]
    refine .plain ?_
    rw [hskip, hname.peek]
    exact hl
  | @array o c mid _ ho hk hc hb =>
    have hint : Guarded more (skip .int mid) := by
      rw [hc]
      exact .token c rest
    have ho' : skip .ident (skip .amp (ts ++ more)) = o :: (mid ++ more) := by
      rw [hskip, ho]
      rfl
    have hc' : skip .int (mid ++ more) = c :: (rest ++ more) := by
      rw [skip_append .int hint.of_skip, hc]
      rfl
    rw [← hhere]
    exact .array ho' hk hc' hb

theorem carries_paramRound (more : List Token) : CarriesRound more Eq paramRound paramRound where
  step := by
    rintro done _ ts b rest rfl hs hr
    obtain ⟨t, mid, type, mid', p, rfl, ht, htype, hp, rfl⟩ := step_paramRound.1 hs
    have htype' := declType_append htype (guarded_of_paramRule hp hr).1.of_skip
    exact ⟨_, step_paramRound.2 ⟨t, mid ++ more, type, mid' ++ more, p, rfl, ht, htype',
      paramRule_append hp hr, rfl⟩, rfl⟩
  stop a a' ts hs hg := by
    rw [paramRound_eq_none] at hs ⊢
    rwa [hg.peek]

theorem paramsFromRule_append {type : DeclType} {ps : List Param}
    (h : ParamsFromRule type ts ps rest) (hr : Guarded more rest) :
    Guarded more ts ∧ ParamsFromRule type (ts ++ more) ps (rest ++ more) := by
  obtain ⟨p, mid, done, hp, hrounds, rfl⟩ := h
  have hmid : Guarded more mid := .of_rounds hrounds hr
  obtain ⟨_, hrounds', rfl⟩ := (carries_paramRound more).rounds hrounds rfl hr
  exact ⟨(guarded_of_paramRule hp hmid).1.of_skip, p, mid ++ more, done, paramRule_append hp hmid,
    hrounds', rfl⟩

theorem paramsRule_append {ps : List Param} (h : ParamsRule ts ps rest) (hr : Guarded more rest) :
    ParamsRule (ts ++ more) ps (rest ++ more) := by
  cases h with
  | none hp => exact .none (hr.peek.trans hp)
  | void ht hp => exact .void ht (hr.peek.trans hp)
  | @voidFrom t ts _ _ ht hne hp =>
    obtain ⟨hstars, hp'⟩ := paramsFromRule_append hp hr
    have hne' : peek (ts ++ more) ≠ .rparen := by rwa [hstars.of_absorb.peek]
    have hfrom : ParamsFromRule (absorb star (.base .void) (ts ++ more)).1
        (absorb star (.base .void) (ts ++ more)).2 ps (rest ++ more) := by
      rw [absorb_append hstars]
      exact hp'
    exact .voidFrom ht hne' hfrom
  | typed hne hv ht hp =>
    obtain ⟨hmid, hp'⟩ := paramsFromRule_append hp hr
    have hne' : peek (ts ++ more) ≠ .rparen := by rwa [peek_of_gives ht]
    have hv' : peek (ts ++ more) ≠ .kwVoid := by rwa [peek_of_gives ht]
    exact .typed hne' hv' (declType_append ht hmid) hp'

/-! ### File scope -/

theorem CarriesStmt.funcRule (hb : CarriesStmt more v stmt) (hs : scopes.Agree v scopes')
    {ret : DeclType} {name : String} {d : Decl} (h : FuncRule stmt ret name scopes ts d rest) :
    ∃ d', FuncRule stmt ret name scopes' (ts ++ more) d' (rest ++ more) ∧
      d.blur v = d'.blur v := by
  cases h with
  | @prototype o c t ts _ ps ho hp hc ht =>
    exact ⟨_, .prototype ho (paramsRule_append hp (.token c (t :: rest))) hc ht, rfl⟩
  | @body o c ts mid _ ps body ho hp hc hbody =>
    obtain ⟨body', hbody', hal⟩ := hb.blockRule (hs.enter ps) hbody
    exact ⟨_, .body ho (paramsRule_append hp (.token c mid)) hc hbody',
      congrArg (Decl.func name ps ret) hal⟩

theorem Guarded.of_declarators {type : DeclType} {name : String} {ss : List Stmt}
    (h : DeclaratorsRule value type name scopes ts ss σ rest) : Guarded more ts := by
  obtain ⟨s, τ, mid, done, t, hfirst, hrounds, -, -⟩ := h
  have hmid : Guarded more mid := .of_rounds hrounds (.token t rest)
  cases hfirst with
  | array => exact .token _ _
  | init => exact .token _ _
  | plain => exact hmid

theorem map_blur_ofStmt (ss : List Stmt) :
    (ss.map Decl.ofStmt).map (Decl.blur v) = (ss.map (Stmt.blur v)).map Decl.ofStmt := by
  rw [List.map_map, List.map_map]
  exact List.map_congr_left fun s _ => blur_ofStmt s

/-- Every declaration. -/
theorem declRule_append {limit : Nat} (hs : scopes.Agree v scopes') {ds : List Decl}
    (h : DeclRule limit scopes ts ds σ rest) (hr : NoElse more rest) :
    ∃ ds' σ', DeclRule limit scopes' (ts ++ more) ds' σ' (rest ++ more) ∧
      ds.map (Decl.blur v) = ds'.map (Decl.blur v) ∧ σ.Agree v σ' := by
  cases h with
  | @func type n mid _ f hstart ht hn hp hf =>
    obtain ⟨f', hf', hal⟩ := (carriesStmt more v limit).funcRule hs hf
    have hstart' : (peek (ts ++ more)).startsType := by rw [peek_of_gives ht, hstart]
    have hp' : peek (mid ++ more) = .lparen := by
      rw [(Guarded.of_peek hp (by decide)).peek, hp]
    refine ⟨[f'], scopes', ?_, by simp [hal], hs⟩
    exact .func hstart' (declType_append ht (.token n mid)) hn hp' hf'
  | @vars type n mid _ ss _ hstart ht hn hp hss =>
    obtain ⟨ss', σ', hss', hal, hσ⟩ := (carriesValue_assign more v limit).declaratorsRule hs hss
    have hstart' : (peek (ts ++ more)).startsType := by rw [peek_of_gives ht, hstart]
    have hp' : peek (mid ++ more) ≠ .lparen := by rwa [(Guarded.of_declarators hss).peek]
    refine ⟨ss'.map Decl.ofStmt, σ', ?_, by rw [map_blur_ofStmt, map_blur_ofStmt, hal], hσ⟩
    exact .vars hstart' (declType_append ht (.token n mid)) hn hp' hss'
  | @stmt _ s _ hstart hstmt =>
    obtain ⟨s', σ', hstmt', hal, hσ⟩ := carriesStmt more v limit hs hstmt hr
    have hstart' : (peek (ts ++ more)).startsType = false := by
      rw [peek_of_gives hstmt, hstart]
    exact ⟨[.stmt s'], σ', .stmt hstart' hstmt', by simp [Decl.blur, hal], hσ⟩

theorem noElse_of_peek (hmore : peek more ≠ .kwElse) (rest : List Token) : NoElse more rest := by
  cases rest with
  | nil => exact fun h => (hmore h).elim
  | cons t ts => exact (Guarded.token t ts).noElse

/-- All declarations of a file. The loop over the longer text goes on where that over the shorter
one is over, behind declarations that are alike. -/
theorem fileRounds_append {limit : Nat} (hmore : peek more ≠ .kwElse) {a r : List Decl × Scopes}
    (h : Rounds (fileRound limit) a ts r rest) {xs : List Decl}
    (hxs : a.1.map (Decl.blur v) = xs.map (Decl.blur v)) (hs : a.2.Agree v scopes')
    (base : List Decl) :
    ∃ ys σ', r.1.map (Decl.blur v) = ys.map (Decl.blur v) ∧ r.2.Agree v σ' ∧
      ∀ q, Rounds (fileRound limit) (ys ++ base, σ') more q [] →
        Rounds (fileRound limit) (xs ++ base, scopes') (ts ++ more) q [] := by
  induction h generalizing scopes' xs with
  | stop hstop =>
    rw [fileRound_eq_none.1 hstop]
    exact ⟨xs, scopes', hxs, hs, fun q hq => hq⟩
  | @next a b c ts mid rest hstep tail ih =>
    obtain ⟨done, scopes⟩ := a
    obtain ⟨ds, σ, hd, rfl⟩ := step_fileRound.1 hstep
    obtain ⟨ds', σ', hd', hal, hσ⟩ := declRule_append hs hd (noElse_of_peek hmore mid)
    have hall : (ds.reverse ++ done).map (Decl.blur v) = (ds'.reverse ++ xs).map (Decl.blur v) := by
      simp only [List.map_append, List.map_reverse, hal, hxs]
    obtain ⟨ys, τ, hys, hτ, hgo⟩ := ih hall hσ
    refine ⟨ys, τ, hys, hτ, fun q hq => ?_⟩
    have hrest := hgo q hq
    rw [List.append_assoc] at hrest
    exact .next (step_fileRound.2 ⟨ds', σ', hd', rfl⟩) hrest

end MemLint.Grammar
