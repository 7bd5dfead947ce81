import MemLint.Proofs.Grammar.FileContinuation
import MemLint.Proofs.Grammar.FileDerivation
import MemLint.Proofs.Grammar.Layout
import MemLint.Proofs.Token.Concatenation

/-! Files one behind the other. An accepted text ends with a semicolon or a brace and does not begin
with `else`, so that nothing goes over from one text into the next but the names in scope. -/

namespace MemLint.Grammar

/-! ### How accepted texts end -/

/-- The last token is a semicolon or a closing brace. -/
def Closed (us : List Mark) : Prop :=
  ∃ vs t, us = vs ++ [.other t] ∧ (t.kind = .semi ∨ t.kind = .rbrace)

theorem closed_semi {t : Token} (ht : t.kind = .semi) : Closed [.other t] :=
  ⟨[], t, rfl, .inl ht⟩

theorem closed_brace {t : Token} (ht : t.kind = .rbrace) : Closed [.other t] :=
  ⟨[], t, rfl, .inr ht⟩

theorem Closed.behind {us : List Mark} (h : Closed us) (vs : List Mark) : Closed (vs ++ us) := by
  obtain ⟨ws, t, rfl, ht⟩ := h
  exact ⟨vs ++ ws, t, by rw [List.append_assoc], ht⟩

theorem Closed.cons {us : List Mark} (h : Closed us) (m : Mark) : Closed (m :: us) := h.behind [m]

/-- Statements are closed; what else is derived need not be. -/
def StmtPhrase.Closed (us : List Mark) : StmtPhrase → Prop
  | .stmt _ => Grammar.Closed us
  | _ => True

theorem DerivesStmt.closed {us : List Mark} {ph : StmtPhrase} (h : DerivesStmt us ph) :
    ph.Closed us := by
  induction h with
  | noStmt | nextStmt | noFirst | someFirst => trivial
  | block _ _ hc => exact ((closed_brace hc).behind _).cons _
  | empty ht => exact closed_semi ht
  | ret _ _ hc => exact ((closed_semi hc).behind _).cons _
  | cond _ _ _ _ _ ih => exact (((ih.cons _).behind _).cons _).cons _
  | condElse _ _ _ _ _ _ _ _ ih => exact (((((ih.cons _).behind _).cons _).behind _).cons _).cons _
  | whileLoop _ _ _ _ _ ih => exact (((ih.cons _).behind _).cons _).cons _
  | doLoop _ _ _ _ _ _ hc =>
    exact ((((((closed_semi hc).cons _).behind _).cons _).cons _).behind _).cons _
  | forLoop _ _ _ _ _ _ _ _ _ ih =>
    exact ((((((ih.cons _).behind _).cons _).behind _).behind _).cons _).cons _
  | jump _ hc => exact (closed_semi hc).cons _
  | decl _ _ hc => exact ((closed_semi hc).behind _).behind _
  | expr _ hc => exact (closed_semi hc).behind _

theorem DerivesDecl.closed {us : List Mark} {ds : List Decl} (h : DerivesDecl us ds) :
    Closed us := by
  cases h with
  | @prototype n o c e ts hs _ _ _ _ _ _ _ he =>
    have hend := (closed_semi he).behind ((ts ++ n :: o :: (hs ++ [c])).map .other)
    simpa using hend
  | func _ _ _ _ _ _ _ hc => exact ((closed_brace hc).behind _).behind _
  | vars _ _ hc => exact ((closed_semi hc).behind _).behind _
  | stmt h => exact h.closed

theorem last_of_parse {limit : Nat} {source : List Char} {ds : List Decl}
    (h : parse limit source = .ok ds) {t : Token}
    (ht : (Token.scan source).tokens.getLast? = some t) : t.kind = .semi ∨ t.kind = .rbrace := by
  obtain ⟨us, hus, hfile⟩ := exists_derivesFile h
  rw [← hus] at ht
  cases hfile with
  | nil => cases ht
  | next _ hd =>
    obtain ⟨vs, t', rfl, ht'⟩ := hd.closed
    have heq : t' = t := by simpa [Mark.other] using ht
    exact heq ▸ ht'

/-! ### How accepted texts begin -/

variable {scopes σ : Scopes} {d limit : Nat} {t : Token} {ts rest : List Token} {e : Expr}
  {s : Stmt}

theorem gives_operand_of_binary {unary : Parser Expr} {ls : List Level}
    (h : Gives (binary unary ls ts) e rest) : ∃ x mid, Gives (unary ts) x mid := by
  induction ls generalizing e rest with
  | nil => exact ⟨e, rest, h⟩
  | cons level ls ih =>
    obtain ⟨left, mid, hleft, -⟩ := gives_binary_cons.1 h
    exact ih hleft

theorem unary_ne_else (h : Gives (unary scopes d (t :: ts)) e rest) : t.kind ≠ .kwElse := by
  intro hk
  cases d with
  | zero => exact not_gives_unary_zero h
  | succ d =>
    cases gives_unary_succ.1 h with
    | signed ht | stepped ht | new ht | delete ht | sizeof ht | paren ht =>
      rw [hk] at ht
      cases ht
    | operand hx _ =>
      cases hx with
      | name ht | string ht | null ht =>
        rw [hk] at ht
        cases ht
      | number hv => simp [literal?, hk] at hv

theorem expression_ne_else (h : Gives (expression (assign scopes d) (t :: ts)) e rest) :
    t.kind ≠ .kwElse := by
  obtain ⟨first, mid, hfirst, -⟩ := gives_expression.1 h
  cases d with
  | zero => exact (not_gives_assign_zero hfirst).elim
  | succ d =>
    cases gives_assign_succ.1 hfirst with
    | plain he _ =>
      obtain ⟨x, mid, hx⟩ := gives_operand_of_binary he
      exact unary_ne_else hx
    | assign hl _ _ _ =>
      obtain ⟨x, mid, hx⟩ := gives_operand_of_binary hl
      exact unary_ne_else hx

theorem stmt_ne_else (h : Gives (stmt d scopes (t :: ts)) (s, σ) rest) : t.kind ≠ .kwElse := by
  intro hk
  cases d with
  | zero => exact not_gives_stmt_zero h
  | succ d =>
    cases gives_stmt_succ.1 h with
    | block hb =>
      have hbrace : t.kind = .lbrace := hb.peek_eq
      rw [hk] at hbrace
      cases hbrace
    | empty ht | ret ht | cond ht | condElse ht | whileLoop ht | doLoop ht | forLoop ht | jump ht =>
      rw [hk] at ht
      cases ht
    | decl ht _ =>
      rw [peek_cons, hk] at ht
      cases ht
    | expr _ hx _ => exact expression_ne_else hx hk

theorem peek_of_parse {source : List Char} {ds : List Decl} (h : parse limit source = .ok ds) :
    peek (Token.scan source).tokens ≠ .kwElse := by
  obtain ⟨done, σ, hrounds, -⟩ := file_eq_ok.1 (parse_eq_ok.1 h)
  generalize (Token.scan source).tokens = ts at hrounds ⊢
  cases hrounds with
  | stop => decide
  | next hstep _ =>
    obtain ⟨ds, σ, hd, -⟩ := step_fileRound.1 hstep
    cases ts with
    | nil => decide
    | cons t ts =>
      cases hd with
      | func hs _ _ _ _ | vars hs _ _ _ _ =>
        intro hk
        rw [hk] at hs
        cases hs
      | stmt _ hs => exact stmt_ne_else hs

/-! ### Two files -/

/-- Rounds that do not look at places. -/
theorem BlindRound.rounds {α : Type} {round : Round α} (h : BlindRound round) {ts ts' : List Token}
    {a b : α} (hr : Rounds round a ts b rest) (hm : Moved ts ts') :
    ∃ rest', Moved rest rest' ∧ Rounds round a ts' b rest' := by
  induction hr generalizing ts' with
  | @stop a ts hstop =>
    have hrel := h a hm
    rw [hstop] at hrel
    generalize hr' : round a ts' = y at hrel
    cases hrel
    exact ⟨ts', hm, .stop hr'⟩
  | @next a b c ts mid rest hs tail ih =>
    obtain ⟨x, hx, hg⟩ := hs
    have hrel := h a hm
    rw [hx] at hrel
    generalize hr' : round a ts' = y at hrel
    cases hrel with
    | some hsame =>
      cases hsame with
      | error => exact (not_gives_error hg).elim
      | @ok r r' hagree =>
        obtain ⟨rfl, rfl⟩ := gives_ok.1 hg
        obtain ⟨rest', hrest, htail⟩ := ih hagree.rest
        exact ⟨rest', hrest, .next ⟨_, hr', gives_ok.2 ⟨hagree.val.symm, rfl⟩⟩ htail⟩

theorem blur_all_none (ds : List Decl) : ds.map (Decl.blur fun _ => false) = ds := by
  rw [List.map_congr_left fun d _ => d.blur_none, List.map_id']

/-- Two accepted texts with a line break between them are accepted, and the declarations of the
second stand behind those of the first. -/
theorem files_concatenate {s₁ s₂ : List Char} {ds₁ ds₂ : List Decl}
    (h₁ : parse limit s₁ = .ok ds₁) (h₂ : parse limit s₂ = .ok ds₂) (hnul : Char.ofNat 0 ∉ s₁)
    (hopen : Token.endsInComment true s₁ = false) :
    ∃ ds, parse limit (s₁ ++ '\n' :: s₂) = .ok (ds₁ ++ ds) ∧
      ds.map Decl.plain = ds₂.map Decl.plain := by
  have hlexemes := Token.scan_append_line hnul hopen (fun t ht => by
    rcases last_of_parse h₁ ht with hk | hk <;> rw [hk] <;> decide) s₂
  have helse := peek_of_parse h₂
  obtain ⟨done₁, σ₁, hr₁, rfl⟩ := file_eq_ok.1 (parse_eq_ok.1 h₁)
  obtain ⟨done₂, σ₂, hr₂, rfl⟩ := file_eq_ok.1 (parse_eq_ok.1 h₂)
  have hstart (v : String → Bool) : ([] : List Decl).map (Decl.blur v) = [].map (Decl.blur v) := rfl
  -- nothing is blurred in the first text
  have hfile : Scopes.file.Agree (fun _ => false) .file := fun _ _ => rfl
  obtain ⟨ys, σ, hys, -, hgo₁⟩ := fileRounds_append helse hr₁ (hstart _) hfile []
  simp only [blur_all_none] at hys
  -- and what the first text declares may blur every name in the second
  have hany : Scopes.file.Agree (fun _ => true) σ := fun _ h => Bool.noConfusion h
  have hnil : peek [] ≠ .kwElse := by decide
  obtain ⟨zs, τ, hzs, -, hgo₂⟩ := fileRounds_append hnil hr₂ (hstart _) hany ys
  have hsecond := hgo₂ (zs ++ ys, τ) (.stop rfl)
  rw [List.append_nil, List.nil_append] at hsecond
  have hboth := hgo₁ (zs ++ ys, τ) (by rw [List.append_nil]; exact hsecond)
  obtain ⟨_, hend, hrounds⟩ := (blind_fileRound limit).rounds hboth (.of_lexemes hlexemes.symm)
  cases hend
  refine ⟨zs.reverse, parse_eq_ok.2 (file_eq_ok.2 ⟨_, _, hrounds, ?_⟩), ?_⟩
  · rw [List.reverse_append, hys]
  · rw [List.map_reverse, List.map_reverse]
    exact congrArg List.reverse hzs.symm

/-- The first text ends with an `if` that could have an `else`, and with a comment that could go on.
A `#` line begins the second, which a NUL ends. There `p` holds a pointer only behind the first. -/
theorem files_concatenate_at_if :
    parse 5 "int *p; if (p); // /*".toList =
      .ok [.var "p" .absent, .stmt (.cond (.varRef "p") (.block []) .absent)] ∧
    parse 5 "#x\np;\x00*".toList = .ok [.stmt (.expr (.ident "p"))] ∧
    Char.ofNat 0 ∉ "int *p; if (p); // /*".toList ∧
    Token.endsInComment true "int *p; if (p); // /*".toList = false ∧
    ∃ ds, parse 5 ("int *p; if (p); // /*".toList ++ '\n' :: "#x\np;\x00*".toList) =
        .ok ([.var "p" .absent, .stmt (.cond (.varRef "p") (.block []) .absent)] ++ ds) ∧
      ds.map Decl.plain = [Decl.stmt (.expr (.ident "p"))].map Decl.plain := by
  have h₁ : parse 5 "int *p; if (p); // /*".toList =
      .ok [.var "p" .absent, .stmt (.cond (.varRef "p") (.block []) .absent)] := by
    with_unfolding_all rfl
  have h₂ : parse 5 "#x\np;\x00*".toList = .ok [.stmt (.expr (.ident "p"))] := by
    with_unfolding_all rfl
  have hnul : Char.ofNat 0 ∉ "int *p; if (p); // /*".toList := by simp
  have hopen : Token.endsInComment true "int *p; if (p); // /*".toList = false := by
    with_unfolding_all rfl
  exact ⟨h₁, h₂, hnul, hopen, files_concatenate h₁ h₂ hnul hopen⟩

end MemLint.Grammar
