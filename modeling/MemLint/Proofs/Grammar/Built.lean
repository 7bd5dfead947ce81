import MemLint.Proofs.Grammar.FileRules

/-! What the productions build. A property of trees that is closed under what the productions can do
with the trees of the next level holds of all that is parsed. The levels of nesting that are left
are a part of the property, so that it may speak of them. -/

namespace MemLint.Grammar

/-- An expression of one token, or the address of a name. -/
def isLeaf : Expr → Bool
  | .ident _ | .varRef _ | .intLit _ | .stringLit _ | .addr _ => true
  | _ => false

/-- The declaration of one name, with `P` of what stands in it. -/
inductive Declared (P : Expr → Prop) : Stmt → Prop where
  | var {name : String} {init : Expr} (h : init = .absent ∨ P init) : Declared P (.decl name init)
  | array {name : String} {size : Expr} (h : P size) : Declared P (.expr (.arrayDecl name size))
  /-- An array without a size has as many elements as its initialiser. -/
  | counted {name : String} {n : Nat} : Declared P (.expr (.arrayDecl name (.intLit n)))

theorem Declared.mono {P Q : Expr → Prop} {s : Stmt} (h : Declared P s) (hPQ : ∀ {e}, P e → Q e) :
    Declared Q s := by
  cases h with
  | var h => exact .var (h.imp id hPQ)
  | array h => exact .array (hPQ h)
  | counted => exact .counted

/-- A property of the expressions that are built with `d` levels to go. Operators take no level:
what they join has the property `joint` of the level of their operands. -/
structure ExprInvariant where
  holds : (d : Nat) → Expr → Prop
  joint : (d : Nat) → Expr → Prop
  leaf : ∀ {d e}, isLeaf e → holds (d + 1) e
  lift : ∀ {d e}, holds d e → holds (d + 1) e
  deref : ∀ {d x}, holds d x → holds (d + 1) (.deref x)
  call : ∀ {d f args}, (∀ a ∈ args, holds d a) → holds (d + 1) (.call f args)
  index : ∀ {d name i}, holds d i → holds (d + 1) (.index name i)
  /-- A sign is an operator with a literal. -/
  literalLeft : ∀ {d op v x}, holds d x → holds (d + 1) (.binary op (.intLit v) x)
  literalRight : ∀ {d op v x}, holds d x → holds (d + 1) (.binary op x (.intLit v))
  operand : ∀ {d e}, holds d e → joint d e
  binary : ∀ {d op left right}, joint d left → joint d right → joint d (.binary op left right)
  plain : ∀ {d e}, joint d e → holds (d + 1) e
  assign : ∀ {d target value}, target.assignable → joint d target → holds d value →
    holds (d + 1) (.assign target value)
  compound : ∀ {d op target value}, target.assignable → joint d target → holds d value →
    holds (d + 1) (.assign target (.binary op target value))
  /-- A step up or down takes no level. -/
  stepped : ∀ {d op x}, x.assignable → holds (d + 1) x → holds (d + 1) (stepped op x)

/-- A property of the statements that are built with `d` levels to go. -/
structure StmtInvariant extends ExprInvariant where
  stmt : (d : Nat) → Stmt → Prop
  block : ∀ {d ss}, (∀ s ∈ ss, stmt d s) → stmt (d + 1) (.block ss)
  expr : ∀ {d x}, holds d x → stmt (d + 1) (.expr x)
  ret : ∀ {d x}, x = .absent ∨ holds d x → stmt (d + 1) (.ret x)
  jump : ∀ {d kind}, stmt (d + 1) (.jump kind)
  cond : ∀ {d test yes no}, holds d test → stmt d yes → no = .absent ∨ stmt d no →
    stmt (d + 1) (.cond test yes no)
  loop : ∀ {d init test post body}, init = .absent ∨ stmt d init → test = .absent ∨ holds d test →
    post = .absent ∨ holds d post → stmt d body → stmt (d + 1) (.loop init test post body)
  declared : ∀ {d s}, Declared (holds d) s → stmt (d + 1) s
  /-- A block of declarations does not take a level. -/
  joined : ∀ {d ss}, 2 ≤ ss.length → (∀ s ∈ ss, Declared (holds d) s) → stmt (d + 1) (.block ss)

/-- A property of the declarations that are built at file scope. -/
structure DeclInvariant extends StmtInvariant where
  decl : (limit : Nat) → Decl → Prop
  prototype : ∀ {limit name params ret}, decl limit (.func name params ret .absent)
  /-- The body of a function does not take a level. -/
  func : ∀ {limit name params ret ss}, (∀ s ∈ ss, stmt limit s) →
    decl limit (.func name params ret (.block ss))
  global : ∀ {limit s}, Declared (holds limit) s → decl limit (.ofStmt s)
  top : ∀ {limit s}, stmt limit s → decl limit (.stmt s)

variable {P : Expr → Prop} {assign unary operand item : Parser Expr} {ts rest : List Token}
  {e : Expr}

/-- All that the production gives has the property. -/
def Builds (P : Expr → Prop) (p : Parser Expr) : Prop := ∀ ⦃ts e rest⦄, Gives (p ts) e rest → P e

/-! ### Loops -/

theorem Builds.binary (h : Builds P operand)
    (hP : ∀ {op left right}, P left → P right → P (.binary op left right)) (ls : List Level) :
    Builds P (binary operand ls) := by
  induction ls with
  | nil => exact h
  | cons level tighter ih =>
    intro ts e rest hg
    obtain ⟨left, mid, hl, hr⟩ := gives_binary_cons.1 hg
    refine hr.preserve (P := fun e _ => P e) ?_ (ih hl)
    intro left ts e rest hs hw
    obtain ⟨t, mid, op, right, rfl, hop, hright, rfl⟩ := step_binaryRound.1 hs
    exact hP hw (ih hright)

theorem Builds.expression (h : Builds P assign) : Builds P (expression assign) := by
  intro ts e rest hg
  obtain ⟨first, mid, hf, hr⟩ := gives_expression.1 hg
  refine hr.preserve (P := fun e _ => P e) ?_ (h hf)
  intro _ ts e rest hs _
  obtain ⟨t, mid, rfl, -, hx⟩ := step_commaRound.1 hs
  exact h hx

theorem Builds.listed (h : Builds P item) {close : Token.Kind} {xs : List Expr}
    (hl : Listed close item ts xs rest) : ∀ x ∈ xs, P x := by
  obtain ⟨done, t, hr, -, rfl⟩ := hl
  simp only [List.mem_reverse]
  refine hr.preserve (P := fun done _ => ∀ x ∈ done, P x) ?_ (by simp)
  intro done ts done' rest hs hd
  obtain ⟨-, hi⟩ := step_itemRound.1 hs
  cases hi with
  | comma hx _ => exact List.forall_mem_cons.2 ⟨h hx, hd⟩
  | last hx _ _ => exact List.forall_mem_cons.2 ⟨h hx, hd⟩

/-! ### Expressions -/

namespace ExprInvariant

variable {I : ExprInvariant} {d : Nat}

theorem assignWith {op? : Option BinOp} {x v : Expr} (ha : x.assignable) (hx : I.joint d x)
    (hv : I.holds d v) : I.holds (d + 1) (assignWith op? x v) := by
  cases op? with
  | none => exact I.assign ha hx hv
  | some op => exact I.compound ha hx hv

theorem assignment (hu : Builds (I.holds d) unary) (ha : Builds (I.holds d) assign) :
    Builds (I.holds (d + 1)) (assignment unary assign) := by
  have hjoint : Builds (I.joint d) (Grammar.binary unary levels) :=
    Builds.binary (fun _ _ _ h => I.operand (hu h)) I.binary levels
  intro ts e rest hg
  cases gives_assignment.1 hg with
  | plain he _ => exact I.plain (hjoint he)
  | assign hl _ hleft hv => exact I.assignWith hleft (hjoint hl) (ha hv)

theorem primary {scopes : Scopes} (h : PrimaryRule scopes ts e rest) : I.holds (d + 1) e := by
  refine I.leaf ?_
  cases h with
  | name _ =>
    unfold Scopes.ref
    split <;> rfl
  | number _ | string _ | null _ => rfl

theorem postfixed (ha : Builds (I.holds d) assign) {x : Expr} (hx : I.holds (d + 1) x)
    (hr : Rounds (postfixRound assign) x ts e rest) : I.holds (d + 1) e := by
  refine hr.preserve (P := fun e _ => I.holds (d + 1) e) ?_ hx
  intro x ts e rest hs hx
  cases step_postfixRound.1 hs with
  | call _ _ hargs => exact I.call (ha.listed hargs)
  | index _ _ hi _ => exact I.index (ha.expression hi)
  | step _ hassign => exact I.stepped hassign hx

theorem prefixOp {k : Token.Kind} {f : Expr → Expr} (hf : prefixOp? k = some f) {x : Expr}
    (hx : I.holds d x) : I.holds (d + 1) (f x) := by
  unfold prefixOp? at hf
  split at hf <;> cases hf
  case h_1 => exact I.deref hx
  case h_2 =>
    unfold addressOf
    split
    · exact I.leaf rfl
    · exact I.lift hx
  case h_3 =>
    unfold negate
    split
    · exact I.leaf rfl
    · exact I.literalLeft hx
  case h_4 => exact I.lift hx
  case h_5 => exact I.literalRight hx
  case h_6 => exact I.literalLeft hx

theorem callOne {f : String} {x : Expr} (hx : I.holds d x) : I.holds (d + 1) (.call f [x]) :=
  I.call (List.forall_mem_singleton.2 hx)

theorem callNone {f : String} : I.holds (d + 1) (.call f []) := I.call nofun

theorem newCall (ha : Builds (I.holds d) assign) (hn : NewRule assign ts e rest) :
    I.holds (d + 1) e := by
  cases hn with
  | bare _ _ _ => exact I.callNone
  | sized _ _ hs _ _ | filled _ _ hs _ _ _ => exact I.callOne (ha.expression hs)
  | args _ _ hargs => exact I.call (ha.listed hargs)

theorem unaryForm {scopes : Scopes} (ha : Builds (I.holds d) assign)
    (hu : Builds (I.holds d) unary) :
    Builds (I.holds (d + 1)) (unaryForm scopes assign unary) := by
  intro ts e rest hg
  cases gives_unaryForm.1 hg with
  | signed hf hx => exact I.prefixOp hf (hu hx)
  | stepped _ hx hassign => exact I.stepped hassign (I.lift (hu hx))
  | new _ hn => exact I.newCall ha hn
  | delete _ hd =>
    cases hd with
    | plain _ hx | array _ _ hx => exact I.callOne (hu hx)
  | sizeof _ hs =>
    cases hs with
    | type _ _ _ _ => exact I.callNone
    | paren _ _ hx _ => exact I.callOne (ha.expression hx)
    | operand _ hx => exact I.callOne (hu hx)
  | paren _ hp =>
    cases hp with
    | cast _ _ _ he => exact I.lift (hu he)
    | group _ hx _ hr => exact I.postfixed ha (I.lift (ha.expression hx)) hr
  | operand hx hr => exact I.postfixed ha (I.primary hx) hr

/-- The property holds of all that is built with the levels that are left. -/
theorem builds (I : ExprInvariant) (scopes : Scopes) (d : Nat) :
    Builds (I.holds d) (Grammar.assign scopes d) ∧ Builds (I.holds d) (Grammar.unary scopes d) := by
  -- both at once, since each of the two productions uses both with one level less
  induction d with
  | zero =>
    exact ⟨fun _ _ _ h => (not_gives_assign_zero h).elim,
      fun _ _ _ h => (not_gives_unary_zero h).elim⟩
  | succ d ih =>
    obtain ⟨ha, hu⟩ := ih
    refine ⟨fun ts e rest h => ?_, fun ts e rest h => ?_⟩
    · rw [Grammar.assign] at h
      exact I.assignment hu ha h
    · rw [Grammar.unary] at h
      exact I.unaryForm ha hu h

end ExprInvariant

/-! ### Statements -/

variable {value : Scopes → Parser Expr} {stmt : Declaring Stmt} {scopes scopes' : Scopes}

theorem Builds.optionalRule (h : Builds P assign) {stop : Token.Kind}
    (ho : OptionalRule stop assign ts e rest) : e = .absent ∨ P e := by
  cases ho with
  | absent _ => exact .inl rfl
  | present _ he => exact .inr (h.expression he)

theorem Builds.testRule (h : Builds P assign) (ht : TestRule assign ts e rest) : P e := by
  obtain ⟨-, he, -⟩ := ht
  exact h.expression he

theorem declared_of_declarator (hv : ∀ scopes, Builds P (value scopes)) {type : DeclType}
    {name : String} {r : Stmt × Scopes} (h : DeclaratorRule value type name scopes ts r rest) :
    Declared P r.1 := by
  cases h with
  | array _ hs =>
    cases hs with
    | sized _ hs _ _ _ | filled _ hs _ _ _ => exact .array ((hv _).expression hs)
    | counted _ _ _ => exact .counted
  | init _ he => exact .var (.inr (hv _ he))
  | plain _ _ => exact .var (.inl rfl)

theorem declared_of_declarators (hv : ∀ scopes, Builds P (value scopes)) {type : DeclType}
    {name : String} {ss : List Stmt}
    (h : DeclaratorsRule value type name scopes ts ss scopes' rest) :
    ss ≠ [] ∧ ∀ s ∈ ss, Declared P s := by
  obtain ⟨s, σ, mid, done, t, hs, hr, -, rfl⟩ := h
  rw [Ne, List.reverse_eq_nil_iff]
  simp only [List.mem_reverse]
  have hs := declared_of_declarator hv hs
  refine hr.preserve (P := fun r _ => r.1 ≠ [] ∧ ∀ s ∈ r.1, Declared P s) ?_ (by simpa using hs)
  rintro ⟨done, σ⟩ ts r rest hstep ⟨-, hd⟩
  obtain ⟨t, mid, n, mid', s, σ', rfl, -, -, -, hs, rfl⟩ := step_declaratorRound.1 hstep
  exact ⟨List.cons_ne_nil _ _, List.forall_mem_cons.2 ⟨declared_of_declarator hv hs, hd⟩⟩

/-- A block holds what its statements give. -/
theorem exists_of_blockRule {Q : Stmt → Prop}
    (h : ∀ ⦃scopes ts s σ rest⦄, Gives (stmt scopes ts) (s, σ) rest → Q s) {s : Stmt}
    (hb : BlockRule stmt scopes ts s rest) : ∃ ss, s = .block ss ∧ ∀ s ∈ ss, Q s := by
  obtain ⟨-, hr, -⟩ := hb
  refine ⟨_, rfl, ?_⟩
  simp only [List.mem_reverse]
  refine hr.preserve (P := fun r _ => ∀ s ∈ r.1, Q s) ?_ (by simp)
  rintro ⟨done, σ⟩ ts r rest hstep hd
  obtain ⟨-, -, s, σ', hs, rfl⟩ := step_blockRound.1 hstep
  exact List.forall_mem_cons.2 ⟨h hs, hd⟩

namespace StmtInvariant

variable {I : StmtInvariant} {d : Nat}

theorem localDecl (hv : ∀ scopes, Builds (I.holds d) (value scopes)) {s : Stmt}
    (h : Gives (localDecl value scopes ts) (s, scopes') rest) : I.stmt (d + 1) s := by
  obtain ⟨type, n, mid, ss, -, -, hss, rfl⟩ := gives_localDecl.1 h
  obtain ⟨hne, hss⟩ := declared_of_declarators hv hss
  match ss with
  | [] => exact (hne rfl).elim
  | [s] => exact I.declared (hss s (by simp))
  | s :: s' :: ss => exact I.joined (by simp) hss

theorem statement (hv : ∀ scopes, Builds (I.holds d) (value scopes))
    (h : ∀ ⦃scopes ts s σ rest⦄, Gives (stmt scopes ts) (s, σ) rest → I.stmt d s) {s : Stmt}
    (hg : Gives (statement value stmt scopes ts) (s, scopes') rest) : I.stmt (d + 1) s := by
  cases gives_statement.1 hg with
  | block hs =>
    obtain ⟨ss, rfl, hss⟩ := exists_of_blockRule h hs
    exact I.block hss
  | empty _ => exact I.block nofun
  | ret _ hx _ => exact I.ret ((hv _).optionalRule hx)
  | cond _ htest hyes _ => exact I.cond ((hv _).testRule htest) (h hyes) (.inl rfl)
  | condElse _ htest hyes _ hno => exact I.cond ((hv _).testRule htest) (h hyes) (.inr (h hno))
  | whileLoop _ htest hbody =>
    exact I.loop (.inl rfl) (.inr ((hv _).testRule htest)) (.inl rfl) (h hbody)
  | doLoop _ hbody _ htest _ =>
    exact I.loop (.inl rfl) (.inr ((hv _).testRule htest)) (.inl rfl) (h hbody)
  | forLoop _ _ hinit htest _ hpost _ hbody =>
    refine I.loop ?_ ((hv _).optionalRule htest) ((hv _).optionalRule hpost) (h hbody)
    cases hinit with
    | absent _ => exact .inl rfl
    | present _ hs => exact .inr (h hs)
  | jump _ _ => exact I.jump
  | decl _ hs => exact I.localDecl hv hs
  | expr _ hx _ => exact I.expr ((hv _).expression hx)

theorem builds (I : StmtInvariant) (d : Nat) :
    ∀ ⦃scopes ts s σ rest⦄, Gives (Grammar.stmt d scopes ts) (s, σ) rest → I.stmt d s := by
  induction d with
  | zero => exact fun _ _ _ _ _ h => (not_gives_stmt_zero h).elim
  | succ d ih =>
    intro scopes ts s σ rest h
    rw [Grammar.stmt] at h
    exact I.statement (fun scopes => (I.toExprInvariant.builds scopes d).1) ih h

end StmtInvariant

/-! ### Files -/

namespace DeclInvariant

variable {I : DeclInvariant} {limit : Nat}

theorem declRule {ds : List Decl} (h : DeclRule limit scopes ts ds scopes' rest) :
    ∀ d ∈ ds, I.decl limit d := by
  cases h with
  | func _ _ _ _ hf =>
    refine List.forall_mem_singleton.2 ?_
    cases hf with
    | prototype _ _ _ _ => exact I.prototype
    | body _ _ _ hb =>
      obtain ⟨ss, rfl, hss⟩ := exists_of_blockRule (I.toStmtInvariant.builds limit) hb
      exact I.func hss
  | vars _ _ _ _ hss =>
    obtain ⟨-, hss⟩ := declared_of_declarators
      (fun scopes => (I.toExprInvariant.builds scopes limit).1) hss
    simp only [List.mem_map, forall_exists_index, and_imp, forall_apply_eq_imp_iff₂]
    exact fun s hs => I.global (hss s hs)
  | stmt _ hs => exact List.forall_mem_singleton.2 (I.top (I.toStmtInvariant.builds limit hs))

/-- The property holds of all declarations of a file. -/
theorem of_parse (I : DeclInvariant) {source : List Char} {ds : List Decl}
    (h : parse limit source = .ok ds) : ∀ d ∈ ds, I.decl limit d := by
  obtain ⟨done, σ, hr, rfl⟩ := file_eq_ok.1 (parse_eq_ok.1 h)
  simp only [List.mem_reverse]
  refine hr.preserve (P := fun r _ => ∀ d ∈ r.1, I.decl limit d) ?_ (by simp)
  rintro ⟨done, σ⟩ ts r rest hstep hd
  obtain ⟨ds, σ', hds, rfl⟩ := step_fileRound.1 hstep
  intro d hmem
  rcases List.mem_append.1 hmem with hmem | hmem
  · exact I.declRule hds d (List.mem_reverse.1 hmem)
  · exact hd d hmem

end DeclInvariant

end MemLint.Grammar
