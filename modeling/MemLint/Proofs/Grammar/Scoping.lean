import MemLint.Proofs.Grammar.Built
import MemLint.Proofs.Grammar.FileDerivation
import MemLint.Proofs.Grammar.References
import MemLint.Proofs.Tree

/-! Scopes of names. Declarations that are in force form a list, the latest first, and a reference
looks like what the first of them says about its name. The grammar is given once more with these
lists: what a block, the head of a `for` or the parameters of a function declare ends with them, and
what any other statement declares goes on. Whatever is parsed is derived so, and the scopes of the
parser change by just these declarations. Where a scope is closed, the scopes around it are those
from before it was opened. -/

namespace MemLint.Grammar

/-! ### Declarations in force -/

/-- Names and whether they are declared to hold a pointer, the latest declaration first. -/
abbrev Env := List (String × Bool)

/-- What the latest declaration of a name says, or that it holds no pointer. -/
def Env.isPointer (env : Env) (name : String) : Bool := (env.lookup name).getD false

theorem Env.isPointer_cons (env : Env) (name other : String) (pointer : Bool) :
    Env.isPointer ((name, pointer) :: env) other =
      if other = name then pointer else env.isPointer other := by
  by_cases h : other = name
  · simp [isPointer, h]
  · simp [isPointer, List.lookup_cons, beq_false_of_ne h, h]

/-- The parameters that have a name. -/
def Env.params (ps : List Param) : Env :=
  ((ps.filter (·.name ≠ "")).map fun p => (p.name, p.isPointer)).reverse

namespace Scopes

/-- The scopes as a stack, the innermost one on top. -/
def stack (scopes : Scopes) : List (Table Bool) := scopes.inner :: scopes.outer

/-- Declares a name on top of a stack. An empty one has no place for it. -/
def declareOn? (name : String) (pointer : Bool) : List (Table Bool) → Option (List (Table Bool))
  | [] => none
  | table :: tables => some (table.set name pointer :: tables)

/-- Declares the names in the innermost scope, the last one first. -/
def declareAll (scopes : Scopes) (new : Env) : Scopes :=
  new.foldr (fun d scopes => scopes.declare d.1 d.2) scopes

variable {scopes : Scopes} {env : Env}

@[simp] theorem declareAll_nil (scopes : Scopes) : scopes.declareAll [] = scopes := rfl

@[simp] theorem declareAll_cons (scopes : Scopes) (d : String × Bool) (new : Env) :
    scopes.declareAll (d :: new) = (scopes.declareAll new).declare d.1 d.2 := rfl

theorem declareAll_append (scopes : Scopes) (new new' : Env) :
    scopes.declareAll (new' ++ new) = (scopes.declareAll new).declareAll new' :=
  List.foldr_append

theorem outer_declareAll (scopes : Scopes) (new : Env) :
    (scopes.declareAll new).outer = scopes.outer := by
  induction new with
  | nil => rfl
  | cons d new ih => exact ih

/-- Below a scope that was pushed, whatever is declared in it, stand the scopes from before. -/
theorem tail_stack_push (scopes : Scopes) (new : Env) :
    (scopes.push.declareAll new).stack.tail = scopes.stack :=
  scopes.push.outer_declareAll new

theorem enter_eq (scopes : Scopes) (ps : List Param) :
    scopes.enter ps = scopes.push.declareAll (Env.params ps) := by
  simp [enter, declareAll, Env.params, List.foldr_reverse, List.foldl_map, List.foldl_filter]

/-- The scopes say of every name what the declarations in force say. -/
def Matches (scopes : Scopes) (env : Env) : Prop := scopes.isPointer = env.isPointer

theorem matches_file : Matches .file [] := rfl

/-- All declarations that the scopes hold, from the innermost scope outwards. -/
def inForce (scopes : Scopes) : Env := (scopes.inner :: scopes.outer).flatMap Table.entries

theorem lookup_entries (t : Table Bool) (name : String) : t.entries.lookup name = t.get? name := by
  rw [Table.get?]
  induction t.entries with
  | nil => rfl
  | cons entry entries ih =>
    rw [Table.find?, List.lookup_cons, ih]
    by_cases h : name = entry.1
    · simp [h]
    · simp [h, beq_false_of_ne h]

theorem matches_inForce (scopes : Scopes) : scopes.Matches scopes.inForce := by
  funext name
  rw [isPointer, inForce, Env.isPointer]
  congr 1
  induction scopes.inner :: scopes.outer with
  | nil => rfl
  | cons table tables ih =>
    rw [List.flatMap_cons, List.lookup_append, lookup_entries, ← ih, List.findSome?_cons]
    cases table.get? name <;> rfl

theorem Matches.push (h : scopes.Matches env) : scopes.push.Matches env := by
  funext name
  rw [isPointer_push, h]

theorem Matches.declareAll (h : scopes.Matches env) (new : Env) :
    (scopes.declareAll new).Matches (new ++ env) := by
  induction new with
  | nil => exact h
  | cons d new ih =>
    funext name
    rw [declareAll_cons, isPointer_declare, List.cons_append, Env.isPointer_cons, ih]

end Scopes

/-! ### References -/

/-- References look like what is known of their names. -/
def referring (pointer : String → Bool) : NodeRule where
  expr
    | .ident name => pointer name = false ∨ name = "nullptr"
    | .varRef name => pointer name = true
    | _ => True

section References

variable {pointer : String → Bool} {scopes : Scopes} {assign unary : Parser Expr} {d : Nat}
  {ts rest : List Token} {e x v : Expr}

theorem refers_assignWith (op? : Option BinOp) (hx : x.Every (referring pointer))
    (hv : v.Every (referring pointer)) : (assignWith op? x v).Every (referring pointer) := by
  cases op? with
  | none => exact ⟨trivial, hx, hv⟩
  | some op => exact ⟨trivial, hx, trivial, hx, hv⟩

theorem refers_call {f : String} {args : List Expr} (h : ∀ a ∈ args, a.Every (referring pointer)) :
    (Expr.call f args).Every (referring pointer) := ⟨trivial, Expr.everyOf_iff.2 h⟩

theorem refers_prefixOp {k : Token.Kind} {f : Expr → Expr} (hf : prefixOp? k = some f)
    (hx : x.Every (referring pointer)) : (f x).Every (referring pointer) := by
  unfold prefixOp? at hf
  split at hf <;> cases hf
  case h_1 => exact ⟨trivial, hx⟩
  case h_2 =>
    unfold addressOf
    split
    · exact trivial
    · exact hx
  case h_3 =>
    unfold negate
    split
    · exact trivial
    · exact ⟨trivial, trivial, hx⟩
  case h_4 => exact hx
  case h_5 => exact ⟨trivial, hx, trivial⟩
  case h_6 => exact ⟨trivial, trivial, hx⟩

theorem refers_primary (h : PrimaryRule scopes ts e rest) :
    e.Every (referring scopes.isPointer) := by
  cases h with
  | @name t _ _ =>
    unfold Scopes.ref
    split
    next hp => exact hp
    next hp => exact .inl (Bool.eq_false_iff.2 hp)
  | number _ | string _ => exact trivial
  | null _ => exact .inr rfl

theorem refers_postfixed (ha : Builds (Expr.Every (referring pointer)) assign)
    (hx : x.Every (referring pointer)) (hr : Rounds (postfixRound assign) x ts e rest) :
    e.Every (referring pointer) := by
  refine hr.preserve (P := fun e _ => e.Every (referring pointer)) ?_ hx
  intro x ts e rest hs hx
  cases step_postfixRound.1 hs with
  | call _ _ hargs => exact refers_call (ha.listed hargs)
  | index _ _ hi _ => exact ⟨trivial, ha.expression hi⟩
  | @step _ _ op _ _ => exact refers_assignWith (some op) hx trivial

theorem refers_assignment (hu : Builds (Expr.Every (referring pointer)) unary)
    (ha : Builds (Expr.Every (referring pointer)) assign) :
    Builds (Expr.Every (referring pointer)) (assignment unary assign) := by
  have hjoined : Builds (Expr.Every (referring pointer)) (binary unary levels) :=
    hu.binary (fun hl hr => ⟨trivial, hl, hr⟩) levels
  intro ts e rest h
  cases gives_assignment.1 h with
  | plain he _ => exact hjoined he
  | @assign _ _ _ _ _ op? hl _ _ hv => exact refers_assignWith op? (hjoined hl) (ha hv)

theorem refers_unaryForm (ha : Builds (Expr.Every (referring scopes.isPointer)) assign)
    (hu : Builds (Expr.Every (referring scopes.isPointer)) unary) :
    Builds (Expr.Every (referring scopes.isPointer)) (unaryForm scopes assign unary) := by
  have hone {f : String} {x : Expr} (hx : x.Every (referring scopes.isPointer)) :
      (Expr.call f [x]).Every (referring scopes.isPointer) :=
    refers_call (List.forall_mem_singleton.2 hx)
  intro ts e rest h
  cases gives_unaryForm.1 h with
  | signed hf hx => exact refers_prefixOp hf (hu hx)
  | @stepped _ _ _ op _ _ hx _ => exact refers_assignWith (some op) (hu hx) trivial
  | new _ hn =>
    cases hn with
    | bare _ _ _ => exact refers_call (List.forall_mem_nil _)
    | sized _ _ hs _ _ | filled _ _ hs _ _ _ => exact hone (ha.expression hs)
    | args _ _ hargs => exact refers_call (ha.listed hargs)
  | delete _ hd =>
    cases hd with
    | plain _ hx | array _ _ hx => exact hone (hu hx)
  | sizeof _ hs =>
    cases hs with
    | type _ _ _ _ => exact refers_call (List.forall_mem_nil _)
    | paren _ _ hx _ => exact hone (ha.expression hx)
    | operand _ hx => exact hone (hu hx)
  | paren _ hp =>
    cases hp with
    | cast _ _ _ he => exact hu he
    | group _ hx _ hr => exact refers_postfixed ha (ha.expression hx) hr
  | operand hx hr => exact refers_postfixed ha (refers_primary hx) hr

/-- References look like what the scopes say, with which the expression is parsed. -/
theorem refers_expr (scopes : Scopes) (d : Nat) :
    Builds (Expr.Every (referring scopes.isPointer)) (Grammar.assign scopes d) ∧
      Builds (Expr.Every (referring scopes.isPointer)) (Grammar.unary scopes d) := by
  induction d with
  | zero =>
    exact ⟨fun _ _ _ h => (not_gives_assign_zero h).elim,
      fun _ _ _ h => (not_gives_unary_zero h).elim⟩
  | succ d ih =>
    obtain ⟨ha, hu⟩ := ih
    refine ⟨fun ts e rest h => ?_, fun ts e rest h => ?_⟩
    · rw [Grammar.assign] at h
      exact refers_assignment hu ha h
    · rw [Grammar.unary] at h
      exact refers_unaryForm ha hu h

end References

/-! ### The grammar with scopes -/

/-- An expression of which the references look like what the declarations in force say. -/
structure Uses (env : Env) (us : List Mark) (e : Expr) : Prop where
  derives : Derives us (.expr e)
  refers : e.Every (referring env.isPointer)

inductive UsesMaybe (env : Env) : List Mark → Expr → Prop where
  | none : UsesMaybe env [] .absent
  | some {us : List Mark} {e : Expr} (h : Uses env us e) : UsesMaybe env us e

/-- The name that a declaration of the type declares. An array is a pointer. -/
def declaration? (type : DeclType) : Stmt → Option (String × Bool)
  | .decl name _ => some (name, type.isPointer)
  | .expr (.arrayDecl name _) => some (name, true)
  | _ => none

/-- The declaration of one name, whose value is in the scope of the declarations before it only. -/
structure DeclaresIn (env : Env) (type : DeclType) (us : List Mark) (s : Stmt)
    (new : String × Bool) : Prop where
  derives : DeclaresName us s
  refers : s.Every (referring env.isPointer)
  declares : declaration? type s = some new

/-- The declarations of names of one base type, each in the scope of those before it. -/
inductive ScopedNames (env : Env) (type : DeclType) : List Mark → List Stmt → Env → Prop where
  | one {us : List Mark} {s : Stmt} {n : String × Bool} (h : DeclaresIn env type us s n) :
      ScopedNames env type us [s] [n]
  | more {t : Token} {stars : List Token} {us vs : List Mark} {ss : List Stmt} {s : Stmt}
      {type' : DeclType} {new : Env} {n : String × Bool} (hss : ScopedNames env type us ss new)
      (ht : t.kind = .comma) (hstars : stars.foldlM star (.base type.root) = some type')
      (hs : DeclaresIn (new ++ env) type' vs s n) :
      ScopedNames env type (us ++ .other t :: (stars.map .other ++ vs)) (ss ++ [s]) (n :: new)

/-- A statement in the scope of the declarations, and the declarations that it adds to them. -/
inductive ScopedStmt : Env → List Mark → StmtPhrase → Env → Prop where
  | noStmt {env : Env} : ScopedStmt env [] (.stmts []) []
  | nextStmt {env new new' : Env} {us vs : List Mark} {ss : List Stmt} {s : Stmt}
      (hss : ScopedStmt env us (.stmts ss) new) (hs : ScopedStmt (new ++ env) vs (.stmt s) new') :
      ScopedStmt env (us ++ vs) (.stmts (ss ++ [s])) (new' ++ new)
  /-- What is declared in a block ends with it. -/
  | block {env new : Env} {o c : Token} {us : List Mark} {ss : List Stmt} (ho : o.kind = .lbrace)
      (hss : ScopedStmt env us (.stmts ss) new) (hc : c.kind = .rbrace) :
      ScopedStmt env (.other o :: (us ++ [.other c])) (.stmt (.block ss)) []
  | empty {env : Env} {t : Token} (ht : t.kind = .semi) :
      ScopedStmt env [.other t] (.stmt (.block [])) []
  | ret {env : Env} {t c : Token} {us : List Mark} {x : Expr} (ht : t.kind = .kwReturn)
      (hx : UsesMaybe env us x) (hc : c.kind = .semi) :
      ScopedStmt env (.other t :: (us ++ [.other c])) (.stmt (.ret x)) []
  | cond {env new : Env} {t o c : Token} {us vs : List Mark} {test : Expr} {yes : Stmt}
      (ht : t.kind = .kwIf) (ho : o.kind = .lparen) (htest : Uses env us test)
      (hc : c.kind = .rparen) (hyes : ScopedStmt env vs (.stmt yes) new) :
      ScopedStmt env (.other t :: .other o :: (us ++ .other c :: vs))
        (.stmt (.cond test yes .absent)) new
  | condElse {env new new' : Env} {t o c u : Token} {us vs ws : List Mark} {test : Expr}
      {yes no : Stmt} (ht : t.kind = .kwIf) (ho : o.kind = .lparen) (htest : Uses env us test)
      (hc : c.kind = .rparen) (hyes : ScopedStmt env vs (.stmt yes) new) (hu : u.kind = .kwElse)
      (hno : ScopedStmt (new ++ env) ws (.stmt no) new') :
      ScopedStmt env (.other t :: .other o :: (us ++ .other c :: (vs ++ .other u :: ws)))
        (.stmt (.cond test yes no)) (new' ++ new)
  | whileLoop {env new : Env} {t o c : Token} {us vs : List Mark} {test : Expr} {body : Stmt}
      (ht : t.kind = .kwWhile) (ho : o.kind = .lparen) (htest : Uses env us test)
      (hc : c.kind = .rparen) (hbody : ScopedStmt env vs (.stmt body) new) :
      ScopedStmt env (.other t :: .other o :: (us ++ .other c :: vs))
        (.stmt (.loop .absent test .absent body)) new
  | doLoop {env new : Env} {t u o c c' : Token} {us vs : List Mark} {test : Expr} {body : Stmt}
      (ht : t.kind = .kwDo) (hbody : ScopedStmt env us (.stmt body) new) (hu : u.kind = .kwWhile)
      (ho : o.kind = .lparen) (htest : Uses (new ++ env) vs test) (hc : c.kind = .rparen)
      (hc' : c'.kind = .semi) :
      ScopedStmt env (.other t :: (us ++ .other u :: .other o :: (vs ++ [.other c, .other c'])))
        (.stmt (.loop .absent test .absent body)) new
  | noFirst {env : Env} {t : Token} (ht : t.kind = .semi) :
      ScopedStmt env [.other t] (.first .absent) []
  | someFirst {env new : Env} {us : List Mark} {s : Stmt} (h : ScopedStmt env us (.stmt s) new) :
      ScopedStmt env us (.first s) new
  /-- What is declared in the head or in the body ends with the loop. -/
  | forLoop {env new new' : Env} {t o c c' : Token} {us vs ws xs : List Mark} {init body : Stmt}
      {test post : Expr} (ht : t.kind = .kwFor) (ho : o.kind = .lparen)
      (hinit : ScopedStmt env us (.first init) new) (htest : UsesMaybe (new ++ env) vs test)
      (hc : c.kind = .semi) (hpost : UsesMaybe (new ++ env) ws post) (hc' : c'.kind = .rparen)
      (hbody : ScopedStmt (new ++ env) xs (.stmt body) new') :
      ScopedStmt env (.other t :: .other o :: (us ++ (vs ++ .other c :: (ws ++ .other c' :: xs))))
        (.stmt (.loop init test post body)) []
  | jump {env : Env} {t c : Token} {kind : Jump} (ht : jumpKind? t.kind = some kind)
      (hc : c.kind = .semi) : ScopedStmt env [.other t, .other c] (.stmt (.jump kind)) []
  | decl {env new : Env} {c : Token} {ts : List Token} {us : List Mark} {type : DeclType}
      {ss : List Stmt} (ht : TypeText ts type) (hss : ScopedNames env type us ss new)
      (hc : c.kind = .semi) :
      ScopedStmt env (ts.map .other ++ (us ++ [.other c])) (.stmt (joined ss)) new
  | expr {env : Env} {c : Token} {us : List Mark} {x : Expr} (hx : Uses env us x)
      (hc : c.kind = .semi) : ScopedStmt env (us ++ [.other c]) (.stmt (.expr x)) []

inductive ScopedDecl (env : Env) : List Mark → List Decl → Env → Prop where
  | prototype {n o c e : Token} {ts hs : List Token} {type : DeclType} {ps : List Param}
      (ht : TypeText ts type) (hn : n.kind = .ident) (ho : o.kind = .lparen) (hp : HeadText hs ps)
      (hc : c.kind = .rparen) (he : e.kind = .semi) :
      ScopedDecl env ((ts ++ n :: o :: (hs ++ [c, e])).map .other) [.func n.lex ps type .absent] []
  /-- What the parameters and the body declare ends with the function. -/
  | func {n o c o' c' : Token} {ts hs : List Token} {us : List Mark} {type : DeclType}
      {ps : List Param} {ss : List Stmt} {new : Env} (ht : TypeText ts type) (hn : n.kind = .ident)
      (ho : o.kind = .lparen) (hp : HeadText hs ps) (hc : c.kind = .rparen)
      (ho' : o'.kind = .lbrace) (hss : ScopedStmt (Env.params ps ++ env) us (.stmts ss) new)
      (hc' : c'.kind = .rbrace) :
      ScopedDecl env ((ts ++ n :: o :: (hs ++ [c, o'])).map .other ++ (us ++ [.other c']))
        [.func n.lex ps type (.block ss)] []
  | vars {c : Token} {ts : List Token} {us : List Mark} {type : DeclType} {ss : List Stmt}
      {new : Env} (ht : TypeText ts type) (hss : ScopedNames env type us ss new)
      (hc : c.kind = .semi) :
      ScopedDecl env (ts.map .other ++ (us ++ [.other c])) (ss.map Decl.ofStmt) new
  | stmt {us : List Mark} {s : Stmt} {new : Env} (h : ScopedStmt env us (.stmt s) new) :
      ScopedDecl env us [.stmt s] new

/-- A file, and the declarations in force at its end. -/
inductive ScopedFile : List Mark → List Decl → Env → Prop where
  | nil : ScopedFile [] [] []
  | next {us vs : List Mark} {ds ds' : List Decl} {env new : Env} (hds : ScopedFile us ds env)
      (hd : ScopedDecl env vs ds' new) : ScopedFile (us ++ vs) (ds ++ ds') (new ++ env)

/-! ### What the productions declare -/

section Productions

variable {stmt : Declaring Stmt} {scopes σ : Scopes} {env : Env} {d : Nat}
  {ts mid rest : List Token} {e : Expr} {s : Stmt}

theorem uses_of_expression (hm : scopes.Matches env)
    (h : Gives (expression (assign scopes d) ts) e rest) :
    ∃ us, Spans ts us rest ∧ Uses env us e := by
  obtain ⟨us, hus, hd⟩ := (derived scopes d).1.expression h
  exact ⟨us, hus, hd, hm ▸ (refers_expr scopes d).1.expression h⟩

theorem uses_of_optional (hm : scopes.Matches env) {stop : Token.Kind}
    (h : OptionalRule stop (assign scopes d) ts e rest) :
    ∃ us, Spans ts us rest ∧ UsesMaybe env us e := by
  cases h with
  | absent _ => exact ⟨[], .nil _, .none⟩
  | present _ he =>
    obtain ⟨us, hus, he⟩ := uses_of_expression hm he
    exact ⟨us, hus, .some he⟩

theorem uses_of_test (hm : scopes.Matches env) (h : TestRule (assign scopes d) ts e mid)
    {vs : List Mark} (hvs : Spans mid vs rest) :
    ∃ o c us, Spans ts (.other o :: (us ++ .other c :: vs)) rest ∧ o.kind = .lparen ∧
      Uses env us e ∧ c.kind = .rparen := by
  obtain ⟨o, c, us, hus, ho, he, hc⟩ := test_of_rule (derived scopes d).1 h hvs
  exact ⟨o, c, us, hus, ho, ⟨he, hm ▸ (refers_expr scopes d).1.testRule h⟩, hc⟩

theorem declaresIn_of_rule (hm : scopes.Matches env) {type : DeclType} {n : Token}
    (hn : n.kind = .ident) (h : DeclaratorRule (assign · d) type n.lex scopes ts (s, σ) rest) :
    ∃ us new, Spans (n :: ts) us rest ∧ DeclaresIn env type us s new ∧
      σ = scopes.declare new.1 new.2 := by
  obtain ⟨us, hus, hname⟩ := declaresName_of_rule (fun scopes => (derived scopes d).1) hn h
  have hbuilds : Builds (Expr.Every (referring env.isPointer)) (assign scopes d) :=
    hm ▸ (refers_expr scopes d).1
  cases h with
  | array _ hs =>
    refine ⟨us, _, hus, ⟨hname, ?_, rfl⟩, rfl⟩
    cases hs with
    | sized _ hs _ _ _ | filled _ hs _ _ _ => exact ⟨trivial, trivial, hbuilds.expression hs⟩
    | counted _ _ _ => exact ⟨trivial, trivial, trivial⟩
  | init _ he => exact ⟨us, _, hus, ⟨hname, ⟨trivial, .inr (hbuilds he)⟩, rfl⟩, rfl⟩
  | plain _ _ => exact ⟨us, _, hus, ⟨hname, ⟨trivial, .inl rfl⟩, rfl⟩, rfl⟩

theorem scopedNames_of_rule (hm : scopes.Matches env) {type : DeclType} {n : Token}
    (hn : n.kind = .ident) {ss : List Stmt}
    (h : DeclaratorsRule (assign · d) type n.lex scopes ts ss σ rest) :
    ∃ c us new, Spans (n :: ts) us (c :: rest) ∧ ScopedNames env type us ss new ∧
      c.kind = .semi ∧ σ = scopes.declareAll new := by
  obtain ⟨s, σ₁, mid, done, c, hs, hr, hc, rfl⟩ := h
  obtain ⟨us, new, hus, hfirst, rfl⟩ := declaresIn_of_rule hm hn hs
  have hdone : ∃ us new, Spans (n :: ts) us (c :: rest) ∧
      ScopedNames env type us done.reverse new ∧ σ = scopes.declareAll new := by
    apply hr.preserve (P := fun r mid => ∃ us new, Spans (n :: ts) us mid ∧
      ScopedNames env type us r.1.reverse new ∧ r.2 = scopes.declareAll new)
    · rintro ⟨done, σ⟩ mid r rest hstep ⟨us, new, hus, hss, hσ⟩
      obtain ⟨t, mid, n', mid', s, σ', rfl, ht, hmid, hn', hs, rfl⟩ := step_declaratorRound.1 hstep
      obtain ⟨stars, hstars, hv'⟩ := absorb_eq star (.base type.root) mid
      subst hσ
      obtain ⟨vs, new', hvs, hnext, rfl⟩ := declaresIn_of_rule (hm.declareAll new) hn' hs
      rw [hmid] at hstars
      have hspan : Spans mid (stars.map .other ++ vs) rest := by
        rw [hstars]
        exact (Spans.other stars _).append hvs
      refine ⟨_, new' :: new, hus.append (hspan.cons (.other t)), ?_, rfl⟩
      rw [List.reverse_cons]
      exact .more hss ht hv' hnext
    · exact ⟨us, [new], hus, .one hfirst, rfl⟩
  obtain ⟨us, new, hus, hss, hσ⟩ := hdone
  exact ⟨c, us, new, hus, hss, hc, hσ⟩

/-- Whatever the production gives is derived in the scope of the declarations in force, and what it
adds to them is declared in the innermost scope. -/
def Scoping (p : Declaring Stmt) : Prop :=
  ∀ ⦃scopes env ts s σ rest⦄, scopes.Matches env → Gives (p scopes ts) (s, σ) rest →
    ∃ us new, Spans ts us rest ∧ ScopedStmt env us (.stmt s) new ∧ σ = scopes.declareAll new

/-- The statements of a block. -/
theorem Scoping.rounds (h : Scoping stmt) (hm : scopes.Matches env) {done : List Stmt}
    (hr : Rounds (blockRound stmt) ([], scopes.push) ts (done, σ) rest) :
    ∃ us new, Spans ts us rest ∧ ScopedStmt env us (.stmts done.reverse) new ∧
      σ = scopes.push.declareAll new := by
  apply hr.preserve (P := fun r mid => ∃ us new, Spans ts us mid ∧
    ScopedStmt env us (.stmts r.1.reverse) new ∧ r.2 = scopes.push.declareAll new)
  · rintro ⟨done, σ⟩ mid r rest hstep ⟨us, new, hus, hss, hσ⟩
    obtain ⟨-, -, s, σ', hs, rfl⟩ := step_blockRound.1 hstep
    subst hσ
    obtain ⟨vs, new', hvs, hnext, rfl⟩ := h (hm.push.declareAll new) hs
    refine ⟨_, new' ++ new, hus.append hvs, ?_, ?_⟩
    · rw [List.reverse_cons]
      exact .nextStmt hss hnext
    · rw [Scopes.declareAll_append]
  · exact ⟨[], [], .nil ts, .noStmt, rfl⟩

theorem Scoping.block (h : Scoping stmt) (hm : scopes.Matches env)
    (hb : BlockRule stmt scopes ts s rest) :
    ∃ o c us ss new, Spans ts (.other o :: (us ++ [.other c])) rest ∧ o.kind = .lbrace ∧
      c.kind = .rbrace ∧ ScopedStmt env us (.stmts ss) new ∧ s = .block ss := by
  obtain @⟨o, c, ts, _, done, σ, ho, hr, hc⟩ := hb
  -- the scope that was pushed for the block is not given back
  obtain ⟨us, new, hus, hss, -⟩ := h.rounds hm hr
  exact ⟨o, c, us, _, new, (hus.append (.one (.other c) _)).cons (.other o), ho, hc, hss, rfl⟩

theorem Scoping.first (h : Scoping stmt) (hm : scopes.Matches env)
    (hf : ForInitRule stmt scopes ts s σ rest) :
    ∃ us new, Spans ts us rest ∧ ScopedStmt env us (.first s) new ∧
      σ = scopes.push.declareAll new := by
  cases hf with
  | @absent t _ ht => exact ⟨_, [], .one (.other t) _, .noFirst ht, rfl⟩
  | present _ hs =>
    obtain ⟨us, new, hus, hfirst, rfl⟩ := h hm.push hs
    exact ⟨us, new, hus, .someFirst hfirst, rfl⟩

theorem Scoping.statement (h : Scoping stmt) : Scoping (statement (assign · d) stmt) := by
  intro scopes env ts s σ rest hm hg
  cases gives_statement.1 hg with
  | block hb =>
    obtain ⟨o, c, us, ss, new, hspan, ho, hc, hss, rfl⟩ := h.block hm hb
    exact ⟨_, [], hspan, .block ho hss hc, rfl⟩
  | @empty t _ ht => exact ⟨_, [], .one (.other t) _, .empty ht, rfl⟩
  | @ret t c _ _ x ht hx hc =>
    obtain ⟨us, hus, hx⟩ := uses_of_optional hm hx
    exact ⟨_, [], (hus.append (.one (.other c) _)).cons (.other t), .ret ht hx hc, rfl⟩
  | @cond t _ _ _ _ _ _ ht htest hyes _ =>
    obtain ⟨vs, new, hvs, hscoped, rfl⟩ := h hm hyes
    obtain ⟨o, c, us, hus, ho, htest, hc⟩ := uses_of_test hm htest hvs
    exact ⟨_, new, hus.cons (.other t), .cond ht ho htest hc hscoped, rfl⟩
  | @condElse t u _ _ _ _ _ _ _ _ _ ht htest hyes hu hno =>
    obtain ⟨vs, new, hvs, hscoped, rfl⟩ := h hm hyes
    obtain ⟨ws, new', hws, hscoped', rfl⟩ := h (hm.declareAll new) hno
    have hbranches := hvs.append (hws.cons (.other u))
    obtain ⟨o, c, us, hus, ho, htest, hc⟩ := uses_of_test hm htest hbranches
    exact ⟨_, new' ++ new, hus.cons (.other t), .condElse ht ho htest hc hscoped hu hscoped',
      (scopes.declareAll_append new new').symm⟩
  | @whileLoop t _ _ _ _ _ _ ht htest hbody =>
    obtain ⟨vs, new, hvs, hscoped, rfl⟩ := h hm hbody
    obtain ⟨o, c, us, hus, ho, htest, hc⟩ := uses_of_test hm htest hvs
    exact ⟨_, new, hus.cons (.other t), .whileLoop ht ho htest hc hscoped, rfl⟩
  | @doLoop t u c' _ _ _ _ _ σ ht hbody hu htest hc' =>
    obtain ⟨us, new, hus, hscoped, rfl⟩ := h hm hbody
    obtain ⟨o, c, vs, hvs, ho, htest, hc⟩ :=
      uses_of_test (hm.declareAll new) htest (.one (.other c') rest)
    exact ⟨_, new, (hus.append (hvs.cons (.other u))).cons (.other t),
      .doLoop ht hscoped hu ho htest hc hc', rfl⟩
  | @forLoop t o c c' _ _ _ _ _ _ _ _ _ σ _ ht ho hinit htest hc hpost hc' hbody =>
    obtain ⟨us, new, hus, hfirst, rfl⟩ := h.first hm hinit
    have hm' := hm.push.declareAll new
    obtain ⟨vs, hvs, htest⟩ := uses_of_optional hm' htest
    obtain ⟨ws, hws, hpost⟩ := uses_of_optional hm' hpost
    -- what the body declares is dropped with the scope of the head
    obtain ⟨xs, new', hxs, hbody, -⟩ := h hm' hbody
    have hhead := hvs.append ((hws.append (hxs.cons (.other c'))).cons (.other c))
    exact ⟨_, [], ((hus.append hhead).cons (.other o)).cons (.other t),
      .forLoop ht ho hfirst htest hc hpost hc' hbody, rfl⟩
  | @jump t c _ kind ht hc =>
    exact ⟨_, [], (Spans.one (.other c) _).cons (.other t), .jump ht hc, rfl⟩
  | decl _ hs =>
    obtain ⟨type, n, mid, ss, htype, hn, hss, rfl⟩ := gives_localDecl.1 hs
    obtain ⟨part, rfl, hpart⟩ := typeText_of_gives htype
    obtain ⟨c, us, new, hus, hnames, hc, rfl⟩ := scopedNames_of_rule hm hn hss
    exact ⟨_, new, (Spans.other part _).append (hus.append (.one (.other c) _)),
      .decl hpart hnames hc, rfl⟩
  | @expr c _ _ x _ hx hc =>
    obtain ⟨us, hus, hx⟩ := uses_of_expression hm hx
    exact ⟨_, [], hus.append (.one (.other c) _), .expr hx hc, rfl⟩

theorem scoping_stmt (d : Nat) : Scoping (Grammar.stmt d) := by
  induction d with
  | zero => exact fun _ _ _ _ _ _ _ h => (not_gives_stmt_zero h).elim
  | succ d ih =>
    intro scopes env ts s σ rest hm h
    rw [Grammar.stmt] at h
    exact ih.statement hm h

theorem scopedDecl_of_rule (hm : scopes.Matches env) {limit : Nat} {ds : List Decl}
    (h : DeclRule limit scopes ts ds σ rest) :
    ∃ us new, Spans ts us rest ∧ ScopedDecl env us ds new ∧ σ = scopes.declareAll new := by
  cases h with
  | @func type n mid _ f _ ht hn _ hf =>
    obtain ⟨part, rfl, htype⟩ := typeText_of_gives ht
    cases hf with
    | @prototype o c e _ _ ps ho hp hc he =>
      obtain ⟨head, rfl, hhead⟩ := headText_of_rule hp
      refine ⟨_, [], ?_, .prototype htype hn ho hhead hc he, rfl⟩
      have h := Spans.other (part ++ n :: o :: (head ++ [c, e])) rest
      simpa using h
    | @body o c _ mid _ ps _ ho hp hc hb =>
      obtain ⟨head, rfl, hhead⟩ := headText_of_rule hp
      have hparams : (scopes.enter ps).Matches (Env.params ps ++ env) := by
        rw [Scopes.enter_eq]
        exact hm.push.declareAll _
      obtain ⟨o', c', us, ss, new, hus, ho', hc', hss, rfl⟩ := (scoping_stmt limit).block hparams hb
      refine ⟨_, [], ?_, .func htype hn ho hhead hc ho' hss hc', rfl⟩
      have h := (Spans.other (part ++ n :: o :: (head ++ [c])) mid).append hus
      simpa using h
  | vars _ ht hn _ hss =>
    obtain ⟨part, rfl, htype⟩ := typeText_of_gives ht
    obtain ⟨c, us, new, hus, hnames, hc, rfl⟩ := scopedNames_of_rule hm hn hss
    exact ⟨_, new, (Spans.other part _).append (hus.append (.one (.other c) _)),
      .vars htype hnames hc, rfl⟩
  | stmt _ hs =>
    obtain ⟨us, new, hus, hscoped, rfl⟩ := scoping_stmt limit hm hs
    exact ⟨us, new, hus, .stmt hscoped, rfl⟩

/-- A block and a loop with a head give the scopes back as they were. -/
theorem scopes_of_closed (h : Gives (Grammar.stmt d scopes ts) (s, σ) rest)
    (hts : peek ts = .lbrace ∨ peek ts = .kwFor) : σ = scopes := by
  cases d with
  | zero => exact (not_gives_stmt_zero h).elim
  | succ d =>
    cases gives_stmt_succ.1 h with
    | block | empty | ret | forLoop | jump | expr => rfl
    | cond ht | condElse ht | whileLoop ht | doLoop ht => simp [ht] at hts
    | decl ht _ =>
      rcases hts with hts | hts <;>
        simp [hts, Token.Kind.startsType, Token.Kind.isType, Token.Kind.isQualifier] at ht

theorem scopes_of_func {limit : Nat} {ds : List Decl} (h : DeclRule limit scopes ts ds σ rest)
    {name : String} {ps : List Param} {ret : DeclType} {body : Stmt}
    (hf : .func name ps ret body ∈ ds) : σ = scopes := by
  cases h with
  | func => rfl
  | vars =>
    obtain ⟨s, -, hs⟩ := List.mem_map.1 hf
    unfold Decl.ofStmt at hs
    split at hs <;> cases hs
  | stmt => cases List.mem_singleton.1 hf

/-- The scopes under that of a block, at its end. -/
theorem tail_stack_of_block {done : List Stmt}
    (h : Rounds (blockRound (Grammar.stmt d)) ([], scopes.push) ts (done, σ) rest) :
    σ.stack.tail = scopes.stack := by
  obtain ⟨-, new, -, -, rfl⟩ := (scoping_stmt d).rounds scopes.matches_inForce h
  exact scopes.tail_stack_push new

/-- The scopes under that of a loop with a head, at the end of its body. -/
theorem tail_stack_of_for {init body : Stmt} {σ' : Scopes} {ts' : List Token}
    (hinit : ForInitRule (Grammar.stmt d) scopes ts init σ mid)
    (hbody : Gives (Grammar.stmt d σ ts') (body, σ') rest) : σ'.stack.tail = scopes.stack := by
  obtain ⟨-, new, -, -, rfl⟩ := (scoping_stmt d).first scopes.matches_inForce hinit
  have hm := scopes.matches_inForce.push.declareAll new
  obtain ⟨-, new', -, -, rfl⟩ := scoping_stmt d hm hbody
  rw [← Scopes.declareAll_append]
  exact scopes.tail_stack_push _

theorem exists_scopedFile {limit : Nat} {source : List Char} {ds : List Decl}
    (h : parse limit source = .ok ds) :
    ∃ us env, us.map Mark.token = (Token.scan source).tokens ∧ ScopedFile us ds env := by
  obtain ⟨done, σ, hr, rfl⟩ := file_eq_ok.1 (parse_eq_ok.1 h)
  generalize (Token.scan source).tokens = ts at hr ⊢
  have hfile : ∃ us env, Spans ts us [] ∧ ScopedFile us done.reverse env ∧ σ.Matches env := by
    apply hr.preserve (P := fun r mid => ∃ us env, Spans ts us mid ∧
      ScopedFile us r.1.reverse env ∧ r.2.Matches env)
    · rintro ⟨done, σ⟩ mid r rest hstep ⟨us, env, hus, hds, hm⟩
      obtain ⟨ds, σ', hd, rfl⟩ := step_fileRound.1 hstep
      obtain ⟨vs, new, hvs, hscoped, rfl⟩ := scopedDecl_of_rule hm hd
      refine ⟨_, new ++ env, hus.append hvs, ?_, hm.declareAll new⟩
      rw [List.reverse_append, List.reverse_reverse]
      exact .next hds hscoped
    · exact ⟨[], [], .nil ts, .nil, Scopes.matches_file⟩
  obtain ⟨us, env, hus, hds, -⟩ := hfile
  exact ⟨us, env, by rw [hus, List.append_nil], hds⟩

end Productions

/-- Whatever the scopes are, an expression declares nothing. A statement, or what stands at file
scope, declares names in the innermost scope only, those that outlive it; a block, a `for` and a
function declare none. And in a text that is accepted every reference looks like what the latest
declaration in force says, where a declaration in a block, in the head of a loop, as a parameter or
in a function is in force only there. The scopes are a stack with a place for each name that is
declared; with the scope of a block, of a loop with a head or of the parameters taken from it, it is
the stack from before. -/
theorem declarations_stay_in_scope :
    (∀ ⦃d scopes ts e rest⦄, Gives (expression (assign scopes d) ts) e rest →
      ∃ us, Spans ts us rest ∧ Uses scopes.inForce us e) ∧
    (∀ ⦃d scopes ts s σ rest⦄, Gives (stmt d scopes ts) (s, σ) rest →
      (∃ us new, Spans ts us rest ∧ ScopedStmt scopes.inForce us (.stmt s) new ∧
        σ = scopes.declareAll new) ∧
      σ.outer = scopes.outer ∧ (peek ts = .lbrace ∨ peek ts = .kwFor → σ = scopes)) ∧
    (∀ ⦃limit scopes ts ds σ rest⦄, Gives (decl limit scopes ts) (ds, σ) rest →
      (∃ us new, Spans ts us rest ∧ ScopedDecl scopes.inForce us ds new ∧
        σ = scopes.declareAll new) ∧
      σ.outer = scopes.outer ∧ ∀ name ps ret body, .func name ps ret body ∈ ds → σ = scopes) ∧
    (∀ ⦃limit source ds⦄, parse limit source = .ok ds →
      ∃ us env, us.map Mark.token = (Token.scan source).tokens ∧ ScopedFile us ds env) ∧
    (∀ (scopes : Scopes) name pointer,
      Scopes.declareOn? name pointer scopes.stack = some (scopes.declare name pointer).stack) ∧
    (∀ ⦃d⦄ ⦃scopes σ : Scopes⦄ ⦃ts done rest⦄,
      Rounds (blockRound (stmt d)) ([], scopes.push) ts (done, σ) rest →
        σ.stack.tail = scopes.stack) ∧
    (∀ ⦃d scopes ts init σ mid ts' body σ' rest⦄, ForInitRule (stmt d) scopes ts init σ mid →
      Gives (stmt d σ ts') (body, σ') rest → σ'.stack.tail = scopes.stack) ∧
    ∀ (scopes : Scopes) ps, (scopes.enter ps).stack.tail = scopes.stack := by
  refine ⟨fun d scopes ts e rest h => uses_of_expression scopes.matches_inForce h, ?_, ?_,
    fun limit source ds h => exists_scopedFile h, fun scopes name pointer => rfl,
    fun d scopes σ ts done rest h => tail_stack_of_block h,
    fun d scopes ts init σ mid ts' body σ' rest hinit hbody => tail_stack_of_for hinit hbody,
    fun scopes ps => ?_⟩
  · intro d scopes ts s σ rest h
    obtain ⟨us, new, hus, hs, rfl⟩ := scoping_stmt d scopes.matches_inForce h
    exact ⟨⟨us, new, hus, hs, rfl⟩, scopes.outer_declareAll new, scopes_of_closed h⟩
  · intro limit scopes ts ds σ rest h
    have hrule := gives_decl.1 h
    obtain ⟨us, new, hus, hds, rfl⟩ := scopedDecl_of_rule scopes.matches_inForce hrule
    exact ⟨⟨us, new, hus, hds, rfl⟩, scopes.outer_declareAll new,
      fun name ps ret body hf => scopes_of_func hrule hf⟩
  · rw [Scopes.enter_eq]
    exact scopes.tail_stack_push _

/-- A pointer at file scope, hidden by a parameter and by the head of a loop. -/
theorem declarations_stay_in_scope_at_shadows :
    let source := "int *g; int f(int g) { for (int *g;;) *g; g; } int h() { *g; }"
    ∃ ds us env, parse 9 source.toList = .ok ds ∧
      us.map Mark.token = (Token.scan source.toList).tokens ∧ ScopedFile us ds env ∧
      ds = [.var "g" .absent,
        .func "f" [⟨"g", .base .int⟩] (.base .int)
          (.block [.loop (.decl "g" .absent) .absent .absent (.expr (.deref (.varRef "g"))),
            .expr (.ident "g")]),
        .func "h" [] (.base .int) (.block [.expr (.deref (.varRef "g"))])] := by
  intro source
  have hparse : parse 9 source.toList = .ok [.var "g" .absent,
      .func "f" [⟨"g", .base .int⟩] (.base .int)
        (.block [.loop (.decl "g" .absent) .absent .absent (.expr (.deref (.varRef "g"))),
          .expr (.ident "g")]),
      .func "h" [] (.base .int) (.block [.expr (.deref (.varRef "g"))])] := by
    dsimp only [source]
    with_unfolding_all rfl
  obtain ⟨-, -, -, hfile, -⟩ := declarations_stay_in_scope
  obtain ⟨us, env, htokens, hscoped⟩ := hfile hparse
  exact ⟨_, us, env, hparse, htokens, hscoped, rfl⟩

end MemLint.Grammar
