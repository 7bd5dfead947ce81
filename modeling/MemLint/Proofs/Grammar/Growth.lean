import Mathlib.Algebra.Group.Nat.Defs
import MemLint.Proofs.Grammar.FileDerivation
import MemLint.Proofs.Grammar.Nesting
import MemLint.Proofs.Grammar.RoundTrip

/-! How large a parsed tree can be. A compound assignment and a step up or down put their target
into the tree twice, and where such an expression is part of the target of another one, it is
doubled again. So no multiple of the tokens bounds the nodes of a tree. But each level of targets
inside targets at most doubles what a token stands for, and where there is none a token stands for
two nodes at most. -/

namespace MemLint

namespace Expr

mutual

/-- The number of expressions in the tree. -/
def nodes : Expr → Nat
  | absent => 0
  | call _ args => nodesOf args + 1
  | deref x => x.nodes + 1
  | binary _ left right => left.nodes + right.nodes + 1
  | assign target value => target.nodes + value.nodes + 1
  | index _ i => i.nodes + 1
  | arrayDecl _ size => size.nodes + 1
  | _ => 1

def nodesOf : List Expr → Nat
  | [] => 0
  | e :: es => e.nodes + nodesOf es

end

/-- The assignment is `x = x op v`, with the target once more in the value. -/
def repeats (target : Expr) : Expr → Bool
  | binary _ left _ => same left target
  | _ => false

mutual

/-- The number of repeated targets that are inside each other, where they are most. -/
def copies : Expr → Nat
  | call _ args => copiesOf args
  | deref x => x.copies
  | binary _ left right => max left.copies right.copies
  | assign target value => max (target.copies + (repeats target value).toNat) value.copies
  | index _ i => i.copies
  | arrayDecl _ size => size.copies
  | _ => 0

def copiesOf : List Expr → Nat
  | [] => 0
  | e :: es => max e.copies (copiesOf es)

end

end Expr

namespace Stmt

mutual

/-- The number of statements and expressions in the tree. -/
def nodes : Stmt → Nat
  | absent => 0
  | block ss => nodesOf ss + 1
  | expr x => x.nodes + 1
  | decl _ init => init.nodes + 1
  | cond test yes no => test.nodes + yes.nodes + no.nodes + 1
  | loop init test post body => init.nodes + test.nodes + post.nodes + body.nodes + 1
  | ret x => x.nodes + 1
  | _ => 1

def nodesOf : List Stmt → Nat
  | [] => 0
  | s :: ss => s.nodes + nodesOf ss

end

mutual

/-- The number of repeated targets that are inside each other, where they are most. -/
def copies : Stmt → Nat
  | block ss => copiesOf ss
  | expr x => x.copies
  | decl _ init => init.copies
  | cond test yes no => max test.copies (max yes.copies no.copies)
  | loop init test post body => max (max init.copies test.copies) (max post.copies body.copies)
  | ret x => x.copies
  | _ => 0

def copiesOf : List Stmt → Nat
  | [] => 0
  | s :: ss => max s.copies (copiesOf ss)

end

theorem nodesOf_append (ss ss' : List Stmt) : nodesOf (ss ++ ss') = nodesOf ss + nodesOf ss' := by
  induction ss with
  | nil => simp [nodesOf]
  | cons s ss ih => simp [nodesOf, ih, Nat.add_assoc]

theorem copiesOf_append (ss ss' : List Stmt) :
    copiesOf (ss ++ ss') = max (copiesOf ss) (copiesOf ss') := by
  induction ss with
  | nil => simp [copiesOf]
  | cons s ss ih => simp [copiesOf, ih, Nat.max_assoc]

end Stmt

namespace Decl

/-- The number of nodes in the tree. -/
def nodes : Decl → Nat
  | absent => 0
  | foreign _ => 1
  | func _ _ _ body => body.nodes + 1
  | var _ init => init.nodes + 1
  | stmt s => s.nodes + 1

def nodesOf : List Decl → Nat
  | [] => 0
  | d :: ds => d.nodes + nodesOf ds

/-- The number of repeated targets that are inside each other, where they are most. -/
def copies : Decl → Nat
  | func _ _ _ body => body.copies
  | var _ init => init.copies
  | stmt s => s.copies
  | _ => 0

def copiesOf : List Decl → Nat
  | [] => 0
  | d :: ds => max d.copies (copiesOf ds)

theorem nodesOf_append (ds ds' : List Decl) : nodesOf (ds ++ ds') = nodesOf ds + nodesOf ds' := by
  induction ds with
  | nil => simp [nodesOf]
  | cons d ds ih => simp [nodesOf, ih, Nat.add_assoc]

theorem copiesOf_append (ds ds' : List Decl) :
    copiesOf (ds ++ ds') = max (copiesOf ds) (copiesOf ds') := by
  induction ds with
  | nil => simp [copiesOf]
  | cons d ds ih => simp [copiesOf, ih, Nat.max_assoc]

/-- Apart from itself, a statement at file scope has no more in it than elsewhere. -/
theorem nodes_ofStmt (s : Stmt) :
    (ofStmt s).nodes ≤ s.nodes + 1 ∧ (ofStmt s).copies = s.copies := by
  unfold ofStmt
  split
  · exact ⟨Nat.le_succ _, rfl⟩
  · exact ⟨Nat.le_refl _, rfl⟩

theorem nodesOf_ofStmt (ss : List Stmt) :
    nodesOf (ss.map ofStmt) ≤ Stmt.nodesOf ss + ss.length ∧
      copiesOf (ss.map ofStmt) = Stmt.copiesOf ss := by
  induction ss with
  | nil => exact ⟨Nat.le_refl 0, rfl⟩
  | cons s ss ih =>
    have := nodes_ofStmt s
    simp only [List.map_cons, List.length_cons, nodesOf, copiesOf, Stmt.nodesOf, Stmt.copiesOf]
    omega

end Decl

end MemLint

namespace MemLint.Grammar

open Token (Lexeme)

/-! ### Room for nodes -/

/-- The tokens have room for so many nodes, with so many levels of copies: a token has room for two
nodes, and for twice as many with every level. -/
def Room (tokens nodes copies : Nat) : Prop := nodes ≤ 2 ^ (copies + 1) * tokens

namespace Room

variable {n m a b c d : Nat}

theorem nil (c : Nat) : Room 0 0 c := Nat.zero_le _

theorem deepen (h : Room n a c) (hc : c ≤ d) : Room n a d :=
  Nat.le_trans h (Nat.mul_le_mul_right n (Nat.pow_le_pow_right (by decide) (by omega)))

/-- Further tokens have room for two nodes each. -/
theorem more (h : Room n a c) (k : Nat) : Room (n + k) (a + 2 * k) c := by
  have htwo : 2 ≤ 2 ^ (c + 1) := Nat.le_self_pow (Nat.succ_ne_zero c) 2
  have hk : 2 * k ≤ 2 ^ (c + 1) * k := Nat.mul_le_mul_right k htwo
  unfold Room at *
  rw [Nat.mul_add]
  omega

theorem loosen (h : Room n a c) (hn : n ≤ m) (ha : b + 2 * n ≤ a + 2 * m) (hc : c ≤ d) :
    Room m b d := by
  obtain ⟨k, rfl⟩ := Nat.le.dest hn
  have hroom := (h.more k).deepen hc
  unfold Room at *
  omega

theorem add (h : Room n a c) (h' : Room m b d) : Room (n + m) (a + b) (max c d) := by
  have hl := h.deepen (Nat.le_max_left c d)
  have hr := h'.deepen (Nat.le_max_right c d)
  unfold Room at *
  rw [Nat.mul_add]
  omega

/-- What is copied has twice the nodes, on one more level. -/
theorem double (h : Room n a c) : Room n (2 * a) (c + 1) := by
  unfold Room at *
  rw [Nat.pow_succ, Nat.mul_assoc, Nat.mul_left_comm]
  omega

end Room

/-! ### Expressions -/

/-- An expression leaves room for one node more. -/
def Fits (n : Nat) (e : Expr) : Prop := Room n (e.nodes + 1) e.copies

def Phrase.Fits (n : Nat) : Phrase → Prop
  | .operand e | .joined _ e | .value e | .expr e => Grammar.Fits n e
  | .items es => Room n (Expr.nodesOf es) (Expr.copiesOf es)
  | .init _ => True

section Expressions

variable {n m : Nat} {e x v : Expr}

theorem Fits.mono (h : Fits n e) (hn : n ≤ m) : Fits m e := h.loosen hn (by omega) (Nat.le_refl _)

theorem fits_leaf (hn : 1 ≤ n) (he : isLeaf e) : Fits n e := by
  have hsize : e.nodes = 1 ∧ e.copies = 0 := by
    cases e with
    | ident | varRef | intLit | stringLit | addr => exact ⟨rfl, rfl⟩
    | _ => cases he
  exact (Room.nil 0).loosen (Nat.zero_le n) (by omega) (by omega)

theorem fits_call {f : String} {args : List Expr}
    (h : Room n (Expr.nodesOf args) (Expr.copiesOf args)) (hn : n < m) : Fits m (.call f args) :=
  h.loosen (Nat.le_of_lt hn) (by simp only [Expr.nodes]; omega) (Nat.le_refl _)

theorem room_single (h : Fits n e) : Room n (Expr.nodesOf [e]) (Expr.copiesOf [e]) :=
  h.loosen (Nat.le_refl n) (by simp [Expr.nodesOf]) (by simp [Expr.copiesOf])

theorem fits_prefixOp {k : Token.Kind} {f : Expr → Expr} (hf : prefixOp? k = some f)
    (hx : Fits n x) : Fits (n + 1) (f x) := by
  have hsize : (f x).nodes ≤ x.nodes + 2 ∧ x.copies ≤ (f x).copies := by
    unfold prefixOp? at hf
    split at hf <;> cases hf
    case h_2 =>
      unfold addressOf
      split
      next hname => cases x <;> cases hname <;> simp [Expr.nodes, Expr.copies]
      next => omega
    case h_3 =>
      unfold negate
      split
      next => simp [Expr.nodes, Expr.copies]
      next =>
        simp only [Expr.nodes, Expr.copies]
        omega
    all_goals
      simp only [Expr.nodes, Expr.copies, invert, complement, id]
      omega
  exact hx.loosen (Nat.le_succ n) (by omega) hsize.2

/-- With an operator the target is copied. -/
theorem fits_assignWith (op? : Option BinOp) (hx : Fits n x) (hv : Fits m v) :
    Fits (n + m) (assignWith op? x v) := by
  cases op? with
  | none =>
    refine (hx.add hv).loosen (Nat.le_refl _) ?_ ?_
    · simp only [assignWith, Expr.nodes]
      omega
    · simp only [assignWith, Expr.copies]
      omega
  | some op =>
    -- doubling leaves room for two nodes more, the assignment and the operator
    refine (hx.double.add hv).loosen (Nat.le_refl _) ?_ ?_
    · simp only [assignWith, Expr.nodes]
      omega
    · simp only [assignWith, Expr.copies, Expr.repeats, Expr.same_iff.2, Bool.toNat_true]
      omega

theorem fits_stepped (op : BinOp) (hx : Fits n x) : Fits (n + 1) (stepped op x) :=
  fits_assignWith (some op) hx (fits_leaf (Nat.le_refl 1) rfl)

end Expressions

/-- Every token pays for two nodes, those that are copied with the target they belong to. -/
theorem Derives.fits {us : List Mark} {ph : Phrase} (h : Derives us ph) : ph.Fits us.length := by
  induction h with
  | name _ he =>
    refine fits_leaf (Nat.le_refl 1) ?_
    unfold Expr.name? at he
    split at he <;> cases he <;> rfl
  | number _ | null _ => exact fits_leaf (Nat.le_refl 1) rfl
  | string _ _ => exact fits_leaf (by simp) rfl
  | group _ _ _ ih => exact ih.mono (by simp; omega)
  | call _ _ _ _ _ _ ih => exact fits_call ih (by simp; omega)
  | index _ _ _ _ _ _ ih =>
    refine ih.loosen ?_ ?_ (Nat.le_refl _)
    all_goals
      simp only [Expr.nodes, List.length_append, List.length_cons]
      omega
  | @stepAfter _ us _ _ _ _ _ ih =>
    rw [List.length_append]
    exact fits_stepped _ ih
  | unary _ ih | tighter _ ih | plain _ ih | single _ ih => exact ih
  | stepBefore _ _ _ ih => exact fits_stepped _ ih
  | signed hf _ ih => exact fits_prefixOp hf ih
  | cast _ _ _ _ ih => exact ih.mono (by simp; omega)
  | new _ _ => exact fits_call (.nil 0) (by simp)
  | newSized _ _ _ _ _ ih | newFilled _ _ _ _ _ _ ih _ =>
    exact fits_call (room_single ih) (by simp; omega)
  | newArgs _ _ _ _ _ ih => exact fits_call ih (by simp; omega)
  | delete _ _ ih | deleteArray _ _ _ _ ih | sizeof _ _ ih =>
    exact fits_call (room_single ih) (by simp only [List.length_cons]; omega)
  | sizeofType _ _ _ _ => exact fits_call (.nil 0) (by simp)
  | binary _ _ _ ihl ihr =>
    -- the operands have a node each to spare, one of them for the operator
    refine (ihl.add ihr).loosen ?_ ?_ (Nat.le_refl _)
    all_goals
      simp only [Expr.nodes, List.length_append, List.length_cons]
      omega
  | @assign _ us vs op? _ _ _ _ _ _ ihx ihv =>
    refine (fits_assignWith op? ihx ihv).mono ?_
    simp only [List.length_append, List.length_cons]
    omega
  | comma _ _ _ _ ih => exact ih.mono (by simp; omega)
  | noItem => exact .nil 0
  | lastItem _ ih => exact room_single ih
  | nextItem _ _ _ ihx ihxs =>
    refine (ihx.add ihxs).loosen ?_ ?_ (Nat.le_refl _)
    all_goals
      simp only [Expr.nodesOf, List.length_append, List.length_cons]
      omega
  | stringInit _ | braces _ _ _ _ => exact trivial

/-! ### Statements -/

def FitsStmt (n : Nat) (s : Stmt) : Prop := Room n (s.nodes + 1) s.copies

def StmtPhrase.Fits (n : Nat) : StmtPhrase → Prop
  | .stmt s => FitsStmt n s
  | .stmts ss => Room n (Stmt.nodesOf ss) (Stmt.copiesOf ss)
  | .first s => Room n s.nodes s.copies

section Statements

variable {n m : Nat} {us : List Mark} {ss : List Stmt} {s : Stmt} {e : Expr}

theorem DerivesMaybe.room (h : DerivesMaybe us e) : Room us.length e.nodes e.copies := by
  cases h with
  | none => exact .nil 0
  | some h => exact h.fits.loosen (Nat.le_refl _) (by omega) (Nat.le_refl _)

theorem DeclaresName.fits (h : DeclaresName us s) : FitsStmt us.length s := by
  cases h with
  | plain _ => exact (Room.nil 0).loosen (Nat.zero_le _) (Nat.le_refl _) (Nat.le_refl _)
  | init _ _ he =>
    refine he.fits.loosen ?_ ?_ (Nat.le_refl _)
    all_goals
      simp only [Stmt.nodes, List.length_cons]
      omega
  | array _ _ hs _ | filled _ _ hs _ _ _ =>
    refine hs.fits.loosen ?_ ?_ (Nat.le_refl _)
    all_goals
      simp only [Stmt.nodes, Expr.nodes, List.length_append, List.length_cons]
      omega
  | counted _ _ _ _ _ =>
    refine (Room.nil 0).loosen (Nat.zero_le _) ?_ (Nat.le_refl _)
    simp only [Stmt.nodes, Expr.nodes, List.length_cons]
    omega

/-- There is room for one node more for each name, since at file scope each of them has one. -/
theorem DeclaresNames.room {base : DeclType.Base} (h : DeclaresNames base us ss) :
    Room us.length (Stmt.nodesOf ss + ss.length) (Stmt.copiesOf ss) := by
  induction h with
  | one h =>
    exact h.fits.loosen (Nat.le_refl _) (by simp [Stmt.nodesOf]) (by simp [Stmt.copiesOf])
  | more _ _ _ hs ih =>
    refine (ih.add hs.fits).loosen ?_ ?_ ?_
    · simp
      omega
    · simp only [Stmt.nodesOf_append, Stmt.nodesOf, List.length_append, List.length_cons,
        List.length_nil, List.length_map]
      omega
    · simp [Stmt.copiesOf_append, Stmt.copiesOf]

theorem fits_joined (h : Room n (Stmt.nodesOf ss + ss.length) (Stmt.copiesOf ss)) (hn : n < m) :
    FitsStmt m (joined ss) := by
  unfold joined
  split
  · refine h.loosen (Nat.le_of_lt hn) ?_ (by simp [Stmt.copiesOf])
    simp only [Stmt.nodesOf, List.length_cons]
    omega
  · refine h.loosen (Nat.le_of_lt hn) ?_ (Nat.le_refl _)
    simp only [Stmt.nodes]
    omega

theorem DerivesStmt.fits {ph : StmtPhrase} (h : DerivesStmt us ph) : ph.Fits us.length := by
  induction h with
  | noStmt => exact .nil 0
  | nextStmt _ _ ihss ihs =>
    refine (ihss.add ihs).loosen (by simp) ?_ ?_
    · simp only [Stmt.nodesOf_append, Stmt.nodesOf, List.length_append]
      omega
    · simp [Stmt.copiesOf_append, Stmt.copiesOf]
  | block _ _ _ ih =>
    refine ih.loosen ?_ ?_ (Nat.le_refl _)
    all_goals
      simp only [Stmt.nodes, List.length_append, List.length_cons]
      omega
  | empty _ => exact (Room.nil 0).loosen (Nat.zero_le _) (Nat.le_refl _) (Nat.le_refl _)
  | ret _ hx _ =>
    refine hx.room.loosen ?_ ?_ (Nat.le_refl _)
    all_goals
      simp only [Stmt.nodes, List.length_append, List.length_cons]
      omega
  | cond _ _ htest _ _ ihyes =>
    refine (htest.fits.add ihyes).loosen ?_ ?_ ?_
    all_goals
      simp only [Stmt.nodes, Stmt.copies, List.length_append, List.length_cons]
      omega
  | condElse _ _ htest _ _ _ _ ihyes ihno =>
    refine (htest.fits.add (ihyes.add ihno)).loosen ?_ ?_ ?_
    all_goals
      simp only [Stmt.nodes, Stmt.copies, List.length_append, List.length_cons]
      omega
  | whileLoop _ _ htest _ _ ihbody | doLoop _ _ _ _ htest _ _ ihbody =>
    refine (htest.fits.add ihbody).loosen ?_ ?_ ?_
    all_goals
      simp only [Stmt.nodes, Stmt.copies, Expr.nodes, Expr.copies, List.length_append,
        List.length_cons]
      omega
  | noFirst _ => exact (Room.nil 0).loosen (Nat.zero_le _) (Nat.zero_le _) (Nat.le_refl _)
  | someFirst _ ih => exact ih.loosen (Nat.le_refl _) (by omega) (Nat.le_refl _)
  | forLoop _ _ _ htest _ hpost _ _ ihinit ihbody =>
    refine ((ihinit.add htest.room).add (hpost.room.add ihbody)).loosen ?_ ?_ (Nat.le_refl _)
    all_goals
      simp only [Stmt.nodes, List.length_append, List.length_cons]
      omega
  | jump _ _ => exact (Room.nil 0).loosen (Nat.zero_le _) (by simp [Stmt.nodes]) (Nat.le_refl _)
  | decl _ hss _ => exact fits_joined hss.room (by simp; omega)
  | expr hx _ =>
    refine hx.fits.loosen ?_ ?_ (Nat.le_refl _)
    all_goals
      simp only [Stmt.nodes, List.length_append, List.length_cons]
      omega

end Statements

/-! ### Files -/

def RoomFor (n : Nat) (ds : List Decl) : Prop := Room n (Decl.nodesOf ds) (Decl.copiesOf ds)

theorem DerivesDecl.room {us : List Mark} {ds : List Decl} (h : DerivesDecl us ds) :
    RoomFor us.length ds := by
  cases h with
  | prototype _ _ _ _ _ _ =>
    refine (Room.nil 0).loosen (Nat.zero_le _) ?_ (Nat.le_refl _)
    simp only [Decl.nodesOf, Decl.nodes, Stmt.nodes, List.length_map, List.length_append,
      List.length_cons]
    omega
  | func _ _ _ _ _ _ hss _ =>
    refine hss.fits.loosen ?_ ?_ (by simp [Decl.copiesOf, Decl.copies, Stmt.copies])
    all_goals
      simp only [Decl.nodesOf, Decl.nodes, Stmt.nodes, List.length_map, List.length_append,
        List.length_cons]
      omega
  | @vars c ts us _ ss _ hss _ =>
    obtain ⟨hnodes, hcopies⟩ := Decl.nodesOf_ofStmt ss
    refine hss.room.loosen ?_ ?_ (Nat.le_of_eq hcopies.symm)
    all_goals
      simp only [List.length_append, List.length_map, List.length_cons]
      omega
  | stmt h =>
    refine h.fits.loosen (Nat.le_refl _) ?_ ?_
    · simp [Decl.nodesOf, Decl.nodes]
    · simp [Decl.copiesOf, Decl.copies]

theorem DerivesFile.room {us : List Mark} {ds : List Decl} (h : DerivesFile us ds) :
    RoomFor us.length ds := by
  induction h with
  | nil => exact .nil 0
  | next _ hd ih =>
    unfold RoomFor
    rw [List.length_append, Decl.nodesOf_append, Decl.copiesOf_append]
    exact ih.add hd.room

theorem room_of_parse {limit : Nat} {source : List Char} {ds : List Decl}
    (h : parse limit source = .ok ds) : RoomFor (Token.scan source).tokens.length ds := by
  obtain ⟨us, hus, hds⟩ := exists_derivesFile h
  rw [← hus, List.length_map]
  exact hds.room

/-! ### Steps in subscripts -/

/-- Steps in the subscripts of each other, `a[a[0]++]++` with two levels. -/
def nestedSteps : Nat → Expr
  | 0 => .intLit 0
  | n + 1 => stepped .add (.index "a" (nestedSteps n))

/-- What `nestedSteps` is written as. -/
def nestedText : Nat → List Lexeme
  | 0 => [.number 0]
  | n + 1 => .word "a" :: sign .lbrack :: (nestedText n ++ [sign .rbrack, sign .inc])

theorem nodes_nestedSteps (n : Nat) : (nestedSteps n).nodes + 5 = 6 * 2 ^ n := by
  induction n with
  | zero => rfl
  | succ n ih =>
    simp only [nestedSteps, stepped, assignWith, Expr.nodes, Nat.pow_succ]
    omega

theorem copies_nestedSteps (n : Nat) : (nestedSteps n).copies = n := by
  induction n with
  | zero => rfl
  | succ n ih => simp [nestedSteps, stepped, assignWith, Expr.copies, Expr.repeats,
      Expr.same_iff.2, ih]

theorem length_nestedText (n : Nat) : (nestedText n).length = 4 * n + 1 := by
  induction n with
  | zero => rfl
  | succ n ih =>
    simp only [nestedText, List.length_cons, List.length_append, List.length_nil, ih]
    omega

theorem legible_nestedText (n : Nat) : ∀ l ∈ nestedText n, l.Legible := by
  have hsign {k : Token.Kind} (h : k.sign?.isSome) : (sign k).Legible := legible_signOf h
  induction n with
  | zero => exact List.forall_mem_singleton.2 (Token.legible_number 0)
  | succ n ih =>
    have hname : (Lexeme.word "a").Legible := Token.legible_word (by decide)
    simp only [nestedText, List.forall_mem_cons, List.forall_mem_append]
    exact ⟨hname, hsign rfl, ih, hsign rfl, hsign rfl, List.forall_mem_nil _⟩

/-- A unary expression in front of a closing token is a whole expression. -/
theorem reads_whole {σ : Scopes} {d : Nat} {ls : List Lexeme} {e : Expr} {c : Token}
    {rest : List Token} (hc : c.kind ∈ [.rbrack, .semi])
    (h : Ends 7 (c :: rest) → Reads (unary σ d) ls e (c :: rest)) :
    Reads (expression (assign σ (d + 1))) ls e (c :: rest) := by
  have hkind : ∀ k ∈ [Token.Kind.rbrack, .semi], strength? k = some 0 ∧ k ≠ .comma := by decide
  obtain ⟨hstrength, hcomma⟩ := hkind c.kind hc
  have hends (k : Nat) : Ends k (c :: rest) := ends_cons hstrength (Nat.zero_le k)
  have htight : Reads (tight (unary σ d) 7) ls e (c :: rest) := h (hends 7)
  have hone := htight.loosen (by decide) (Nat.le_refl 1) (by decide) (hends 1)
  exact (hone.assign (hends 0)).expression hcomma

theorem reads_nestedText (n : Nat) {d : Nat} {rest : List Token} (hd : 2 * n < d)
    (hr : Ends 7 rest) : Reads (unary .file d) (nestedText n) (nestedSteps n) rest := by
  induction n generalizing d rest with
  | zero =>
    obtain ⟨d, rfl⟩ : ∃ d', d = d' + 1 := ⟨d - 1, by omega⟩
    exact reads_number (by decide) hr
  | succ n ih =>
    obtain ⟨d, rfl⟩ : ∃ d', d = d' + 2 := ⟨d - 2, by omega⟩
    intro ts hw
    obtain ⟨t, ts, rfl, ht, hts⟩ := written_cons.1 hw
    obtain ⟨o, ts, rfl, ho, hts⟩ := written_cons.1 hts
    obtain ⟨ts, cs, rfl, hiw, hcs⟩ := written_append.1 hts
    obtain ⟨c, ss, rfl, hc, hss⟩ := written_cons.1 hcs
    obtain ⟨s, rfl, hs⟩ := written_singleton.1 hss
    have hck : c.kind = .rbrack := kind_sign hc
    have hindex : Gives (expression (assign .file (d + 1)) (ts ++ c :: s :: rest)) (nestedSteps n)
        (c :: s :: rest) := reads_whole (by simp [hck]) (ih (by omega)) ts hiw
    obtain ⟨x, hx, hname⟩ := primary_name (σ := .file) (n := "a") (.inl (by decide)) ht
      (o :: (ts ++ c :: s :: rest))
    rw [List.cons_append, List.cons_append, List.append_assoc, List.cons_append,
      List.singleton_append]
    have hsubscript : Step (postfixRound (assign .file (d + 1))) x (o :: (ts ++ c :: s :: rest))
        (.index "a" (nestedSteps n)) (s :: rest) :=
      step_postfixRound.2 (.index (kind_sign ho) hname hindex hck)
    have hstep : Step (postfixRound (assign .file (d + 1))) (.index "a" (nestedSteps n))
        (s :: rest) (nestedSteps (n + 1)) rest :=
      step_postfixRound.2 (.step (by rw [kind_sign hs]; rfl) rfl)
    exact gives_unary_succ.2 (.operand hx
      (.next hsubscript (.next hstep (.stop hr.postfixRound_eq_none))))

theorem parse_nestedText (n : Nat) :
    let text := Token.spell (nestedText n ++ [sign .semi])
    parse (2 * n + 3) text = .ok [.stmt (.expr (nestedSteps n))] ∧
      (Token.scan text).tokens.length = 4 * n + 2 := by
  intro text
  have hw : Written (nestedText n ++ [sign .semi]) (Token.scan text).tokens :=
    Token.scan_spell (List.forall_mem_append.2 ⟨legible_nestedText n,
      List.forall_mem_singleton.2 (legible_signOf rfl)⟩)
  have hlength : (Token.scan text).tokens.length = 4 * n + 2 := by
    rw [← List.length_map (f := Token.lexeme), hw, List.length_append, length_nestedText]
    rfl
  obtain ⟨ts, cs, hts, hew, hcs⟩ := written_append.1 hw
  obtain ⟨c, rfl, hc⟩ := written_singleton.1 hcs
  have hck : c.kind = .semi := kind_sign hc
  have hread : Gives (expression (assign .file (2 * n + 2)) (ts ++ [c])) (nestedSteps n) [c] :=
    reads_whole (by simp [hck]) (reads_nestedText n (Nat.lt_succ_self _)) ts hew
  have hstart : peek (ts ++ [c]) = .int ∨ peek (ts ++ [c]) = .ident := by
    cases n with
    | zero =>
      obtain ⟨t, rfl, ht⟩ := written_singleton.1 hew
      exact .inl (congrArg Lexeme.kind ht)
    | succ n =>
      obtain ⟨t, ts, rfl, ht, -⟩ := written_cons.1 hew
      exact .inr (congrArg Lexeme.kind ht)
  have hstmt : Gives (stmt (2 * n + 3) .file (ts ++ [c])) (.expr (nestedSteps n), .file) [] :=
    gives_stmt_succ.2 (.expr (by rcases hstart with h | h <;> rw [h] <;> rfl) hread hck)
  rw [← hts] at hstart hstmt
  exact ⟨parse_of_gives_stmt (by rcases hstart with h | h <;> rw [h] <;> rfl) hstmt, hlength⟩

/-- The nodes of a tree are at most the tokens of its text times two, doubled for every level of
repeated targets inside each other. Without these levels no factor is enough: there are texts with
any number of them, of four tokens for each level, in which every level doubles the tree. -/
theorem tree_bounded_by_copies :
    (∀ ⦃limit source ds⦄, parse limit source = .ok ds →
      Decl.nodesOf ds ≤ 2 ^ (Decl.copiesOf ds + 1) * (Token.scan source).tokens.length) ∧
    ∀ n, ∃ limit source ds, parse limit source = .ok ds ∧
      (Token.scan source).tokens.length = 4 * n + 2 ∧ Decl.copiesOf ds = n ∧
      Decl.nodesOf ds + 3 = 6 * 2 ^ n := by
  refine ⟨fun limit source ds h => room_of_parse h, fun n => ?_⟩
  obtain ⟨hparse, hlength⟩ := parse_nestedText n
  refine ⟨_, _, _, hparse, hlength, ?_, ?_⟩
  · simp [Decl.copiesOf, Decl.copies, Stmt.copies, copies_nestedSteps]
  · have := nodes_nestedSteps n
    simp only [Decl.nodesOf, Decl.nodes, Stmt.nodes]
    omega

/-- Compound assignments on both sides of each other. -/
theorem tree_bounded_by_copies_at_steps :
    let source := "a[i++] += b[j -= k];"
    ∃ ds, parse 9 source.toList = .ok ds ∧ Decl.copiesOf ds = 2 ∧ Decl.nodesOf ds = 22 ∧
      Decl.nodesOf ds ≤
        2 ^ (Decl.copiesOf ds + 1) * (Token.scan source.toList).tokens.length := by
  intro source
  have hparse : parse 9 source.toList = .ok [.stmt (.expr (.assign
      (.index "a" (.assign (.ident "i") (.binary .add (.ident "i") (.intLit 1))))
      (.binary .add (.index "a" (.assign (.ident "i") (.binary .add (.ident "i") (.intLit 1))))
        (.index "b" (.assign (.ident "j") (.binary .sub (.ident "j") (.ident "k")))))))] := by
    dsimp only [source]
    with_unfolding_all rfl
  exact ⟨_, hparse, by decide, by decide, tree_bounded_by_copies.1 hparse⟩

/-- With five steps in each other's subscripts there are more than eight nodes for each token. -/
theorem nested_steps_exceed_eight_nodes :
    let source := "a [ a [ a [ a [ a [ 0 ] ++ ] ++ ] ++ ] ++ ] ++ ;".toList
    ∃ ds, parse 13 source = .ok ds ∧
      8 * (Token.scan source).tokens.length < Decl.nodesOf ds := by
  intro source
  have hsource : source = Token.spell (nestedText 5 ++ [sign .semi]) := by rfl
  obtain ⟨hparse, hlength⟩ := parse_nestedText 5
  rw [← hsource] at hparse hlength
  refine ⟨_, hparse, ?_⟩
  rw [hlength]
  decide

end MemLint.Grammar
