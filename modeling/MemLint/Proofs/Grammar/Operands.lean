import Mathlib.Data.List.Perm.Subperm
import MemLint.Proofs.Grammar.FileDerivation

/-! Names in the text and names in the tree. Whatever is derived from tokens mentions the name of
every operand that is kept, once for each of its tokens. What is lost are the operands in front of a
comma operator and those in the braces of an initialiser. -/

namespace MemLint

/-! ### Names in a tree -/

namespace Expr

mutual

/-- The names that an expression uses, one for each place. An array that is declared is not used. -/
def mentions : Expr → List String
  | absent | foreign _ | intLit _ | stringLit _ => []
  | ident name | varRef name | addr name => [name]
  | call f args => f :: mentionsAll args
  | deref x => x.mentions
  | binary _ left right => left.mentions ++ right.mentions
  | assign target value => target.mentions ++ value.mentions
  | index name i => name :: i.mentions
  | arrayDecl _ size => size.mentions

def mentionsAll : List Expr → List String
  | [] => []
  | e :: es => e.mentions ++ mentionsAll es

end

theorem mentions_of_name? {x : Expr} {name : String} (h : x.name? = some name) :
    x.mentions = [name] := by
  cases x <;> cases h <;> rfl

end Expr

namespace Stmt

mutual

def mentions : Stmt → List String
  | absent | foreign _ | jump _ => []
  | block ss => mentionsAll ss
  | expr x | decl _ x | ret x => x.mentions
  | cond test yes no => test.mentions ++ (yes.mentions ++ no.mentions)
  | loop init test post body =>
    init.mentions ++ (test.mentions ++ (post.mentions ++ body.mentions))

def mentionsAll : List Stmt → List String
  | [] => []
  | s :: ss => s.mentions ++ mentionsAll ss

end

theorem mentionsAll_append (ss ss' : List Stmt) :
    mentionsAll (ss ++ ss') = mentionsAll ss ++ mentionsAll ss' := by
  induction ss with
  | nil => rfl
  | cons s ss ih => simp only [List.cons_append, mentionsAll, ih, List.append_assoc]

theorem mentionsAll_one (s : Stmt) : mentionsAll [s] = s.mentions := List.append_nil _

end Stmt

namespace Decl

def mentions : Decl → List String
  | absent | foreign _ => []
  | func _ _ _ body => body.mentions
  | var _ init => init.mentions
  | stmt s => s.mentions

theorem mentions_ofStmt (s : Stmt) : (ofStmt s).mentions = s.mentions := by
  cases s <;> rfl

theorem mentions_map_ofStmt (ss : List Stmt) :
    (ss.map ofStmt).flatMap mentions = Stmt.mentionsAll ss := by
  induction ss with
  | nil => rfl
  | cons s ss ih => simp only [List.map_cons, List.flatMap_cons, mentions_ofStmt, ih,
      Stmt.mentionsAll]

end Decl

namespace Grammar

/-! ### Names in the text -/

namespace Mark

/-- The name of an operand, be it kept or not. -/
def operand? (m : Mark) : Option String :=
  match m.use with
  | .other => none
  | _ => some m.token.lex

/-- The name of an operand that is kept. -/
def kept? (m : Mark) : Option String :=
  match m.use with
  | .kept => some m.token.lex
  | _ => none

theorem kept?_drop (m : Mark) : m.drop.kept? = none := by
  obtain ⟨t, use⟩ := m
  cases use <;> rfl

end Mark

/-- The names of the operands, in the order of the text. -/
def operands (us : List Mark) : List String := us.filterMap Mark.operand?

/-- The names of the operands that are kept, in the order of the text. -/
def kept (us : List Mark) : List String := us.filterMap Mark.kept?

section

variable (t : Token) (ts : List Token) (us vs : List Mark)

@[simp] theorem kept_nil : kept [] = [] := rfl

@[simp] theorem kept_name : kept [⟨t, .kept⟩] = [t.lex] := rfl

@[simp] theorem kept_cons_other : kept (.other t :: us) = kept us := rfl

@[simp] theorem kept_append : kept (us ++ vs) = kept us ++ kept vs := List.filterMap_append

@[simp] theorem kept_map_drop : kept (us.map .drop) = [] := by
  simp [kept, List.filterMap_map, Mark.kept?_drop]

@[simp] theorem kept_map_other : kept (ts.map .other) = [] := by
  induction ts with
  | nil => rfl
  | cons t ts ih => exact ih

end

/-! ### What expressions keep -/

theorem subperm_prefixOp {k : Token.Kind} {f : Expr → Expr} (hf : prefixOp? k = some f) (x : Expr) :
    x.mentions.Subperm (f x).mentions := by
  unfold prefixOp? at hf
  split at hf <;> cases hf
  case h_2 =>
    -- the address of a name still mentions it
    unfold addressOf
    split
    next h => rw [Expr.mentions_of_name? h]; rfl
    next => rfl
  case h_3 => cases x <;> rfl
  case h_5 =>
    rw [invert, Expr.mentions, Expr.mentions, List.append_nil]
  all_goals rfl

theorem subperm_assignWith (op? : Option BinOp) (x v : Expr) :
    (x.mentions ++ v.mentions).Subperm (assignWith op? x v).mentions := by
  cases op? with
  | none => rfl
  | some op => exact (List.sublist_append_right _ _).subperm

/-- A step mentions what it changes. -/
theorem subperm_stepped (op : BinOp) (x : Expr) : x.mentions.Subperm (stepped op x).mentions :=
  (List.sublist_append_left _ _).subperm

@[simp] def Phrase.mentions : Phrase → List String
  | .operand e | .joined _ e | .value e | .expr e => e.mentions
  | .items es => Expr.mentionsAll es
  | .init _ => []

/-- What is derived mentions the operands that are kept. -/
theorem Derives.kept_subperm {us : List Mark} {ph : Phrase} (h : Derives us ph) :
    (kept us).Subperm ph.mentions := by
  induction h with
  | name _ he =>
    rw [Phrase.mentions, Expr.mentions_of_name? he]
    rfl
  | number _ | null _ | stringInit _ | noItem | string _ _ | new _ _ | sizeofType _ _ _ _ => simp
  | group _ _ _ ih | cast _ _ _ _ ih => simpa using ih
  | call _ hf _ _ _ ihx ihargs =>
    rw [Phrase.mentions, Expr.mentions_of_name? hf] at ihx
    simpa [Expr.mentions] using ihx.append ihargs
  | index _ hn _ _ _ ihx ihi =>
    rw [Phrase.mentions, Expr.mentions_of_name? hn] at ihx
    simpa [Expr.mentions] using ihx.append ihi
  | stepAfter _ _ _ ih => simpa using ih.trans (subperm_stepped _ _)
  | unary _ ih | tighter _ ih | plain _ ih | single _ ih => exact ih
  | stepBefore _ _ _ ih => exact ih.trans (subperm_stepped _ _)
  | signed ht _ ih => exact ih.trans (subperm_prefixOp ht _)
  | newSized _ _ _ _ _ ih | delete _ _ ih | deleteArray _ _ _ _ ih | sizeof _ _ ih =>
    simpa [Expr.mentions, Expr.mentionsAll] using ih.cons_right _
  | newFilled _ _ _ _ _ _ ihsize ihinit =>
    -- the braces keep nothing, so there is nothing to look for
    rw [Phrase.mentions, List.subperm_nil] at ihinit
    simpa [Expr.mentions, Expr.mentionsAll, ihinit] using ihsize.cons_right _
  | newArgs _ _ _ _ _ ih => simpa [Expr.mentions] using ih.cons_right _
  | binary _ _ _ ihl ihr => simpa [Expr.mentions] using ihl.append ihr
  | assign _ _ _ _ ihx ihv => simpa using (ihx.append ihv).trans (subperm_assignWith _ _ _)
  | comma _ _ _ _ ih => simpa using ih
  | lastItem _ ih => simpa [Expr.mentionsAll] using ih
  | nextItem _ _ _ ihx ihxs => simpa [Expr.mentionsAll] using ihx.append ihxs
  | braces _ _ _ _ => simp

/-! ### What statements and files keep -/

theorem DerivesMaybe.kept_subperm {us : List Mark} {e : Expr} (h : DerivesMaybe us e) :
    (kept us).Subperm e.mentions := by
  cases h with
  | none => exact List.nil_subperm
  | some h => exact h.kept_subperm

/-- An initialiser of an array keeps nothing. -/
theorem kept_init {us : List Mark} {n : Nat} (h : Derives us (.init n)) : kept us = [] :=
  List.subperm_nil.1 h.kept_subperm

theorem DeclaresName.kept_subperm {us : List Mark} {s : Stmt} (h : DeclaresName us s) :
    (kept us).Subperm s.mentions := by
  cases h with
  | plain _ => exact List.nil_subperm
  | init _ _ he => exact he.kept_subperm
  | array _ _ hs _ => simpa [Stmt.mentions, Expr.mentions] using hs.kept_subperm
  | filled _ _ hs _ _ hk => simpa [Stmt.mentions, Expr.mentions, kept_init hk] using hs.kept_subperm
  | counted _ _ _ _ hk => simp [kept_init hk]

theorem DeclaresNames.kept_subperm {base : DeclType.Base} {us : List Mark} {ss : List Stmt}
    (h : DeclaresNames base us ss) : (kept us).Subperm (Stmt.mentionsAll ss) := by
  induction h with
  | one h => simpa only [Stmt.mentionsAll_one] using h.kept_subperm
  | more _ _ _ hs ih =>
    rw [Stmt.mentionsAll_append, Stmt.mentionsAll_one]
    simpa using ih.append hs.kept_subperm

theorem mentions_joined (ss : List Stmt) : (joined ss).mentions = Stmt.mentionsAll ss := by
  unfold joined
  split
  next s => exact (Stmt.mentionsAll_one s).symm
  next => rfl

@[simp] def StmtPhrase.mentions : StmtPhrase → List String
  | .stmt s | .first s => s.mentions
  | .stmts ss => Stmt.mentionsAll ss

theorem DerivesStmt.kept_subperm {us : List Mark} {ph : StmtPhrase} (h : DerivesStmt us ph) :
    (kept us).Subperm ph.mentions := by
  induction h with
  | noStmt | empty _ | noFirst _ | jump _ _ => simp
  | nextStmt _ _ ihss ihs =>
    rw [StmtPhrase.mentions, Stmt.mentionsAll_append, Stmt.mentionsAll_one]
    simpa using ihss.append ihs
  | block _ _ _ ih => simpa [Stmt.mentions] using ih
  | ret _ hx _ => simpa [Stmt.mentions] using hx.kept_subperm
  | cond _ _ htest _ _ ih => simpa [Stmt.mentions] using htest.kept_subperm.append ih
  | condElse _ _ htest _ _ _ _ ihyes ihno =>
    simpa [Stmt.mentions] using htest.kept_subperm.append (ihyes.append ihno)
  | whileLoop _ _ htest _ _ ih =>
    simpa [Stmt.mentions, Expr.mentions] using htest.kept_subperm.append ih
  | doLoop _ _ _ _ htest _ _ ih =>
    -- the tree has the test in front of the body, the text behind it
    have h := (List.perm_append_comm.subperm).trans (htest.kept_subperm.append ih)
    simpa [Stmt.mentions, Expr.mentions] using h
  | someFirst _ ih => exact ih
  | forLoop _ _ _ htest _ hpost _ _ ihinit ihbody =>
    have h := htest.kept_subperm.append (hpost.kept_subperm.append ihbody)
    simpa [Stmt.mentions] using ihinit.append h
  | decl _ hss _ => simpa [mentions_joined] using hss.kept_subperm
  | expr hx _ => simpa [Stmt.mentions] using hx.kept_subperm

theorem DerivesDecl.kept_subperm {us : List Mark} {ds : List Decl} (h : DerivesDecl us ds) :
    (kept us).Subperm (ds.flatMap Decl.mentions) := by
  cases h with
  | prototype _ _ _ _ _ _ =>
    rw [kept_map_other]
    exact List.nil_subperm
  | func _ _ _ _ _ _ hss _ =>
    rw [kept_append, kept_map_other]
    simpa [Decl.mentions, Stmt.mentions] using hss.kept_subperm
  | vars _ hss _ => simpa [Decl.mentions_map_ofStmt] using hss.kept_subperm
  | stmt hs => simpa [Decl.mentions] using hs.kept_subperm

theorem DerivesFile.kept_subperm {us : List Mark} {ds : List Decl} (h : DerivesFile us ds) :
    (kept us).Subperm (ds.flatMap Decl.mentions) := by
  induction h with
  | nil => exact List.nil_subperm
  | next _ hd ih =>
    rw [kept_append, List.flatMap_append]
    exact ih.append hd.kept_subperm

/-! ### Names in the text and in its tree -/

theorem Derives.joined_of_operand {us : List Mark} {e : Expr} (h : Derives us (.operand e))
    (ls : List Level) : Derives us (.joined ls e) := by
  induction ls with
  | nil => exact .unary h
  | cons level ls ih => exact .tighter ih

/-- A name that stands alone. -/
theorem derives_name {t : Token} (ht : t.kind = .ident) :
    Derives [⟨t, .kept⟩] (.value (.ident t.lex)) :=
  .plain (Derives.joined_of_operand (.name ht rfl) levels)

/-- Not every operand is kept: the elements of an initialiser are only counted, and the comma
operator gives its last operand. -/
theorem operands_lost_in_braces_and_commas :
    let tree : List Decl :=
      [.stmt (.expr (.arrayDecl "x" (.intLit 1))), .stmt (.expr (.ident "b"))]
    parse 3 "int x[] = \x7b c \x7d; a, b;".toList = .ok tree ∧
    ∃ us, us.map Mark.token = (Token.scan "int x[] = \x7b c \x7d; a, b;".toList).tokens ∧
      DerivesFile us tree ∧ operands us = ["c", "a", "b"] ∧
      tree.flatMap Decl.mentions = ["b"] := by
  intro tree
  let token (kind : Token.Kind) (lex : String) (col : Nat) : Token := ⟨kind, lex, 1, col⟩
  have htype : TypeText [token .kwInt "int" 1] (.base .int) :=
    ⟨[], _, [], [], .int, .int, rfl, rfl, rfl, rfl, rfl⟩
  have hc : Derives [⟨token .ident "c" 13, .kept⟩] (.value (.ident "c")) := derives_name rfl
  have ha : Derives [⟨token .ident "a" 18, .kept⟩] (.value (.ident "a")) := derives_name rfl
  have hb : Derives [⟨token .ident "b" 21, .kept⟩] (.value (.ident "b")) := derives_name rfl
  have hinit : Derives _ (.init 1) :=
    .braces (o := token .lbrace "\x7b" 11) (c := token .rbrace "\x7d" 15) rfl (.lastItem hc) rfl
  have hx : DeclaresName _ (.expr (.arrayDecl "x" (.intLit 1))) :=
    .counted (n := token .ident "x" 5) (o := token .lbrack "[" 6) (c := token .rbrack "]" 7)
      (a := token .assign "=" 9) rfl rfl rfl rfl hinit
  have hlast : Derives _ (.expr (.ident "b")) :=
    .comma (t := token .comma "," 19) (.single ha) rfl hb
  refine ⟨by with_unfolding_all rfl, _, ?_,
    .next (.next .nil (.vars (c := token .semi ";" 16) htype (.one hx) rfl))
      (.stmt (.expr (c := token .semi ";" 22) hlast rfl)), rfl, rfl⟩
  with_unfolding_all rfl

/-- The tree of a text that is accepted is derived from all its tokens, and in whatever way that is
done, the tree mentions the name of every operand that is kept, once for each of its tokens. -/
theorem kept_operands_mentioned {limit : Nat} {source : List Char} {ds : List Decl}
    (h : parse limit source = .ok ds) :
    (∃ us, us.map Mark.token = (Token.scan source).tokens ∧ DerivesFile us ds) ∧
    ∀ us, us.map Mark.token = (Token.scan source).tokens → DerivesFile us ds →
      (kept us).Subperm (ds.flatMap Decl.mentions) :=
  ⟨exists_derivesFile h, fun _ _ hds => hds.kept_subperm⟩

theorem kept_operands_mentioned_at_do_loop :
    let tree : List Decl :=
      [.stmt (.loop .absent (.ident "e") .absent (.expr (.assign (.ident "a")
        (.binary .add (.ident "a") (.call "f" [.ident "b", .addr "c"])))))]
    parse 9 "do a += f(b, &c); while (d, e);".toList = .ok tree ∧
    (∃ us, us.map Mark.token = (Token.scan "do a += f(b, &c); while (d, e);".toList).tokens ∧
      DerivesFile us tree) ∧
    ∀ us, us.map Mark.token = (Token.scan "do a += f(b, &c); while (d, e);".toList).tokens →
      DerivesFile us tree → (kept us).Subperm ["e", "a", "a", "f", "b", "c"] := by
  intro tree
  have h : parse 9 "do a += f(b, &c); while (d, e);".toList = .ok tree := by with_unfolding_all rfl
  exact ⟨h, kept_operands_mentioned h⟩

end Grammar

end MemLint
