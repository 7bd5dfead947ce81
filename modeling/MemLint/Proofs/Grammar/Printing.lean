import MemLint.Grammar.Scopes
import MemLint.Numeral.Integer
import MemLint.Proofs.Token.Spelling
import MemLint.Proofs.Tree

/-! Expressions written out again. Parentheses stand where the levels of the operators ask for them:
an operand has to bind at least as tightly as its place wants, and the right operand of an operator
more tightly than the operator. -/

namespace MemLint.Grammar

open Token (Lexeme IsWord)

/-- How tightly an operator binds. An assignment binds with 0, a unary expression with 7. -/
def rank : BinOp → Nat
  | .or => 1
  | .and => 2
  | .eq | .ne => 3
  | .lt | .le | .gt | .ge => 4
  | .add | .sub => 5
  | .mul | .div | .rem => 6

def opKind : BinOp → Token.Kind
  | .add => .plus | .sub => .minus | .mul => .star | .div => .slash | .rem => .percent
  | .eq => .eqEq | .ne => .neq | .lt => .lt | .le => .le | .gt => .gt | .ge => .ge
  | .and => .andAnd | .or => .orOr

def sign (k : Token.Kind) : Lexeme := ⟨k, k.sign?.getD ""⟩

/-- Parentheses where they are needed. -/
def grouped (needed : Bool) (ls : List Lexeme) : List Lexeme :=
  if needed then sign .lparen :: (ls ++ [sign .rparen]) else ls

mutual

/-- An expression where something is wanted that binds at least with `k`. -/
def print : Expr → (k : Nat) → List Lexeme
  | .ident n, _ | .varRef n, _ => [.word n]
  | .intLit v, _ => if v < 0 then [sign .minus, .number v.natAbs] else [.number v.natAbs]
  | .stringLit s, _ => [.string s]
  | .addr n, _ => [sign .amp, .word n]
  | .deref x, _ => sign .star :: print x 7
  | .binary op left right, k =>
    grouped (rank op < k) (print left (rank op) ++ sign (opKind op) :: print right (rank op + 1))
  | .assign target value, k =>
    grouped (0 < k) (print target 7 ++ sign .assign :: print value 0)
  | .index n i, _ => .word n :: sign .lbrack :: (print i 0 ++ [sign .rbrack])
  | .call f args, k =>
    if f = "new" then
      grouped (0 < k) (.word "new" :: .word "int" ::
        if args.isEmpty then [] else sign .lparen :: (printList args ++ [sign .rparen]))
    else if f = "delete" ∨ f = "sizeof" then .word f :: printOperand args
    else .word f :: sign .lparen :: (printList args ++ [sign .rparen])
  | .absent, _ | .foreign _, _ | .arrayDecl .., _ => []

/-- Expressions with commas between them. -/
def printList : List Expr → List Lexeme
  | [] => []
  | e :: es => print e 0 ++ printMore es

/-- The expressions of a list after the first one. -/
def printMore : List Expr → List Lexeme
  | [] => []
  | e :: es => sign .comma :: (print e 0 ++ printMore es)

/-- What follows `delete` and `sizeof`; a type if there is no expression. -/
def printOperand : List Expr → List Lexeme
  | [] => [sign .lparen, .word "int", sign .rparen]
  | x :: _ => print x 7

end

/-- An expression statement. -/
def source (e : Expr) : List Char := Token.spell (print e 0 ++ [sign .semi])

/-- A word that is read as a name. -/
def IsName (n : String) : Prop := IsWord n ∧ Token.Kind.ofWord n = .ident

instance (n : String) : Decidable (IsName n) := inferInstanceAs (Decidable (_ ∧ _))

/-- What can be written so that it is read back, with names that are pointers as the scopes say. -/
def printable (σ : Scopes) : NodeRule where
  expr
    | .ident n => IsName n ∧ σ.isPointer n = false ∨ n = "nullptr"
    | .varRef n => IsName n ∧ σ.isPointer n = true
    | .intLit v => v.natAbs ≤ Numeral.maxInt64
    | .stringLit _ | .deref _ | .binary .. => True
    | .addr n | .index n _ => IsName n ∨ n = "nullptr"
    | .assign target _ => target.assignable
    | .call f args =>
      f = "new" ∨ f = "delete" ∧ args.length = 1 ∨ f = "sizeof" ∧ args.length ≤ 1 ∨ IsName f
    | .absent | .foreign _ | .arrayDecl .. => False

/-- A call that is no keyword is of a name. -/
theorem isName_of_call {σ : Scopes} {f : String} {args : List Expr}
    (h : (Expr.call f args).Every (printable σ)) (hnew : f ≠ "new")
    (hf : ¬ (f = "delete" ∨ f = "sizeof")) : IsName f := by
  rcases h.here with hn | ⟨hd, -⟩ | ⟨hs, -⟩ | hn
  · exact (hnew hn).elim
  · exact (hf (.inl hd)).elim
  · exact (hf (.inr hs)).elim
  · exact hn

/-! ### What is printed can be scanned -/

theorem legible_signOf {k : Token.Kind} (h : k.sign?.isSome) : (sign k).Legible := by
  obtain ⟨w, hw⟩ := Option.isSome_iff_exists.1 h
  rw [sign, hw]
  exact Token.legible_sign hw

theorem legible_grouped {needed : Bool} {ls : List Lexeme} (h : ∀ l ∈ ls, l.Legible) :
    ∀ l ∈ grouped needed ls, l.Legible := by
  unfold grouped
  split
  · refine List.forall_mem_cons.2 ⟨legible_signOf (by decide), List.forall_mem_append.2 ⟨h, ?_⟩⟩
    exact List.forall_mem_singleton.2 (legible_signOf (by decide))
  · exact h

theorem legible_printMore {es : List Expr} (h : ∀ e ∈ es, ∀ k, ∀ l ∈ print e k, l.Legible) :
    ∀ l ∈ printMore es, l.Legible := by
  induction es with
  | nil => simp [printMore]
  | cons e es ih =>
    rw [printMore]
    refine List.forall_mem_cons.2 ⟨legible_signOf (by decide), List.forall_mem_append.2 ⟨?_, ?_⟩⟩
    · exact h e (by simp) 0
    · exact ih fun a ha => h a (by simp [ha])

theorem legible_printList {es : List Expr} (h : ∀ e ∈ es, ∀ k, ∀ l ∈ print e k, l.Legible) :
    ∀ l ∈ printList es, l.Legible := by
  cases es with
  | nil => simp [printList]
  | cons e es =>
    rw [printList]
    refine List.forall_mem_append.2 ⟨h e (by simp) 0, ?_⟩
    exact legible_printMore fun a ha => h a (by simp [ha])

theorem legible_printOperand {es : List Expr} (h : ∀ e ∈ es, ∀ k, ∀ l ∈ print e k, l.Legible) :
    ∀ l ∈ printOperand es, l.Legible := by
  cases es with
  | nil =>
    rw [printOperand]
    refine List.forall_mem_cons.2 ⟨legible_signOf (by decide), ?_⟩
    refine List.forall_mem_cons.2 ⟨Token.legible_word (by decide), ?_⟩
    exact List.forall_mem_singleton.2 (legible_signOf (by decide))
  | cons x es => exact h x (by simp) 7

theorem legible_name {n : String} (h : IsName n ∨ n = "nullptr") : (Lexeme.word n).Legible := by
  rcases h with h | rfl
  · exact Token.legible_word h.1
  · exact Token.legible_word (by decide)

theorem legible_print {σ : Scopes} {e : Expr} (h : e.Every (printable σ)) (k : Nat) :
    ∀ l ∈ print e k, l.Legible := by
  induction e using Expr.induct generalizing k with
  | absent | foreign | arrayDecl => simp [print]
  | ident n =>
    refine List.forall_mem_singleton.2 (legible_name ?_)
    exact h.imp And.left id
  | varRef n => exact List.forall_mem_singleton.2 (legible_name (.inl h.1))
  | intLit v =>
    rw [print]
    split
    · refine List.forall_mem_cons.2 ⟨legible_signOf (by decide), ?_⟩
      exact List.forall_mem_singleton.2 (Token.legible_number _)
    · exact List.forall_mem_singleton.2 (Token.legible_number _)
  | stringLit s => exact List.forall_mem_singleton.2 (Token.legible_string s)
  | addr n =>
    refine List.forall_mem_cons.2 ⟨legible_signOf (by decide), ?_⟩
    exact List.forall_mem_singleton.2 (legible_name h)
  | deref x ih =>
    rw [print]
    exact List.forall_mem_cons.2 ⟨legible_signOf (by decide), ih h.2 7⟩
  | binary op left right ihl ihr =>
    rw [print]
    refine legible_grouped (List.forall_mem_append.2 ⟨ihl h.2.1 _, ?_⟩)
    exact List.forall_mem_cons.2 ⟨legible_signOf (by cases op <;> decide), ihr h.2.2 _⟩
  | assign target value iht ihv =>
    rw [print]
    refine legible_grouped (List.forall_mem_append.2 ⟨iht h.2.1 _, ?_⟩)
    exact List.forall_mem_cons.2 ⟨legible_signOf (by decide), ihv h.2.2 _⟩
  | index n i ih =>
    rw [print]
    refine List.forall_mem_cons.2 ⟨legible_name h.1, ?_⟩
    refine List.forall_mem_cons.2 ⟨legible_signOf (by decide), ?_⟩
    refine List.forall_mem_append.2 ⟨ih h.2 _, ?_⟩
    exact List.forall_mem_singleton.2 (legible_signOf (by decide))
  | call f args ih =>
    have hargs : ∀ a ∈ args, ∀ k, ∀ l ∈ print a k, l.Legible :=
      fun a ha k => ih a ha (h.args a ha) k
    have hlist : ∀ l ∈ sign .lparen :: (printList args ++ [sign .rparen]), l.Legible := by
      refine List.forall_mem_cons.2 ⟨legible_signOf (by decide), List.forall_mem_append.2 ⟨?_, ?_⟩⟩
      · exact legible_printList hargs
      · exact List.forall_mem_singleton.2 (legible_signOf (by decide))
    rw [print]
    split
    · refine legible_grouped (List.forall_mem_cons.2 ⟨Token.legible_word (by decide), ?_⟩)
      refine List.forall_mem_cons.2 ⟨Token.legible_word (by decide), ?_⟩
      split
      · simp
      · exact hlist
    next hnew =>
      split
      next hf =>
        refine List.forall_mem_cons.2 ⟨?_, ?_⟩
        · rcases hf with rfl | rfl <;> exact Token.legible_word (by decide)
        · exact legible_printOperand hargs
      next hf =>
        exact List.forall_mem_cons.2 ⟨Token.legible_word (isName_of_call h hnew hf).1, hlist⟩

end MemLint.Grammar
