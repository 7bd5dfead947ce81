import MemLint.Proofs.Tree
import MemLint.Proofs.Grammar.Built

/-! What the productions build is well formed. -/

namespace MemLint.Grammar

theorem wellFormed_leaf {e : Expr} (h : isLeaf e) : e.WellFormed := by
  cases e with
  | ident | varRef | intLit | stringLit | addr => simp
  | _ => cases h

theorem wellFormed_declared {s : Stmt} (h : Declared Expr.WellFormed s) : s.WellFormed := by
  cases h with
  | var h => exact Stmt.wellFormed_decl.2 h
  | array h => simp [h]
  | counted => simp

def wellFormed : DeclInvariant where
  holds _ e := e.WellFormed
  joint _ e := e.WellFormed
  leaf := wellFormed_leaf
  lift h := h
  deref := Expr.wellFormed_deref.2
  call := Expr.wellFormed_call.2
  index := Expr.wellFormed_index.2
  literalLeft h := Expr.wellFormed_binary.2 ⟨Expr.wellFormed_intLit _, h⟩
  literalRight h := Expr.wellFormed_binary.2 ⟨h, Expr.wellFormed_intLit _⟩
  operand h := h
  binary hl hr := Expr.wellFormed_binary.2 ⟨hl, hr⟩
  plain h := h
  assign ha ht hv := Expr.wellFormed_assign.2 ⟨ha, ht, hv⟩
  compound ha ht hv := by simp [ha, ht, hv]
  stepped ha hx := by simp [stepped, assignWith, ha, hx]
  stmt _ s := s.WellFormed
  block := Stmt.wellFormed_block.2
  expr := Stmt.wellFormed_expr.2
  ret := Stmt.wellFormed_ret.2
  jump := by simp
  cond htest hyes hno := Stmt.wellFormed_cond.2 ⟨htest, hyes, hno⟩
  loop hinit htest hpost hbody := Stmt.wellFormed_loop.2 ⟨hinit, htest, hpost, hbody⟩
  declared := wellFormed_declared
  joined _ h := Stmt.wellFormed_block.2 fun s hs => wellFormed_declared (h s hs)
  decl _ d := d.WellFormed
  prototype := by simp
  func h := Decl.wellFormed_func.2 (.inr (Stmt.wellFormed_block.2 h))
  global h := by
    cases h with
    | var h => exact Decl.wellFormed_var.2 h
    | array h => simp [Decl.ofStmt, h]
    | counted => simp [Decl.ofStmt]
  top := Decl.wellFormed_stmt.2

end MemLint.Grammar
