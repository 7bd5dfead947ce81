import MemLint.Proofs.Tree
import MemLint.Proofs.Grammar.Built

/-! How high a parsed tree can be. The productions count the levels of nesting, but some nodes they
build without taking a level. Operators are read in a loop, of which only one node is covered by the
level of the assignment around it. A compound assignment, a step up or down and an array stand for
two nodes at once, a declaration of several names becomes a block, and the body of a function is
entered for free. Up to such nodes a tree is no higher than the limit it was parsed with. -/

namespace MemLint

namespace Expr

mutual

/-- The two expressions are the same. -/
def same : Expr → Expr → Bool
  | absent, absent => true
  | foreign a, foreign b => a == b
  | ident a, ident b => a == b
  | varRef a, varRef b => a == b
  | intLit a, intLit b => a == b
  | stringLit a, stringLit b => a == b
  | call f as, call g bs => f == g && sameOf as bs
  | addr a, addr b => a == b
  | deref x, deref y => same x y
  | binary op l r, binary op' l' r' => op == op' && same l l' && same r r'
  | assign t v, assign t' v' => same t t' && same v v'
  | index a i, index b j => a == b && same i j
  | arrayDecl a m, arrayDecl b n => a == b && same m n
  | _, _ => false

def sameOf : List Expr → List Expr → Bool
  | [], [] => true
  | a :: as, b :: bs => same a b && sameOf as bs
  | _, _ => false

end

theorem sameOf_iff {as bs : List Expr} (h : ∀ a ∈ as, ∀ b, same a b ↔ a = b) :
    sameOf as bs ↔ as = bs := by
  induction as generalizing bs with
  | nil => cases bs <;> simp [sameOf]
  | cons a as ih =>
    cases bs with
    | nil => simp [sameOf]
    | cons b bs =>
      have ha := h a (by simp) b
      have has : sameOf as bs ↔ as = bs := ih fun a ha => h a (by simp [ha])
      simp [sameOf, ha, has]

theorem same_iff {a b : Expr} : same a b ↔ a = b := by
  induction a using Expr.induct generalizing b with
  | call f args ih =>
    cases b with
    | call g bs => simp [same, sameOf_iff fun a ha b => ih a ha]
    | _ => simp [same]
  | _ => cases b <;> simp_all [same, and_assoc]

/-- The nodes of an assignment `x = x op v` that parsing does not count. A step up or down looks
like one with the literal 1 and has one more of them. -/
def sugar (target : Expr) : Expr → Nat
  | binary _ left (intLit 1) => if same left target then 2 else 0
  | binary _ left _ => if same left target then 1 else 0
  | _ => 0

def isBinary : Expr → Bool
  | binary .. => true
  | _ => false

mutual

/-- The levels on one way down that parsing does not count, where they are most. -/
def uncounted : Expr → Nat
  | call _ args => uncountedOf args
  | deref x => x.uncounted
  | binary _ left right =>
    max (left.uncounted + left.isBinary.toNat) (right.uncounted + right.isBinary.toNat)
  | assign target value =>
    max target.uncounted value.uncounted + sugar target value
  | index _ i => i.uncounted
  | arrayDecl _ size => size.uncounted + 2
  | _ => 0

def uncountedOf : List Expr → Nat
  | [] => 0
  | e :: es => max e.uncounted (uncountedOf es)

end

theorem uncountedOf_le_iff {es : List Expr} {n : Nat} :
    uncountedOf es ≤ n ↔ ∀ e ∈ es, e.uncounted ≤ n := by
  induction es with
  | nil => simp [uncountedOf]
  | cons e es ih => rw [uncountedOf, Nat.max_le, ih, List.forall_mem_cons]

/-- The expression fits into so many levels, apart from those that are not counted. -/
def FitsIn (e : Expr) (d : Nat) : Prop := e.height ≤ d + e.uncounted

theorem fitsIn_absent (d : Nat) : absent.FitsIn d := Nat.zero_le _

theorem heightOf_le {es : List Expr} {d : Nat} (h : ∀ e ∈ es, e.FitsIn d) :
    heightOf es ≤ d + uncountedOf es := by
  refine heightOf_le_iff.2 fun e he => Nat.le_trans (h e he) ?_
  have := uncountedOf_le_iff.1 (Nat.le_refl (uncountedOf es)) e he
  omega

end Expr

namespace Stmt

/-- The declaration of one name. -/
def declares : Stmt → Bool
  | decl .. | expr (.arrayDecl ..) => true
  | _ => false

mutual

/-- The levels on one way down that parsing does not count, where they are most. -/
def uncounted : Stmt → Nat
  | block ss => uncountedOf ss + if 2 ≤ ss.length ∧ ss.all declares then 1 else 0
  | expr x => x.uncounted
  | decl _ init => init.uncounted
  | cond test yes no => max test.uncounted (max yes.uncounted no.uncounted)
  | loop init test post body =>
    max (max init.uncounted test.uncounted) (max post.uncounted body.uncounted)
  | ret x => x.uncounted
  | _ => 0

def uncountedOf : List Stmt → Nat
  | [] => 0
  | s :: ss => max s.uncounted (uncountedOf ss)

end

theorem uncountedOf_le_iff {ss : List Stmt} {n : Nat} :
    uncountedOf ss ≤ n ↔ ∀ s ∈ ss, s.uncounted ≤ n := by
  induction ss with
  | nil => simp [uncountedOf]
  | cons s ss ih => rw [uncountedOf, Nat.max_le, ih, List.forall_mem_cons]

def FitsIn (s : Stmt) (d : Nat) : Prop := s.height ≤ d + s.uncounted

theorem fitsIn_absent (d : Nat) : absent.FitsIn d := Nat.zero_le _

theorem heightOf_le {ss : List Stmt} {d : Nat} (h : ∀ s ∈ ss, s.FitsIn d) :
    heightOf ss ≤ d + uncountedOf ss := by
  refine heightOf_le_iff.2 fun s hs => Nat.le_trans (h s hs) ?_
  have := uncountedOf_le_iff.1 (Nat.le_refl (uncountedOf ss)) s hs
  omega

end Stmt

/-- The levels on one way down that parsing does not count, where they are most. -/
def Decl.uncounted : Decl → Nat
  | func _ _ _ .absent => 0
  | func _ _ _ body => body.uncounted + 1
  | var _ init => init.uncounted
  | stmt s => s.uncounted
  | _ => 0

end MemLint

namespace MemLint.Grammar

theorem fitsIn_leaf {d : Nat} {e : Expr} (h : isLeaf e) : e.FitsIn (d + 1) := by
  cases e with
  | ident | varRef | intLit | stringLit | addr =>
    simp only [Expr.FitsIn, Expr.height]
    omega
  | _ => cases h

theorem isBinary_of_assignable {x : Expr} (h : x.assignable) : x.isBinary = false := by
  cases x with
  | binary => cases h
  | _ => rfl

theorem fitsIn_compound {d : Nat} {op : BinOp} {x v : Expr} (hx : x.FitsIn d) (hv : v.FitsIn d) :
    (Expr.assign x (.binary op x v)).FitsIn (d + 1) := by
  have hsugar : 1 ≤ Expr.sugar x (.binary op x v) := by
    unfold Expr.sugar
    split <;> simp_all [Expr.same_iff]
  simp only [Expr.FitsIn, Expr.height, Expr.uncounted] at hx hv ⊢
  omega

theorem fitsIn_stepped {d : Nat} {op : BinOp} {x : Expr} (hx : x.FitsIn (d + 1)) :
    (stepped op x).FitsIn (d + 1) := by
  simp only [Expr.FitsIn, stepped, assignWith, Expr.height, Expr.uncounted, Expr.sugar,
    Expr.same_iff.2, if_true] at hx ⊢
  omega

theorem fitsIn_of_optional {d : Nat} {e : Expr} (h : e = .absent ∨ e.FitsIn d) : e.FitsIn d :=
  h.elim (fun ha => ha ▸ Expr.fitsIn_absent d) id

theorem fitsIn_of_optionalStmt {d : Nat} {s : Stmt} (h : s = .absent ∨ s.FitsIn d) : s.FitsIn d :=
  h.elim (fun ha => ha ▸ Stmt.fitsIn_absent d) id

theorem fitsIn_declared {d : Nat} {s : Stmt} (h : Declared (Expr.FitsIn · d) s) :
    s.FitsIn (d + 1) := by
  cases h with
  | var h =>
    have h := fitsIn_of_optional h
    simp only [Expr.FitsIn, Stmt.FitsIn, Stmt.height, Stmt.uncounted] at h ⊢
    omega
  | array h =>
    simp only [Expr.FitsIn, Stmt.FitsIn, Stmt.height, Stmt.uncounted, Expr.height,
      Expr.uncounted] at h ⊢
    omega
  | counted =>
    simp only [Stmt.FitsIn, Stmt.height, Stmt.uncounted, Expr.height, Expr.uncounted]
    omega

theorem declares_of_declared {P : Expr → Prop} {s : Stmt} (h : Declared P s) : s.declares := by
  cases h <;> rfl

theorem fitsIn_global {limit : Nat} (hlimit : 1 ≤ limit) {s : Stmt}
    (h : Declared (Expr.FitsIn · limit) s) :
    (Decl.ofStmt s).height ≤ limit + (Decl.ofStmt s).uncounted := by
  cases h with
  | var h => exact fitsIn_of_optional h
  | array h =>
    simp only [Expr.FitsIn, Decl.ofStmt, Decl.height, Decl.uncounted, Stmt.height, Stmt.uncounted,
      Expr.height, Expr.uncounted] at h ⊢
    omega
  | counted =>
    simp only [Decl.ofStmt, Decl.height, Decl.uncounted, Stmt.height, Stmt.uncounted, Expr.height,
      Expr.uncounted]
    omega

def fitting : DeclInvariant where
  -- a level must be left for the literals that stand in for signs and steps
  holds d e := 1 ≤ d ∧ e.FitsIn d
  -- a chain of operators counts as one level, so its last operator is not yet paid for
  joint d e := e.height ≤ d + e.uncounted + e.isBinary.toNat
  leaf h := ⟨by omega, fitsIn_leaf h⟩
  lift h := by
    simp only [Expr.FitsIn] at h ⊢
    omega
  deref h := by
    simp only [Expr.FitsIn, Expr.height, Expr.uncounted] at h ⊢
    omega
  call h := by
    have := Expr.heightOf_le fun a ha => (h a ha).2
    simp only [Expr.FitsIn, Expr.height, Expr.uncounted]
    omega
  index h := by
    simp only [Expr.FitsIn, Expr.height, Expr.uncounted] at h ⊢
    omega
  literalLeft h := by
    simp only [Expr.FitsIn, Expr.height, Expr.uncounted] at h ⊢
    omega
  literalRight h := by
    simp only [Expr.FitsIn, Expr.height, Expr.uncounted] at h ⊢
    omega
  operand h := Nat.le_trans h.2 (Nat.le_add_right _ _)
  binary hl hr := by
    simp only [Expr.height, Expr.uncounted, Expr.isBinary, Bool.toNat_true] at hl hr ⊢
    omega
  plain {d e} h := by
    have := Bool.toNat_le e.isBinary
    simp only [Expr.FitsIn]
    omega
  assign ha ht hv := by
    simp only [isBinary_of_assignable ha, Expr.FitsIn, Expr.height, Expr.uncounted,
      Bool.toNat_false] at ht hv ⊢
    omega
  compound ha ht hv := by
    rw [isBinary_of_assignable ha] at ht
    exact ⟨by omega, fitsIn_compound ht hv.2⟩
  stepped _ h := ⟨h.1, fitsIn_stepped h.2⟩
  stmt d s := s.FitsIn d
  block h := by
    have := Stmt.heightOf_le h
    simp only [Stmt.FitsIn, Stmt.height, Stmt.uncounted]
    omega
  expr h := by
    simp only [Expr.FitsIn, Stmt.FitsIn, Stmt.height, Stmt.uncounted] at h ⊢
    omega
  ret h := by
    have h := fitsIn_of_optional (h.imp id And.right)
    simp only [Expr.FitsIn, Stmt.FitsIn, Stmt.height, Stmt.uncounted] at h ⊢
    omega
  jump := by
    simp only [Stmt.FitsIn, Stmt.height]
    omega
  cond htest hyes hno := by
    have hno := fitsIn_of_optionalStmt hno
    simp only [Expr.FitsIn, Stmt.FitsIn, Stmt.height, Stmt.uncounted] at htest hyes hno ⊢
    omega
  loop hinit htest hpost hbody := by
    have hinit := fitsIn_of_optionalStmt hinit
    have htest := fitsIn_of_optional (htest.imp id And.right)
    have hpost := fitsIn_of_optional (hpost.imp id And.right)
    simp only [Expr.FitsIn, Stmt.FitsIn, Stmt.height, Stmt.uncounted] at hinit htest hpost hbody ⊢
    omega
  declared h := fitsIn_declared (h.mono And.right)
  joined {d ss} hlen h := by
    have hheight := Stmt.heightOf_le fun s hs => fitsIn_declared ((h s hs).mono And.right)
    have hall : ss.all Stmt.declares :=
      List.all_eq_true.2 fun s hs => declares_of_declared (h s hs)
    simp only [Stmt.FitsIn, Stmt.height, Stmt.uncounted, hlen, hall, and_self, if_true]
    omega
  decl limit d := 1 ≤ limit → d.height ≤ limit + d.uncounted
  prototype _ := Nat.zero_le _
  func h _ := by
    have := Stmt.heightOf_le h
    simp only [Decl.height, Decl.uncounted, Stmt.height, Stmt.uncounted]
    omega
  global h hlimit := fitsIn_global hlimit (h.mono And.right)
  top h _ := h

end MemLint.Grammar
