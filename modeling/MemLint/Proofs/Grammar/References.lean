import MemLint.Proofs.Grammar.FileRules

/-! References in a tree. Of a name the scopes say only whether it holds a pointer, and the tree
shows it only in its references. A blurred tree no longer shows it for some names; trees that are
read under scopes which agree on all other names are alike when they are blurred. -/

namespace MemLint

/-! ### Blurred trees -/

namespace Expr

mutual

/-- References to the names in `v` no longer say whether the name holds a pointer. -/
def blur (v : String → Bool) : Expr → Expr
  | varRef name => if v name then ident name else varRef name
  | call f args => call f (blurAll v args)
  | deref x => deref (x.blur v)
  | binary op left right => binary op (left.blur v) (right.blur v)
  | assign target value => assign (target.blur v) (value.blur v)
  | index name i => index name (i.blur v)
  | arrayDecl name size => arrayDecl name (size.blur v)
  | e => e

def blurAll (v : String → Bool) : List Expr → List Expr
  | [] => []
  | e :: es => e.blur v :: blurAll v es

end

theorem blurAll_eq (v : String → Bool) (es : List Expr) : blurAll v es = es.map (blur v) := by
  induction es with
  | nil => rfl
  | cons e es ih => exact congrArg (e.blur v :: ·) ih

mutual

theorem blur_none : ∀ e : Expr, e.blur (fun _ => false) = e
  | absent | foreign _ | ident _ | varRef _ | intLit _ | stringLit _ | addr _ => rfl
  | call f args => congrArg (call f) (blurAll_none args)
  | deref x => congrArg deref (blur_none x)
  | binary op left right => by rw [blur, blur_none left, blur_none right]
  | assign target value => by rw [blur, blur_none target, blur_none value]
  | index name i => congrArg (index name) (blur_none i)
  | arrayDecl name size => congrArg (arrayDecl name) (blur_none size)

theorem blurAll_none : ∀ es : List Expr, blurAll (fun _ => false) es = es
  | [] => rfl
  | e :: es => by rw [blurAll, blur_none e, blurAll_none es]

end

variable {v : String → Bool}

theorem blur_call (f : String) (args : List Expr) :
    (call f args).blur v = call f (args.map (blur v)) := congrArg (call f) (blurAll_eq v args)

theorem name?_blur (e : Expr) : (e.blur v).name? = e.name? := by
  cases e with
  | varRef name =>
    rw [blur]
    split <;> rfl
  | _ => rfl

theorem assignable_blur (e : Expr) : (e.blur v).assignable = e.assignable := by
  cases e with
  | varRef name =>
    rw [blur]
    split <;> rfl
  | _ => rfl

/-- The same expression, but for what its references say about the names in `v`. -/
abbrev Alike (v : String → Bool) (e e' : Expr) : Prop := e.blur v = e'.blur v

variable {e e' x x' : Expr}

theorem Alike.refl (e : Expr) : e.Alike v e := rfl

theorem Alike.name? (h : e.Alike v e') : e'.name? = e.name? := by
  rw [← name?_blur (v := v) e, ← name?_blur (v := v) e', h]

theorem Alike.assignable (h : e.Alike v e') : e'.assignable = e.assignable := by
  rw [← assignable_blur (v := v) e, ← assignable_blur (v := v) e', h]

theorem Alike.call {args args' : List Expr} (h : args.map (blur v) = args'.map (blur v))
    (f : String) : (Expr.call f args).Alike v (.call f args') := by
  rw [Alike, blur_call, blur_call, h]

theorem Alike.call_one (h : e.Alike v e') (f : String) :
    (Expr.call f [e]).Alike v (.call f [e']) :=
  Alike.call (by simp only [List.map_cons, List.map_nil, h]) f

theorem Alike.deref (h : e.Alike v e') : (Expr.deref e).Alike v (.deref e') := by
  simp only [Alike, blur, h]

theorem Alike.binary (h : e.Alike v e') (hx : x.Alike v x') (op : BinOp) :
    (Expr.binary op e x).Alike v (.binary op e' x') := by
  simp only [Alike, blur, h, hx]

theorem Alike.assign (h : e.Alike v e') (hx : x.Alike v x') :
    (Expr.assign e x).Alike v (.assign e' x') := by
  simp only [Alike, blur, h, hx]

theorem Alike.index (h : e.Alike v e') (name : String) :
    (Expr.index name e).Alike v (.index name e') := by
  simp only [Alike, blur, h]

theorem Alike.arrayDecl (h : e.Alike v e') (name : String) :
    (Expr.arrayDecl name e).Alike v (.arrayDecl name e') := by
  simp only [Alike, blur, h]

end Expr

namespace Stmt

mutual

def blur (v : String → Bool) : Stmt → Stmt
  | absent => absent
  | foreign kind => foreign kind
  | block ss => block (blurAll v ss)
  | expr x => expr (x.blur v)
  | decl name init => decl name (init.blur v)
  | cond test yes no => cond (test.blur v) (yes.blur v) (no.blur v)
  | loop init test post body => loop (init.blur v) (test.blur v) (post.blur v) (body.blur v)
  | ret x => ret (x.blur v)
  | jump kind => jump kind

def blurAll (v : String → Bool) : List Stmt → List Stmt
  | [] => []
  | s :: ss => s.blur v :: blurAll v ss

end

theorem blurAll_eq (v : String → Bool) (ss : List Stmt) : blurAll v ss = ss.map (blur v) := by
  induction ss with
  | nil => rfl
  | cons s ss ih => exact congrArg (s.blur v :: ·) ih

mutual

theorem blur_none : ∀ s : Stmt, s.blur (fun _ => false) = s
  | absent | foreign _ | jump _ => rfl
  | block ss => congrArg block (blurAll_none ss)
  | expr x => congrArg expr x.blur_none
  | decl name init => congrArg (decl name) init.blur_none
  | cond test yes no => by simp only [blur, test.blur_none, blur_none yes, blur_none no]
  | loop init test post body => by
    simp only [blur, blur_none init, test.blur_none, post.blur_none, blur_none body]
  | ret x => congrArg ret x.blur_none

theorem blurAll_none : ∀ ss : List Stmt, blurAll (fun _ => false) ss = ss
  | [] => rfl
  | s :: ss => by rw [blurAll, blur_none s, blurAll_none ss]

end

abbrev Alike (v : String → Bool) (s s' : Stmt) : Prop := s.blur v = s'.blur v

variable {v : String → Bool}

theorem Alike.block {ss ss' : List Stmt} (h : ss.map (blur v) = ss'.map (blur v)) :
    (Stmt.block ss).Alike v (.block ss') := by
  simp only [Alike, blur, blurAll_eq, h]

end Stmt

namespace Decl

def blur (v : String → Bool) : Decl → Decl
  | absent => absent
  | foreign kind => foreign kind
  | func name params ret body => func name params ret (body.blur v)
  | var name init => var name (init.blur v)
  | stmt s => stmt (s.blur v)

/-- The declaration without what its references say about their names. -/
def plain (d : Decl) : Decl := d.blur fun _ => true

theorem blur_none (d : Decl) : d.blur (fun _ => false) = d := by
  cases d with
  | absent | foreign => rfl
  | func name params ret body => exact congrArg (func name params ret) body.blur_none
  | var name init => exact congrArg (var name) init.blur_none
  | stmt s => exact congrArg stmt s.blur_none

end Decl

namespace Grammar

variable {v : String → Bool}

/-! ### What productions build -/

section Build

variable {e e' x x' : Expr}

theorem blur_negate (e : Expr) : (negate e).blur v = negate (e.blur v) := by
  cases e with
  | varRef name =>
    simp only [negate, Expr.blur]
    split <;> rfl
  | _ => rfl

theorem blur_addressOf (e : Expr) : (addressOf e).blur v = addressOf (e.blur v) := by
  unfold addressOf
  rw [Expr.name?_blur]
  cases e.name? <;> rfl

theorem alike_prefixOp {k : Token.Kind} {f : Expr → Expr} (hf : prefixOp? k = some f)
    (h : e.Alike v e') : (f e).Alike v (f e') := by
  unfold prefixOp? at hf
  split at hf <;> cases hf
  · exact h.deref
  · rw [Expr.Alike, blur_addressOf, blur_addressOf, h]
  · rw [Expr.Alike, blur_negate, blur_negate, h]
  · exact h
  · exact h.binary rfl .eq
  · exact Expr.Alike.binary rfl h .sub

theorem alike_assignWith (op? : Option BinOp) (h : e.Alike v e') (hx : x.Alike v x') :
    (assignWith op? e x).Alike v (assignWith op? e' x') := by
  cases op? with
  | none => exact h.assign hx
  | some op => exact h.assign (h.binary hx op)

theorem alike_stepped (op : BinOp) (h : e.Alike v e') :
    (stepped op e).Alike v (stepped op e') := alike_assignWith (some op) h rfl

theorem blur_joined (ss : List Stmt) :
    (joined ss).blur v = joined (ss.map (Stmt.blur v)) := by
  match ss with
  | [] => rfl
  | [s] => rfl
  | s :: t :: ss => exact congrArg Stmt.block (Stmt.blurAll_eq v (s :: t :: ss))

theorem blur_ofStmt (s : Stmt) : (Decl.ofStmt s).blur v = Decl.ofStmt (s.blur v) := by
  cases s <;> rfl

end Build

/-! ### Scopes that agree -/

namespace Scopes

/-- The scopes say the same of every name that is not in `v`. -/
def Agree (v : String → Bool) (s t : Scopes) : Prop :=
  ∀ name, v name = false → s.isPointer name = t.isPointer name

variable {s t : Scopes}

theorem isPointer_declare (s : Scopes) (name other : String) (pointer : Bool) :
    (s.declare name pointer).isPointer other =
      if other = name then pointer else s.isPointer other := by
  by_cases h : other = name
  · simp [isPointer, declare, h]
  · simp [isPointer, declare, List.findSome?_cons, h]

theorem isPointer_push (s : Scopes) (name : String) : s.push.isPointer name = s.isPointer name := by
  simp [isPointer, push, List.findSome?_cons]

theorem Agree.declare (h : s.Agree v t) (name : String) (pointer : Bool) :
    (s.declare name pointer).Agree v (t.declare name pointer) := by
  intro other hv
  rw [isPointer_declare, isPointer_declare, h other hv]

theorem Agree.push (h : s.Agree v t) : s.push.Agree v t.push := by
  intro name hv
  rw [isPointer_push, isPointer_push, h name hv]

theorem Agree.enter (h : s.Agree v t) (ps : List Param) : (s.enter ps).Agree v (t.enter ps) := by
  unfold Scopes.enter
  have hpush := h.push
  generalize s.push = s at hpush ⊢
  generalize t.push = t at hpush ⊢
  induction ps generalizing s t with
  | nil => exact hpush
  | cons p ps ih =>
    rw [List.foldl_cons, List.foldl_cons]
    split
    · exact ih _ _ hpush
    · exact ih _ _ (hpush.declare p.name p.isPointer)

theorem Agree.ref (h : s.Agree v t) (name : String) : (s.ref name).Alike v (t.ref name) := by
  cases hv : v name with
  | true =>
    have href (s : Scopes) : (s.ref name).blur v = .ident name := by
      unfold Scopes.ref
      split
      · simp only [Expr.blur, hv, if_true]
      · rfl
    rw [Expr.Alike, href, href]
  | false => rw [Scopes.ref, Scopes.ref, h name hv]

end Scopes

end Grammar

end MemLint
