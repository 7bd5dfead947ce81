import MemLint.DeclType

/-! The tree of a source file. Sugar is gone: a compound assignment is an assignment of a binary
expression, `new`, `delete` and `sizeof` are calls. A child may be absent, and a node may be
foreign, that is, of a kind the checks do not know. -/

namespace MemLint

inductive BinOp where
  | add | sub | mul | div | rem | eq | ne | lt | le | gt | ge | and | or
  deriving DecidableEq, Repr

namespace BinOp

/-- All operators, in the order of their codes. -/
def all : List BinOp := [add, sub, mul, div, rem, eq, ne, lt, le, gt, ge, and, or]

def text : BinOp → String
  | add => "+" | sub => "-" | mul => "*" | div => "/" | rem => "%"
  | eq => "==" | ne => "!=" | lt => "<" | le => "<=" | gt => ">" | ge => ">="
  | and => "&&" | or => "||"

/-- The text that belongs to a code, also to one that no operator has. -/
def textOfCode (code : Int) : String :=
  match if 0 ≤ code then all[code.toNat]? else none with
  | some op => op.text
  | none => "?"

end BinOp

inductive Expr where
  /-- No expression. -/
  | absent
  /-- An expression of an unknown kind, which has a name. -/
  | foreign (kind : String)
  /-- A name that is not known to hold a pointer. -/
  | ident (name : String)
  /-- A name that was declared to hold a pointer. -/
  | varRef (name : String)
  | intLit (value : Int)
  | stringLit (value : String)
  | call (name : String) (args : List Expr)
  /-- The address of a variable, which does not read it. -/
  | addr (name : String)
  | deref (x : Expr)
  | binary (op : BinOp) (left right : Expr)
  | assign (target value : Expr)
  | index (name : String) (i : Expr)
  /-- The declaration of an array. -/
  | arrayDecl (name : String) (size : Expr)
  deriving Inhabited, Repr

namespace Expr

/-- The variable that an expression refers to directly. -/
def name? : Expr → Option String
  | ident n | varRef n => some n
  | _ => none

/-- What messages call the kind of a node. -/
def kindName : Expr → String
  | absent => "<nil>"
  | foreign kind => kind
  | ident _ => "*ast.Ident"
  | varRef _ => "*ast.VarRef"
  | intLit _ => "*ast.IntLit"
  | stringLit _ => "*ast.StringLit"
  | call .. => "*ast.CallExpr"
  | addr _ => "*ast.AddrExpr"
  | deref _ => "*ast.DerefExpr"
  | binary .. => "*ast.BinaryExpr"
  | assign .. => "*ast.AssignExpr"
  | index .. => "*ast.IndexExpr"
  | arrayDecl .. => "*ast.ArrayDeclExpr"

/-- Expressions that can stand on the left of an assignment. -/
def assignable : Expr → Bool
  | ident _ | varRef _ | deref _ | index .. => true
  | _ => false

end Expr

/-- How the body of a loop is left early: for good, or for the next round. -/
inductive Jump where
  | leave | again
  deriving DecidableEq, Repr

inductive Stmt where
  /-- No statement. -/
  | absent
  /-- A statement of an unknown kind, which has a name. -/
  | foreign (kind : String)
  | block (stmts : List Stmt)
  | expr (x : Expr)
  /-- The declaration of a variable; `init` may be absent. -/
  | decl (name : String) (init : Expr)
  /-- A condition with two branches, the second of which may be absent. -/
  | cond (test : Expr) (yes no : Stmt)
  /-- Any loop; `init`, `test` and `post` may be absent. -/
  | loop (init : Stmt) (test post : Expr) (body : Stmt)
  /-- A return; `x` may be absent. -/
  | ret (x : Expr)
  | jump (kind : Jump)
  deriving Inhabited, Repr

structure Param where
  name : String
  type : DeclType
  deriving DecidableEq, Repr

def Param.isPointer (p : Param) : Bool := p.type.isPointer

inductive Decl where
  /-- No declaration. -/
  | absent
  /-- A declaration of an unknown kind, which has a name. -/
  | foreign (kind : String)
  /-- A function; without a body it is a prototype. -/
  | func (name : String) (params : List Param) (ret : DeclType) (body : Stmt)
  /-- A variable at file scope; `init` may be absent. -/
  | var (name : String) (init : Expr)
  /-- A statement at file scope. -/
  | stmt (s : Stmt)
  deriving Inhabited, Repr

namespace Decl

/-- A statement as a declaration: what declares a variable becomes a variable at file scope. -/
def ofStmt : Stmt → Decl
  | .decl name init => .var name init
  | s => .stmt s

def funcName? : Decl → Option String
  | func name .. => some name
  | _ => none

end Decl

end MemLint
