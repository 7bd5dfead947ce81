import MemLint.Grammar.Expr

/-! Statements and local declarations. A statement takes one level of nesting. It gives back the
scopes, to which it may have added names; a block gives them back as they were. -/

namespace MemLint.Grammar

/-- A production that may declare names. -/
abbrev Declaring (α : Type) := Scopes → Parser (α × Scopes)

/-! ### Declarators -/

/-- An array: a size in brackets, an initialiser, or both. The size wins. -/
def arrayDeclarator {src : List Token} (value : Parser Expr) (name : String) (scopes : Scopes)
    (here : Parsed Unit src) : Except Fault (Parsed (Stmt × Scopes) src) := do
  let opened := here.advance
  let size ←
    if peek opened.rest = .rbrack then pure (opened.set none) else do
      let size ← opened.andThen (expression value)
      pure (size.map some)
  let closed ← size.andThen (expect .rbrack)
  if peek closed.rest = .lbrack then
    throw (faultAt closed.rest .multiDimensional)
  let sized ←
    if peek closed.rest = .assign then do
      let count ← closed.advance.andThen (initList value)
      pure (count.map fun (n : Nat) => some (size.val.getD (.intLit n)))
    else pure (closed.set size.val)
  match sized.val with
  | none => throw (faultAt sized.rest (.unsizedArray name))
  | some size =>
    return sized.set (.expr (.arrayDecl name size), scopes.declare name true)

/-- What follows a declared name. The name is declared after its initialiser. -/
def declarator {src : List Token} (value : Scopes → Parser Expr) (type : DeclType) (name : String)
    (scopes : Scopes) (here : Parsed Unit src) : Except Fault (Parsed (Stmt × Scopes) src) :=
  match peek here.rest with
  | .lbrack => arrayDeclarator (value scopes) name scopes here
  | .assign => do
    let init ← here.advance.andThen (value scopes)
    return init.map fun e => (.decl name e, scopes.declare name type.isPointer)
  | _ => .ok (here.set (.decl name .absent, scopes.declare name type.isPointer))

/-- A comma and another declarator, which starts from the base of the type. -/
def declaratorRound (value : Scopes → Parser Expr) (base : DeclType.Base) :
    Round (List Stmt × Scopes)
  | (done, scopes), t :: rest =>
    if t.kind = .comma then some do
      let type := ((Parsed.first t rest).set (DeclType.base base)).absorb star
      let name ← type.andThen (expect .ident)
      let s ← declarator value type.val name.val.lex scopes (name.set ())
      return s.map fun (s, scopes) => (s :: done, scopes)
    else none
  | _, [] => none

/-- The declarators of a declaration whose type and first name are known, and the semicolon. -/
def declarators {src : List Token} (value : Scopes → Parser Expr) (type : DeclType)
    (scopes : Scopes) (name : Parsed Token src) :
    Except Fault (Parsed (List Stmt × Scopes) src) := do
  let s ← declarator value type name.val.lex scopes (name.set ())
  let done ← (s.map fun (s, scopes) => ([s], scopes)).chain (declaratorRound value type.root)
  let semi ← done.andThen (expect .semi)
  return semi.set (done.val.1.reverse, done.val.2)

/-- Several declarators make a block of declarations. -/
def joined : List Stmt → Stmt
  | [s] => s
  | ss => .block ss

def localDecl (value : Scopes → Parser Expr) : Declaring Stmt := fun scopes ts => do
  let type ← declType ts
  let name ← type.andThen (expect .ident)
  let ss ← declarators value type.val scopes name
  return ss.map fun (ss, scopes) => (joined ss, scopes)

/-! ### Statements -/

/-- A statement of a block, unless the block is over. -/
def blockRound (stmt : Declaring Stmt) : Round (List Stmt × Scopes) := fun (done, scopes) ts =>
  if peek ts = .rbrace ∨ peek ts = .eof then none
  else some do
    let s ← stmt scopes ts
    return s.map fun (s, scopes) => (s :: done, scopes)

def block (stmt : Declaring Stmt) (scopes : Scopes) : Parser Stmt := fun ts => do
  let opened ← expect .lbrace ts
  let done ← (opened.set ([], scopes.push)).chain (blockRound stmt)
  let closed ← done.andThen (expect .rbrace)
  return closed.set (.block done.val.1.reverse)

/-- An expression in parentheses. -/
def condition (value : Parser Expr) : Parser Expr := fun ts => do
  let opened ← expect .lparen ts
  let e ← opened.andThen (expression value)
  let closed ← e.andThen (expect .rparen)
  return closed.set e.val

/-- An expression, unless the token that ends it is there already. -/
def optional {α : Type} {src : List Token} (stop : Token.Kind) (value : Parser Expr)
    (here : Parsed α src) : Except Fault (Parsed Expr src) :=
  if peek here.rest = stop then .ok (here.set .absent) else here.andThen (expression value)

/-- What follows `if`. -/
def ifStmt {src : List Token} (value : Scopes → Parser Expr) (stmt : Declaring Stmt)
    (scopes : Scopes) (here : Parsed Token src) : Except Fault (Parsed (Stmt × Scopes) src) := do
  let test ← here.andThen (condition (value scopes))
  let yes ← test.andThen (stmt scopes)
  if peek yes.rest = .kwElse then
    let no ← yes.advance.andThen (stmt yes.val.2)
    return no.map fun (no, scopes) => (.cond test.val yes.val.1 no, scopes)
  else
    return yes.map fun (yes, scopes) => (.cond test.val yes .absent, scopes)

/-- What follows `while`. -/
def whileStmt {src : List Token} (value : Scopes → Parser Expr) (stmt : Declaring Stmt)
    (scopes : Scopes) (here : Parsed Token src) : Except Fault (Parsed (Stmt × Scopes) src) := do
  let test ← here.andThen (condition (value scopes))
  let body ← test.andThen (stmt scopes)
  return body.map fun (body, scopes) => (.loop .absent test.val .absent body, scopes)

/-- What follows `do`. -/
def doStmt {src : List Token} (value : Scopes → Parser Expr) (stmt : Declaring Stmt)
    (scopes : Scopes) (here : Parsed Token src) : Except Fault (Parsed (Stmt × Scopes) src) := do
  let body ← here.andThen (stmt scopes)
  let word ← body.andThen (expect .kwWhile)
  let test ← word.andThen (condition (value body.val.2))
  let semi ← test.andThen (expect .semi)
  return semi.set (.loop .absent test.val .absent body.val.1, body.val.2)

/-- What follows `for`. Its names are gone after it. -/
def forStmt {src : List Token} (value : Scopes → Parser Expr) (stmt : Declaring Stmt)
    (scopes : Scopes) (here : Parsed Token src) : Except Fault (Parsed (Stmt × Scopes) src) := do
  let opened ← here.andThen (expect .lparen)
  let init ←
    if peek opened.rest = .semi then pure (opened.advance.set (.absent, scopes.push))
    else opened.andThen (stmt scopes.push)
  let test ← optional .semi (value init.val.2) init
  let semi ← test.andThen (expect .semi)
  let post ← optional .rparen (value init.val.2) semi
  let closed ← post.andThen (expect .rparen)
  let body ← closed.andThen (stmt init.val.2)
  return body.set (.loop init.val.1 test.val post.val body.val.1, scopes)

/-- What follows `return`. -/
def returnStmt {src : List Token} (value : Parser Expr) (here : Parsed Token src) :
    Except Fault (Parsed Stmt src) := do
  let x ← optional .semi value here
  let semi ← x.andThen (expect .semi)
  return semi.set (.ret x.val)

/-- What follows `break` or `continue`. -/
def jumpStmt {src : List Token} (kind : Jump) (here : Parsed Token src) :
    Except Fault (Parsed Stmt src) := do
  let semi ← here.andThen (expect .semi)
  return semi.set (.jump kind)

def exprStmt (value : Parser Expr) : Parser Stmt := fun ts => do
  let x ← expression value ts
  let semi ← x.andThen (expect .semi)
  return semi.set (.expr x.val)

/-- A statement, given the productions of the next level. -/
def statement (value : Scopes → Parser Expr) (stmt : Declaring Stmt) : Declaring Stmt
  | scopes, [] => do
    let s ← exprStmt (value scopes) []
    return s.map (·, scopes)
  | scopes, t :: rest =>
    let here := Parsed.first t rest
    let closed (s : Except Fault (Parsed Stmt (t :: rest))) :
        Except Fault (Parsed (Stmt × Scopes) (t :: rest)) := do
      let s ← s
      return s.map (·, scopes)
    match t.kind with
    | .lbrace => closed (block stmt scopes (t :: rest))
    | .semi => .ok (here.set (.block [], scopes))
    | .kwReturn => closed (returnStmt (value scopes) here)
    | .kwIf => ifStmt value stmt scopes here
    | .kwWhile => whileStmt value stmt scopes here
    | .kwDo => doStmt value stmt scopes here
    | .kwFor => forStmt value stmt scopes here
    | .kwBreak => closed (jumpStmt .leave here)
    | .kwContinue => closed (jumpStmt .again here)
    | kind =>
      if kind.startsType then localDecl value scopes (t :: rest)
      else closed (exprStmt (value scopes) (t :: rest))

/-- A statement with `depth` levels to go. -/
def stmt : (depth : Nat) → (scopes : Scopes) → (ts : List Token) →
    Except Fault (Parsed (Stmt × Scopes) ts)
  | 0, _, ts => .error (faultAt ts .tooDeep)
  | depth + 1, scopes, ts => statement (assign · depth) (stmt depth) scopes ts

end MemLint.Grammar
