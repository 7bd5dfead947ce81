import MemLint.Grammar.Stmt
import MemLint.Token.Scan

/-! Files: declarations of functions and variables, and statements, up to the end of the text. -/

namespace MemLint.Grammar

/-- The limit of nesting when none is given. -/
def defaultLimit : Nat := 1000

/-- The limit that a setting asks for; only a positive one counts. -/
def limitOf (setting : Int) : Nat := if 0 < setting then setting.toNat else defaultLimit

/-- A parameter after its type: an ampersand, a name and brackets, each of which may be missing. -/
def param {src : List Token} (type : Parsed DeclType src) : Except Fault (Parsed Param src) := do
  let here := if peek type.rest = .amp then type.advance else type
  let (here, name) :=
    if peek here.rest = .ident then (here.advance, peekLex here.rest) else (here, "")
  if peek here.rest = .lbrack then
    let opened := here.advance
    let opened := if peek opened.rest = .int then opened.advance else opened
    let closed ← opened.andThen (expect .rbrack)
    return closed.set ⟨name, .pointer here.val⟩
  else return here.set ⟨name, here.val⟩

/-- A comma and another parameter. -/
def paramRound : Round (List Param)
  | done, t :: rest =>
    if t.kind = .comma then some do
      let type ← (Parsed.first t rest).andThen declType
      let p ← param type
      return p.map (· :: done)
    else none
  | _, [] => none

/-- Parameters after the type of the first one. -/
def paramsFrom {src : List Token} (type : Parsed DeclType src) :
    Except Fault (Parsed (List Param) src) := do
  let p ← param type
  let done ← (p.map fun p => [p]).chain paramRound
  return done.map List.reverse

/-- The parameters of a function. A lone `void` means that there are none. -/
def params {α : Type} {src : List Token} (opened : Parsed α src) :
    Except Fault (Parsed (List Param) src) := do
  match peek opened.rest with
  | .rparen => return opened.set []
  | .kwVoid =>
    let word := opened.advance
    if peek word.rest = .rparen then return word.set []
    else paramsFrom ((word.set (DeclType.base .void)).absorb star)
  | _ =>
    let type ← opened.andThen declType
    paramsFrom type

/-- A function whose result type and name are known. With a semicolon it is a prototype. -/
def func {src : List Token} (stmt : Declaring Stmt) (ret : DeclType) (scopes : Scopes)
    (name : Parsed Token src) : Except Fault (Parsed Decl src) := do
  let opened ← name.andThen (expect .lparen)
  let ps ← params opened
  let closed ← ps.andThen (expect .rparen)
  if peek closed.rest = .semi then
    return closed.advance.set (.func name.val.lex ps.val ret .absent)
  else
    let body ← closed.andThen (block stmt (scopes.enter ps.val))
    return body.map (.func name.val.lex ps.val ret)

/-- What stands at file scope: a function, the variables of a declaration, or a statement. -/
def decl (limit : Nat) : Declaring (List Decl) := fun scopes ts => do
  if (peek ts).startsType then
    let type ← declType ts
    let name ← type.andThen (expect .ident)
    if peek name.rest = .lparen then
      let f ← func (stmt limit) type.val scopes name
      return f.map fun f => ([f], scopes)
    else
      let ss ← declarators (assign · limit) type.val scopes name
      return ss.map fun (ss, scopes) => (ss.map Decl.ofStmt, scopes)
  else
    let s ← stmt limit scopes ts
    return s.map fun (s, scopes) => ([.stmt s], scopes)

/-- The declarations at one place, unless the text is over. -/
def fileRound (limit : Nat) : Round (List Decl × Scopes) := fun (done, scopes) ts =>
  if ts.isEmpty then none
  else some do
    let ds ← decl limit scopes ts
    return ds.map fun (ds, scopes) => (ds.reverse ++ done, scopes)

/-- The declarations of a scanned text. -/
def file (limit : Nat) (text : Token.Scanned) : Except Fault (List Decl) := do
  let r ← chain (fileRound limit) (text.eof :: text.tokens) ([], .file) text.tokens
    (Nat.lt_succ_self _)
  return r.val.1.reverse

/-- The tree of a source text, whose nesting may not pass the limit. -/
def parse (limit : Nat) (source : List Char) : Except Error (List Decl) :=
  let text := Token.scan source
  (file limit text).mapError fun f => ⟨f.at?.getD text.endPos, limit, f.cause⟩

end MemLint.Grammar
