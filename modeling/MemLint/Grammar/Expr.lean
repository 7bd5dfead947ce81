import MemLint.Grammar.Type
import MemLint.Grammar.Scopes
import MemLint.Numeral.Floating

/-! Expressions. The number that the productions count down is how many levels of nesting are still
allowed: an assignment and a unary expression each take one. Sugar is resolved on the way. -/

namespace MemLint.Grammar

/-! ### Sugar -/

/-- The negation `-x`, where a literal changes its sign. -/
def negate : Expr → Expr
  | .intLit v => .intLit (-v)
  | x => .binary .sub (.intLit 0) x

/-- The test `!x` for zero. -/
def invert (x : Expr) : Expr := .binary .eq x (.intLit 0)

/-- The complement `~x`, which is `-1 - x`. -/
def complement (x : Expr) : Expr := .binary .sub (.intLit (-1)) x

/-- The address `&x`, which is `x` itself unless `x` is a name. -/
def addressOf (x : Expr) : Expr :=
  match x.name? with
  | some name => .addr name
  | none => x

/-- The assignment `x = v`, or `x = x op v`. -/
def assignWith (op? : Option BinOp) (x v : Expr) : Expr :=
  match op? with
  | none => .assign x v
  | some op => .assign x (.binary op x v)

/-- The step `x = x op 1`, if `x` can be assigned to. -/
def increment {src : List Token} (op : BinOp) (x : Parsed Expr src) :
    Except Fault (Parsed Expr src) :=
  if x.val.assignable then .ok (x.map fun x => assignWith (some op) x (.intLit 1))
  else .error (faultAt x.rest (.notIncrementable x.val.kindName))

/-! ### Operators -/

/-- The operators of one level of precedence. -/
abbrev Level := Token.Kind → Option BinOp

/-- The levels, from the loosest to the tightest. -/
def levels : List Level := [
  fun | .orOr => some .or | _ => none,
  fun | .andAnd => some .and | _ => none,
  fun | .eqEq => some .eq | .neq => some .ne | _ => none,
  fun | .lt => some .lt | .le => some .le | .gt => some .gt | .ge => some .ge | _ => none,
  fun | .plus => some .add | .minus => some .sub | _ => none,
  fun | .star => some .mul | .slash => some .div | .percent => some .rem | _ => none]

/-- The operator of an assignment; none of its own for a plain one. -/
def assignOp? : Token.Kind → Option (Option BinOp)
  | .assign => some none
  | .addAssign => some (some .add)
  | .subAssign => some (some .sub)
  | .mulAssign => some (some .mul)
  | .divAssign => some (some .div)
  | _ => none

/-- An operator of the level and its right operand. -/
def binaryRound (level : Level) (operand : Parser Expr) : Round Expr
  | left, t :: rest =>
    match level t.kind with
    | some op => some do
      let right ← (Parsed.first t rest).andThen operand
      return right.map (.binary op left)
    | none => none
  | _, [] => none

/-- Operands joined by the operators of the levels, from the left. -/
def binary (operand : Parser Expr) : List Level → Parser Expr
  | [], ts => operand ts
  | level :: tighter, ts => do
    let left ← binary operand tighter ts
    left.chain (binaryRound level (binary operand tighter))

/-- An assignment associates to the right. -/
def assignment (unary assign : Parser Expr) : Parser Expr := fun ts => do
  let left ← binary unary levels ts
  match assignOp? (peek left.rest) with
  | none => return left
  | some op? =>
    if left.val.assignable then
      let value ← left.advance.andThen assign
      return value.map (assignWith op? left.val)
    else .error (faultAt left.rest (.notAssignable left.val.kindName))

/-! ### Lists -/

/-- A comma and another operand, of which only the last counts. -/
def commaRound (assign : Parser Expr) : Round Expr
  | _, t :: rest =>
    if t.kind = .comma then some ((Parsed.first t rest).andThen assign) else none
  | _, [] => none

/-- Assignments joined by commas. -/
def expression (assign : Parser Expr) : Parser Expr := fun ts => do
  let e ← assign ts
  e.chain (commaRound assign)

/-- One item of a list, and the comma after it unless the list is over. -/
def itemRound (close : Token.Kind) (item : Parser Expr) : Round (List Expr) := fun done ts =>
  if peek ts = close then none
  else some do
    let x ← item ts
    if peek x.rest = .comma then return x.advance.map (· :: done)
    else if peek x.rest = close then return x.map (· :: done)
    else .error (unmet close x.rest)

/-- Items up to the closing token, which is taken too. A comma may stand before it. -/
def items {α : Type} {src : List Token} (close : Token.Kind) (item : Parser Expr)
    (opened : Parsed α src) : Except Fault (Parsed (List Expr) src) := do
  let done ← (opened.set []).chain (itemRound close item)
  let closed ← done.andThen (expect close)
  return closed.set done.val.reverse

/-- An initialiser of an array: a string, or items in braces. Only their number is kept; a string
counts its bytes and one more. -/
def initList (assign : Parser Expr) : Parser Nat
  | t :: rest =>
    if t.kind = .string then .ok ((Parsed.first t rest).set (t.lex.utf8ByteSize + 1))
    else do
      let opened ← expect .lbrace (t :: rest)
      let xs ← items .rbrace assign opened
      return xs.map List.length
  | [] => .error (unmet .lbrace [])

/-! ### Operands -/

/-- The literals that follow each other make one string. -/
def stringPart (s : String) (t : Token) : Option String :=
  if t.kind = .string then some (s ++ t.lex) else none

/-- The code of the first character of a character literal. -/
def charCode (s : String) : Int :=
  match s.toList with
  | c :: _ => c.toNat
  | [] => 0

def primary (scopes : Scopes) : Parser Expr
  | [] => .error (faultAt [] (.unexpected .eof ""))
  | t :: rest =>
    let here := Parsed.first t rest
    match t.kind with
    | .ident => .ok (here.set (scopes.ref t.lex))
    | .int =>
      match Numeral.integer? t.lex with
      | some v => .ok (here.set (.intLit v))
      | none => .error (faultAt (t :: rest) (.badInteger t.lex))
    | .float =>
      match Numeral.floating? t.lex with
      | some v => .ok (here.set (.intLit v))
      | none => .error (faultAt (t :: rest) (.badFloating t.lex))
    | .char => .ok (here.set (.intLit (charCode t.lex)))
    | .string => .ok (((here.set t.lex).absorb stringPart).map .stringLit)
    | .kwTrue => .ok (here.set (.intLit 1))
    | .kwFalse => .ok (here.set (.intLit 0))
    | .kwNullptr => .ok (here.set (.ident "nullptr"))
    | _ => .error (faultAt (t :: rest) (.unexpected t.kind t.lex))

/-- A call, an index or a step up or down. -/
def postfixRound (assign : Parser Expr) : Round Expr
  | _, [] => none
  | e, t :: rest =>
    let here := Parsed.first t rest
    match t.kind with
    | .lparen => some <|
      match e.name? with
      | none => .error (faultAt (t :: rest) (.callOfNonName e.kindName))
      | some name => do
        let args ← items .rparen assign here
        return args.map (.call name)
    | .lbrack => some <|
      match e.name? with
      | none => .error (faultAt (t :: rest) .indexOfNonName)
      | some name => do
        let i ← here.andThen (expression assign)
        let closed ← i.andThen (expect .rbrack)
        return closed.set (.index name i.val)
    | .inc => some (increment .add (here.set e))
    | .dec => some (increment .sub (here.set e))
    | .dot | .arrow | .scope => some (.error (faultAt (t :: rest) (.memberAccess t.lex)))
    | _ => none

/-- What follows `new`: a type, and a size in brackets or arguments in parentheses. -/
def newCall {src : List Token} (assign : Parser Expr) (here : Parsed Token src) :
    Except Fault (Parsed Expr src) := do
  let type ← here.andThen declType
  match peek type.rest with
  | .lbrack =>
    let size ← type.advance.andThen (expression assign)
    let closed ← size.andThen (expect .rbrack)
    let call := closed.set (Expr.call "new" [size.val])
    if peek closed.rest = .lbrace then
      let inits ← closed.andThen (initList assign)
      return inits.set call.val
    else return call
  | .lparen =>
    let args ← items .rparen assign type.advance
    return args.map (.call "new")
  | _ => return type.set (.call "new" [])

/-- What follows `delete`: perhaps empty brackets, and an operand. -/
def deleteCall {src : List Token} (unary : Parser Expr) (here : Parsed Token src) :
    Except Fault (Parsed Expr src) := do
  let opened ←
    if peek here.rest = .lbrack then here.advance.andThen (expect .rbrack) else .ok here
  let x ← opened.andThen unary
  return x.map fun x => .call "delete" [x]

/-- What follows `sizeof`: an operand, or a type in parentheses. -/
def sizeofCall {src : List Token} (assign unary : Parser Expr) (here : Parsed Token src) :
    Except Fault (Parsed Expr src) := do
  if peek here.rest = .lparen then
    let opened := here.advance
    let args ←
      if (peek opened.rest).startsType then do
        let type ← opened.andThen declType
        pure (type.set [])
      else do
        let x ← opened.andThen (expression assign)
        pure (x.map fun x => [x])
    let closed ← args.andThen (expect .rparen)
    return closed.set (.call "sizeof" args.val)
  else
    let x ← here.andThen unary
    return x.map fun x => .call "sizeof" [x]

/-- What follows an opening parenthesis: a cast, which is dropped, or an expression. -/
def parenthesized {src : List Token} (assign unary : Parser Expr) (here : Parsed Token src) :
    Except Fault (Parsed Expr src) := do
  if (peek here.rest).startsType then
    let type ← here.andThen declType
    let closed ← type.andThen (expect .rparen)
    closed.andThen unary
  else
    let e ← here.andThen (expression assign)
    let closed ← e.andThen (expect .rparen)
    (closed.set e.val).chain (postfixRound assign)

/-- A unary expression, given the productions of the next level. -/
def unaryForm (scopes : Scopes) (assign unary : Parser Expr) : Parser Expr
  | [] => primary scopes []
  | t :: rest =>
    let here := Parsed.first t rest
    let applied (f : Expr → Expr) : Except Fault (Parsed Expr (t :: rest)) := do
      let x ← here.andThen unary
      return x.map f
    match t.kind with
    | .star => applied .deref
    | .amp => applied addressOf
    | .minus => applied negate
    | .plus => here.andThen unary
    | .bang => applied invert
    | .tilde => applied complement
    | .inc => do
      let x ← here.andThen unary
      increment .add x
    | .dec => do
      let x ← here.andThen unary
      increment .sub x
    | .kwNew => newCall assign here
    | .kwDelete => deleteCall unary here
    | .kwSizeof => sizeofCall assign unary here
    | .lparen => parenthesized assign unary here
    | _ => do
      let e ← primary scopes (t :: rest)
      e.chain (postfixRound assign)

mutual

/-- An assignment expression with `depth` levels to go. -/
def assign (scopes : Scopes) : (depth : Nat) → (ts : List Token) → Except Fault (Parsed Expr ts)
  | 0, ts => .error (faultAt ts .tooDeep)
  | depth + 1, ts => assignment (unary scopes depth) (assign scopes depth) ts

/-- A unary expression with `depth` levels to go. -/
def unary (scopes : Scopes) : (depth : Nat) → (ts : List Token) → Except Fault (Parsed Expr ts)
  | 0, ts => .error (faultAt ts .tooDeep)
  | depth + 1, ts => unaryForm scopes (assign scopes depth) (unary scopes depth) ts

end

end MemLint.Grammar
