import MemLint.Token
import MemLint.Text.Quoted

/-! Why a text is refused. While parsing, a fault names the place of the token it stands at, or none
at the end of the text; a finished error has a place and the depth limit in force. -/

namespace MemLint.Grammar

inductive Cause where
  | expected (want got : Token.Kind) (lex : String)
  | expectedType (got : Token.Kind) (lex : String)
  | unexpected (got : Token.Kind) (lex : String)
  | tooDeep
  | notAssignable (kind : String)
  | notIncrementable (kind : String)
  | callOfNonName (kind : String)
  | indexOfNonName
  | memberAccess (lex : String)
  | badInteger (lex : String)
  | badFloating (lex : String)
  | multiDimensional
  | unsizedArray (name : String)
  deriving DecidableEq, Repr

def Cause.message (limit : Nat) : Cause → String
  | expected want got lex => s!"expected {want.name}, got {got.name} {Text.quoted lex}"
  | expectedType got lex => s!"expected type, got {got.name} {Text.quoted lex}"
  | unexpected got lex => s!"unexpected token {got.name} {Text.quoted lex}"
  | tooDeep => s!"nesting too deep (limit {limit})"
  | notAssignable kind => s!"cannot assign to {kind}"
  | notIncrementable kind => s!"cannot increment {kind}"
  | callOfNonName kind => s!"call of non-name expression {kind}"
  | indexOfNonName => "indexing is only supported on named arrays"
  | memberAccess lex => s!"member access with {Text.quoted lex} is not supported"
  | badInteger lex => s!"invalid integer literal {Text.quoted lex}"
  | badFloating lex => s!"invalid floating literal {Text.quoted lex}"
  | multiDimensional => "multi-dimensional arrays are not supported"
  | unsizedArray name => s!"array {name} has no size"

structure Fault where
  at? : Option Pos
  cause : Cause
  deriving DecidableEq, Repr

/-- An error of a source file. -/
structure Error where
  pos : Pos
  limit : Nat
  cause : Cause
  deriving DecidableEq, Repr

/-- The error as it is shown for a file of the given name. -/
def Error.message (file : String) (e : Error) : String :=
  s!"{file}:{e.pos.line}:{e.pos.col}: {e.cause.message e.limit}"

end MemLint.Grammar
