/-! Tokens: what the source text is made of once blanks and comments are gone. -/

namespace MemLint

/-- A place in the source text. -/
structure Pos where
  line : Nat
  col : Nat
  deriving DecidableEq, Repr

namespace Pos

/-- The place before the first character. -/
def start : Pos := ⟨1, 0⟩

/-- The place of a character that follows `p`, or where reading stands after it. -/
def step (p : Pos) (c : Char) : Pos :=
  if c = '\n' then ⟨p.line + 1, 0⟩ else ⟨p.line, p.col + 1⟩

/-- The place of the last character of `text`, which follows `p`. -/
def after (p : Pos) (text : List Char) : Pos := text.foldl step p

end Pos

namespace Token

inductive Kind where
  | eof | illegal
  | ident | int | float | char | string
  | kwInt | kwChar | kwBool | kwShort | kwLong | kwFloat | kwDouble | kwVoid | kwAuto
  | kwUnsigned | kwSigned
  | kwConst | kwStatic
  | kwReturn | kwIf | kwElse | kwWhile | kwFor | kwDo | kwBreak | kwContinue
  | kwNew | kwDelete | kwNullptr | kwSizeof | kwTrue | kwFalse
  | lparen | rparen | lbrace | rbrace | lbrack | rbrack | semi | comma
  | colon | scope | dot | arrow | assign | amp
  | plus | minus | star | slash | percent | inc | dec
  | addAssign | subAssign | mulAssign | divAssign
  | andAnd | orOr | bang | tilde
  | eqEq | neq | lt | le | gt | ge
  deriving DecidableEq, Repr

namespace Kind

/-- All kinds, in the order of their codes. -/
def all : List Kind := [
  eof, illegal, ident, int, float, char, string,
  kwInt, kwChar, kwBool, kwShort, kwLong, kwFloat, kwDouble, kwVoid, kwAuto,
  kwUnsigned, kwSigned, kwConst, kwStatic,
  kwReturn, kwIf, kwElse, kwWhile, kwFor, kwDo, kwBreak, kwContinue,
  kwNew, kwDelete, kwNullptr, kwSizeof, kwTrue, kwFalse,
  lparen, rparen, lbrace, rbrace, lbrack, rbrack, semi, comma,
  colon, scope, dot, arrow, assign, amp,
  plus, minus, star, slash, percent, inc, dec,
  addAssign, subAssign, mulAssign, divAssign,
  andAnd, orOr, bang, tilde, eqEq, neq, lt, le, gt, ge]

/-- The name of a kind in messages. -/
def name : Kind → String
  | eof => "EOF" | illegal => "ILLEGAL"
  | ident => "IDENT" | int => "INT" | float => "FLOAT" | char => "CHAR" | string => "STRING"
  | kwInt => "KW_INT" | kwChar => "KW_CHAR" | kwBool => "KW_BOOL" | kwShort => "KW_SHORT"
  | kwLong => "KW_LONG" | kwFloat => "KW_FLOAT" | kwDouble => "KW_DOUBLE" | kwVoid => "KW_VOID"
  | kwAuto => "KW_AUTO" | kwUnsigned => "KW_UNSIGNED" | kwSigned => "KW_SIGNED"
  | kwConst => "KW_CONST" | kwStatic => "KW_STATIC"
  | kwReturn => "KW_RETURN" | kwIf => "KW_IF" | kwElse => "KW_ELSE" | kwWhile => "KW_WHILE"
  | kwFor => "KW_FOR" | kwDo => "KW_DO" | kwBreak => "KW_BREAK" | kwContinue => "KW_CONTINUE"
  | kwNew => "KW_NEW" | kwDelete => "KW_DELETE" | kwNullptr => "KW_NULLPTR"
  | kwSizeof => "KW_SIZEOF" | kwTrue => "KW_TRUE" | kwFalse => "KW_FALSE"
  | lparen => "LPAREN" | rparen => "RPAREN" | lbrace => "LBRACE" | rbrace => "RBRACE"
  | lbrack => "LBRACK" | rbrack => "RBRACK" | semi => "SEMI" | comma => "COMMA"
  | colon => "COLON" | scope => "SCOPE" | dot => "DOT" | arrow => "ARROW"
  | assign => "ASSIGN" | amp => "AMP"
  | plus => "PLUS" | minus => "MINUS" | star => "STAR" | slash => "SLASH"
  | percent => "PERCENT" | inc => "INC" | dec => "DEC"
  | addAssign => "ADD_ASSIGN" | subAssign => "SUB_ASSIGN" | mulAssign => "MUL_ASSIGN"
  | divAssign => "DIV_ASSIGN"
  | andAnd => "ANDAND" | orOr => "OROR" | bang => "BANG" | tilde => "TILDE"
  | eqEq => "EQEQ" | neq => "NEQ" | lt => "LT" | le => "LE" | gt => "GT" | ge => "GE"

/-- The name that belongs to a code, also to one that no kind has. -/
def nameOfCode (code : Int) : String :=
  match if 0 ≤ code then all[code.toNat]? else none with
  | some k => k.name
  | none => s!"TokenType({code})"

/-- The kind of a word: a keyword, or else a name. -/
def ofWord : String → Kind
  | "int" => kwInt | "char" => kwChar | "bool" => kwBool | "short" => kwShort
  | "long" => kwLong | "float" => kwFloat | "double" => kwDouble | "void" => kwVoid
  | "auto" => kwAuto | "unsigned" => kwUnsigned | "signed" => kwSigned
  | "const" => kwConst | "static" => kwStatic
  | "return" => kwReturn | "if" => kwIf | "else" => kwElse | "while" => kwWhile
  | "for" => kwFor | "do" => kwDo | "break" => kwBreak | "continue" => kwContinue
  | "new" => kwNew | "delete" => kwDelete | "nullptr" => kwNullptr | "sizeof" => kwSizeof
  | "true" => kwTrue | "false" => kwFalse
  | _ => ident

/-- Words that can be part of a type. -/
def isType : Kind → Bool
  | kwInt | kwChar | kwBool | kwShort | kwLong | kwFloat | kwDouble | kwVoid | kwAuto
  | kwUnsigned | kwSigned => true
  | _ => false

/-- Words that qualify a declaration and leave its type alone. -/
def isQualifier : Kind → Bool
  | kwConst | kwStatic => true
  | _ => false

/-- A declaration or a cast starts here. -/
def startsType (k : Kind) : Bool := k.isType || k.isQualifier

end Kind

end Token

/-- A token with the text it was read as and the place of its first character. The text of a string
or character literal is what the literal stands for. -/
structure Token where
  kind : Token.Kind
  lex : String
  pos : Pos
  deriving DecidableEq, Repr

end MemLint
