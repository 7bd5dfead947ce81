import MemLint.Token

/-! Declared types: a base under any number of pointer levels. The checks look no further than
whether a type is a pointer. -/

namespace MemLint

namespace DeclType

inductive Base where
  | int | char | bool | short | long | float | double | void | auto
  /-- A pointer that does not say what it points to. -/
  | pointer
  /-- A base without a name. -/
  | other (code : Nat)
  deriving DecidableEq, Inhabited, Repr

namespace Base

def ofCode : Nat → Base
  | 0 => int | 1 => char | 2 => bool | 3 => short | 4 => long | 5 => float | 6 => double
  | 7 => void | 8 => auto | 9 => pointer
  | n => other n

def code : Base → Nat
  | int => 0 | char => 1 | bool => 2 | short => 3 | long => 4 | float => 5 | double => 6
  | void => 7 | auto => 8 | pointer => 9
  | other n => n

def name : Base → String
  | int => "int" | char => "char" | bool => "bool" | short => "short" | long => "long"
  | float => "float" | double => "double" | void => "void" | auto => "auto"
  | pointer => "*"
  | other _ => "?"

/-- The base that a word of a type stands for. -/
def ofKind? : Token.Kind → Option Base
  | .kwInt | .kwUnsigned | .kwSigned => some int
  | .kwChar => some char
  | .kwBool => some bool
  | .kwShort => some short
  | .kwLong => some long
  | .kwFloat => some float
  | .kwDouble => some double
  | .kwVoid => some void
  | .kwAuto => some auto
  | _ => none

end Base

end DeclType

inductive DeclType where
  | base (b : DeclType.Base)
  | pointer (target : DeclType)
  deriving DecidableEq, Inhabited, Repr

namespace DeclType

def isPointer : DeclType → Bool
  | base b => b == .pointer
  | pointer _ => true

/-- The number of pointer levels. -/
def depth : DeclType → Nat
  | base _ => 0
  | pointer t => t.depth + 1

/-- What is left without the pointer levels. -/
def root : DeclType → Base
  | base b => b
  | pointer t => t.root

def text : DeclType → String
  | base b => b.name
  | pointer t => t.text ++ "*"

/-- The type `t` under `n` more pointer levels. -/
def wrap (t : DeclType) : Nat → DeclType
  | 0 => t
  | n + 1 => pointer (t.wrap n)

end DeclType

end MemLint
