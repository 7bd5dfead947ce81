import MemLint.Grammar.Parsed
import MemLint.DeclType

/-! Types in the source: qualifiers and type words in any order, then stars. The first word decides
the base and a later one replaces it, unless it only says `int`. -/

namespace MemLint.Grammar

/-- The base after one more word. -/
def refine (b : DeclType.Base) (k : Token.Kind) : DeclType.Base :=
  match DeclType.Base.ofKind? k with
  | some .int | none => b
  | some b' => b'

/-- Type words and qualifiers after the first word. -/
def specifier (b : DeclType.Base) (t : Token) : Option DeclType.Base :=
  if t.kind.startsType then some (refine b t.kind) else none

/-- Stars, and `const` between them. -/
def star (type : DeclType) (t : Token) : Option DeclType :=
  match t.kind with
  | .star => some (.pointer type)
  | .kwConst => some type
  | _ => none

/-- Qualifiers in front of a type. -/
def qualifier (_ : Unit) (t : Token) : Option Unit :=
  if t.kind.isQualifier then some () else none

def declType : Parser DeclType := fun ts =>
  let qualified := absorb qualifier () ts
  have hq : qualified.2.length ≤ ts.length := absorb_length_le qualifier () ts
  match h : qualified.2 with
  | [] => .error (faultAt [] (.expectedType .eof ""))
  | t :: rest =>
    match DeclType.Base.ofKind? t.kind with
    | none => .error (faultAt (t :: rest) (.expectedType t.kind t.lex))
    | some b =>
      let base : Parsed DeclType.Base ts :=
        ⟨b, rest, by rw [h] at hq; simp only [List.length_cons] at hq; omega⟩
      .ok (((base.absorb specifier).map .base).absorb star)

end MemLint.Grammar
