import MemLint.Grammar.Error

/-! What a production gives: a value and the tokens it leaves, which are fewer than it got. The one
loop of the grammar, `chain`, ends because each of its rounds leaves fewer tokens. -/

namespace MemLint.Grammar

/-- A value and what is left of `src` after it. -/
structure Parsed (α : Type) (src : List Token) where
  val : α
  rest : List Token
  shorter : rest.length < src.length

/-- A production takes at least one token, or fails. -/
abbrev Parser (α : Type) := (ts : List Token) → Except Fault (Parsed α ts)

/-- The kind of the current token. -/
def peek : List Token → Token.Kind
  | [] => .eof
  | t :: _ => t.kind

/-- The text of the current token. -/
def peekLex : List Token → String
  | [] => ""
  | t :: _ => t.lex

/-- A fault at the current token. -/
def faultAt (ts : List Token) (cause : Cause) : Fault := ⟨ts.head?.map (·.pos), cause⟩

/-- The current token is not the one that is needed. -/
def unmet (want : Token.Kind) (ts : List Token) : Fault :=
  faultAt ts (.expected want (peek ts) (peekLex ts))

namespace Parsed

variable {α β : Type} {src : List Token}

def map (f : α → β) (p : Parsed α src) : Parsed β src := ⟨f p.val, p.rest, p.shorter⟩

/-- The same place with another value. -/
def set (p : Parsed α src) (b : β) : Parsed β src := ⟨b, p.rest, p.shorter⟩

/-- Passes over the current token. -/
def advance (p : Parsed α src) : Parsed α src :=
  ⟨p.val, p.rest.tail, by have := p.shorter; simp only [List.length_tail]; omega⟩

/-- Goes on with a production where `p` ended. -/
def andThen (p : Parsed α src) (q : Parser β) : Except Fault (Parsed β src) := do
  let r ← q p.rest
  return ⟨r.val, r.rest, Nat.lt_trans r.shorter p.shorter⟩

/-- The first token on its own. -/
def first (t : Token) (rest : List Token) : Parsed Token (t :: rest) :=
  ⟨t, rest, Nat.lt_succ_self _⟩

end Parsed

/-- A token of the given kind. -/
def expect (want : Token.Kind) : Parser Token
  | t :: rest => if t.kind = want then .ok (.first t rest) else .error (unmet want (t :: rest))
  | [] => .error (unmet want [])

/-- Takes tokens into a value as long as `step` accepts them. -/
def absorb {α : Type} (step : α → Token → Option α) (a : α) : List Token → α × List Token
  | t :: rest =>
    match step a t with
    | some b => absorb step b rest
    | none => (a, t :: rest)
  | [] => (a, [])

theorem absorb_length_le {α : Type} (step : α → Token → Option α) (a : α) (ts : List Token) :
    (absorb step a ts).2.length ≤ ts.length := by
  induction ts generalizing a with
  | nil => simp [absorb]
  | cons t rest ih =>
    simp only [absorb]
    split
    · exact Nat.le_succ_of_le (ih _)
    · exact Nat.le_refl _

/-- Takes further tokens into the value. -/
def Parsed.absorb {α : Type} {src : List Token} (step : α → Token → Option α) (p : Parsed α src) :
    Parsed α src :=
  let r := Grammar.absorb step p.val p.rest
  ⟨r.1, r.2, Nat.lt_of_le_of_lt (absorb_length_le step p.val p.rest) p.shorter⟩

/-- One round of a loop at the tokens `ts`: nothing, if the loop is over, and else a value and what
is left of `ts`. -/
abbrev Round (α : Type) := α → (ts : List Token) → Option (Except Fault (Parsed α ts))

/-- Rounds until one says that the loop is over. -/
def chain {α : Type} (round : Round α) (src : List Token) (a : α) (ts : List Token)
    (h : ts.length < src.length) : Except Fault (Parsed α src) :=
  match round a ts with
  | none => .ok ⟨a, ts, h⟩
  | some (.error e) => .error e
  | some (.ok r) => chain round src r.val r.rest (Nat.lt_trans r.shorter h)
termination_by ts.length
decreasing_by exact r.shorter

/-- Rounds from where `p` ended, starting with its value. -/
def Parsed.chain {α : Type} {src : List Token} (p : Parsed α src) (round : Round α) :
    Except Fault (Parsed α src) :=
  Grammar.chain round src p.val p.rest p.shorter

end MemLint.Grammar
