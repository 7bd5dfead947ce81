import MemLint.Yaml.Token

/-! The nodes of a YAML document: scalars, lists and mappings, with the lines on which they start.
They are read from tokens, and each reader leaves fewer tokens than it got. -/

namespace MemLint.Yaml

inductive Node where
  | scalar (line : Nat) (s : Scalar)
  | list (line : Nat) (items : List Node)
  | mapping (line : Nat) (entries : List (Node × Node))
  deriving Repr

namespace Node

def line : Node → Nat
  | scalar line _ | list line _ | mapping line _ => line

/-- The node where nothing stands. -/
def nothing (line : Nat) : Node := scalar line ⟨"", false⟩

/-! ### From tokens -/

/-- Tokens that are left, fewer than `n`. -/
abbrev Rest (n : Nat) := { ts : List Token // ts.length < n }

/-- What may stand where a node starts. -/
inductive Context where
  /-- Scalars, and lists and mappings in brackets. -/
  | inline
  | block
  /-- Also a list with dashes that is not set in. -/
  | entry
  deriving DecidableEq, Repr

/-- After a key or a value of a mapping without braces. -/
def endsEntry (k : Token.Kind) : Bool := k ∈ [.key, .value, .blockEnd]

/-- After a dash. -/
def endsItem (k : Token.Kind) : Bool := k ∈ [.dash, .blockEnd]

/-- After a dash of a list that is not set in. -/
def endsEntryItem (k : Token.Kind) : Bool := k = .dash || endsEntry k

def endsInline (k : Token.Kind) : Bool := k ∈ [.comma, .closeBracket, .closeBrace]

def endsInlineKey (k : Token.Kind) : Bool := k = .value || endsInline k

def endsDocument (k : Token.Kind) : Bool := k ∈ [.documentStart, .documentEnd, .textEnd]

mutual

/-- A node at the front of the tokens. -/
def read? (context : Context) : (ts : List Token) → Option (Node × Rest ts.length)
  | [] => none
  | t :: ts =>
    match t.kind with
    | .scalar s => some (scalar t.line s, ⟨ts, Nat.lt_succ_self _⟩)
    | .openBracket => do
      let (is, r) ← inlineItems? ts
      some (list t.line is, ⟨r.1, Nat.lt_succ_of_lt r.2⟩)
    | .openBrace => do
      let (es, r) ← inlineEntries? ts
      some (mapping t.line es, ⟨r.1, Nat.lt_succ_of_lt r.2⟩)
    | .listStart => do
      if context = .inline then none
      let (is, r) ← items? ts
      some (list t.line is, ⟨r.1, Nat.lt_succ_of_lt r.2⟩)
    | .mappingStart => do
      if context = .inline then none
      let (es, r) ← entries? ts
      some (mapping t.line es, ⟨r.1, Nat.lt_succ_of_lt r.2⟩)
    | .dash => do
      if context ≠ .entry then none
      let (i, r) ← readUnless? endsEntryItem .block ts
      let (is, r') ← entryItems? r.1
      some (list t.line (i :: is), ⟨r'.1, by
        have h := r.2
        have h' := r'.2
        simp only [List.length_cons]
        omega⟩)
    | _ => none
termination_by ts => 3 * ts.length + 1
decreasing_by
  all_goals simp only [List.length_cons]
  all_goals try have := r.2
  all_goals omega

/-- A node, or nothing in front of some kinds of tokens. -/
def readUnless? (ends : Token.Kind → Bool) (context : Context) :
    (ts : List Token) → Option (Node × Rest (ts.length + 1))
  | [] => none
  | t :: ts =>
    if ends t.kind then some (nothing t.line, ⟨t :: ts, Nat.lt_succ_self _⟩)
    else do
      let (n, r) ← read? context (t :: ts)
      some (n, ⟨r.1, Nat.lt_succ_of_lt r.2⟩)
termination_by ts => 3 * ts.length + 2

/-- The value of a key, which may be missing. -/
def valueUnless? (ends : Token.Kind → Bool) (context : Context) :
    (ts : List Token) → Option (Node × Rest (ts.length + 1))
  | [] => none
  | t :: ts =>
    if t.kind = .value then do
      let (n, r) ← readUnless? ends context ts
      some (n, ⟨r.1, Nat.lt_succ_of_lt r.2⟩)
    else some (nothing t.line, ⟨t :: ts, Nat.lt_succ_self _⟩)
termination_by ts => 3 * ts.length
decreasing_by all_goals simp only [List.length_cons]; omega

/-- The items of a list with dashes, up to its end. -/
def items? : (ts : List Token) → Option (List Node × Rest ts.length)
  | [] => none
  | t :: ts =>
    match t.kind with
    | .blockEnd => some ([], ⟨ts, Nat.lt_succ_self _⟩)
    | .dash => do
      let (i, r) ← readUnless? endsItem .block ts
      let (is, r') ← items? r.1
      some (i :: is, ⟨r'.1, by
        have h := r.2
        have h' := r'.2
        simp only [List.length_cons]
        omega⟩)
    | _ => none
termination_by ts => 3 * ts.length
decreasing_by
  all_goals simp only [List.length_cons]
  all_goals try have := r.2
  all_goals omega

/-- Further items of a list with dashes that is not set in. -/
def entryItems? : (ts : List Token) → Option (List Node × Rest (ts.length + 1))
  | [] => none
  | t :: ts =>
    if t.kind = .dash then do
      let (i, r) ← readUnless? endsEntryItem .block ts
      let (is, r') ← entryItems? r.1
      some (i :: is, ⟨r'.1, by
        have h := r.2
        have h' := r'.2
        simp only [List.length_cons]
        omega⟩)
    else some ([], ⟨t :: ts, Nat.lt_succ_self _⟩)
termination_by ts => 3 * ts.length
decreasing_by
  all_goals simp only [List.length_cons]
  all_goals try have := r.2
  all_goals omega

/-- The entries of a mapping without braces, up to its end. -/
def entries? : (ts : List Token) → Option (List (Node × Node) × Rest ts.length)
  | [] => none
  | t :: ts =>
    match t.kind with
    | .blockEnd => some ([], ⟨ts, Nat.lt_succ_self _⟩)
    | .key => do
      let (k, r) ← readUnless? endsEntry .entry ts
      let (v, r') ← valueUnless? endsEntry .entry r.1
      let (es, r'') ← entries? r'.1
      some ((k, v) :: es, ⟨r''.1, by
        have h := r.2
        have h' := r'.2
        have h'' := r''.2
        simp only [List.length_cons]
        omega⟩)
    | _ => none
termination_by ts => 3 * ts.length
decreasing_by
  all_goals simp only [List.length_cons]
  all_goals try have := r.2
  all_goals try have := r'.2
  all_goals omega

/-- The items of a list in brackets, up to its end. A key among them makes a mapping with one
entry. -/
def inlineItems? : (ts : List Token) → Option (List Node × Rest ts.length)
  | [] => none
  | t :: ts =>
    match t.kind with
    | .closeBracket => some ([], ⟨ts, Nat.lt_succ_self _⟩)
    | .key => do
      let (k, r) ← read? .inline ts
      let (v, r') ← valueUnless? endsInline .inline r.1
      let (is, r'') ← moreItems? r'.1
      some (mapping t.line [(k, v)] :: is, ⟨r''.1, by
        have h := r.2
        have h' := r'.2
        have h'' := r''.2
        simp only [List.length_cons]
        omega⟩)
    | _ => do
      let (i, r) ← read? .inline (t :: ts)
      let (is, r') ← moreItems? r.1
      some (i :: is, ⟨r'.1, Nat.lt_trans r'.2 r.2⟩)
termination_by ts => 3 * ts.length + 2
decreasing_by
  all_goals try have := r.2
  all_goals try have := r'.2
  all_goals try simp only [List.length_cons] at *
  all_goals omega

/-- The items after one of a list in brackets. -/
def moreItems? : (ts : List Token) → Option (List Node × Rest ts.length)
  | [] => none
  | t :: ts =>
    match t.kind with
    | .closeBracket => some ([], ⟨ts, Nat.lt_succ_self _⟩)
    | .comma => do
      let (is, r) ← inlineItems? ts
      some (is, ⟨r.1, Nat.lt_succ_of_lt r.2⟩)
    | _ => none
termination_by ts => 3 * ts.length
decreasing_by all_goals simp only [List.length_cons]; omega

/-- The entries of a mapping in braces, up to its end. -/
def inlineEntries? : (ts : List Token) → Option (List (Node × Node) × Rest ts.length)
  | [] => none
  | t :: ts =>
    match t.kind with
    | .closeBrace => some ([], ⟨ts, Nat.lt_succ_self _⟩)
    | .key => do
      let (k, r) ← readUnless? endsInlineKey .inline ts
      let (v, r') ← valueUnless? endsInline .inline r.1
      let (es, r'') ← moreEntries? r'.1
      some ((k, v) :: es, ⟨r''.1, by
        have h := r.2
        have h' := r'.2
        have h'' := r''.2
        simp only [List.length_cons]
        omega⟩)
    | _ => do
      let (k, r) ← read? .inline (t :: ts)
      let (es, r') ← moreEntries? r.1
      some ((k, nothing t.line) :: es, ⟨r'.1, Nat.lt_trans r'.2 r.2⟩)
termination_by ts => 3 * ts.length + 2
decreasing_by
  all_goals try have := r.2
  all_goals try have := r'.2
  all_goals try simp only [List.length_cons] at *
  all_goals omega

/-- The entries after one of a mapping in braces. -/
def moreEntries? : (ts : List Token) → Option (List (Node × Node) × Rest ts.length)
  | [] => none
  | t :: ts =>
    match t.kind with
    | .closeBrace => some ([], ⟨ts, Nat.lt_succ_self _⟩)
    | .comma => do
      let (es, r) ← inlineEntries? ts
      some (es, ⟨r.1, Nat.lt_succ_of_lt r.2⟩)
    | _ => none
termination_by ts => 3 * ts.length
decreasing_by all_goals simp only [List.length_cons]; omega

end

end Node

end MemLint.Yaml
