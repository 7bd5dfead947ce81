import Mathlib.Tactic.IntervalCases
import MemLint.Proofs.Grammar.FileRules
import MemLint.Proofs.Grammar.Printing
import MemLint.Proofs.Numeral.Decimal

/-! Parsing undoes printing. An expression is read back from its lexemes in front of every text
that cannot go on with it. How long a text can still go on is a matter of tightness: after an
operand that binds with `k`, only operators that bind more loosely may follow. The depth of nesting
that an expression takes is bounded by its height: parentheses around an expression cost two levels
and a prefix one. -/

namespace MemLint.Grammar

open Token (Lexeme)

variable {σ : Scopes} {p : Parser Expr} {ts rest mid : List Token} {e : Expr} {k : Nat}

/-! ### Tokens of lexemes -/

/-- The tokens stand for the lexemes. -/
def Written (ls : List Lexeme) (ts : List Token) : Prop := ts.map Token.lexeme = ls

theorem written_cons {l : Lexeme} {ls : List Lexeme} :
    Written (l :: ls) ts ↔ ∃ t ts', ts = t :: ts' ∧ Token.lexeme t = l ∧ Written ls ts' := by
  rw [Written, List.map_eq_cons_iff]
  rfl

theorem written_append {ls ms : List Lexeme} :
    Written (ls ++ ms) ts ↔ ∃ ts₁ ts₂, ts = ts₁ ++ ts₂ ∧ Written ls ts₁ ∧ Written ms ts₂ :=
  List.map_eq_append_iff

theorem kind_sign {t : Token} {kind : Token.Kind} (h : Token.lexeme t = sign kind) :
    t.kind = kind := congrArg Lexeme.kind h

theorem written_singleton {l : Lexeme} :
    Written [l] ts ↔ ∃ t, ts = [t] ∧ Token.lexeme t = l := by
  rw [Written, List.map_eq_singleton_iff]

/-- The production reads the expression from the lexemes and leaves `rest`. -/
def Reads (p : Parser Expr) (ls : List Lexeme) (e : Expr) (rest : List Token) : Prop :=
  ∀ ts, Written ls ts → Gives (p (ts ++ rest)) e rest

/-! ### What can follow -/

/-- How tightly something must bind for the token to end it: nothing is asked by what closes or
separates expressions, and an operator ends what binds more tightly. -/
def strength? : Token.Kind → Option Nat
  | .rparen | .rbrack | .comma | .semi => some 0
  | .assign => some 1
  | .orOr => some 2
  | .andAnd => some 3
  | .eqEq | .neq => some 4
  | .lt | .le | .gt | .ge => some 5
  | .plus | .minus => some 6
  | .star | .slash | .percent => some 7
  | _ => none

/-- The text ends what binds with `k`. -/
def Ends (k : Nat) (rest : List Token) : Prop := ∃ s, strength? (peek rest) = some s ∧ s ≤ k

theorem Ends.mono {k' : Nat} (h : Ends k rest) (hk : k ≤ k') : Ends k' rest := by
  obtain ⟨s, hs, hle⟩ := h
  exact ⟨s, hs, Nat.le_trans hle hk⟩

theorem ends_cons {t : Token} {s : Nat} (ht : strength? t.kind = some s) (hs : s ≤ k) :
    Ends k (t :: rest) := ⟨s, ht, hs⟩

theorem Ends.postfixRound_eq_none (h : Ends k rest) : postfixRound p e rest = none := by
  obtain ⟨s, hs, -⟩ := h
  cases rest with
  | nil => rfl
  | cons t rest =>
    rw [peek_cons] at hs
    unfold postfixRound
    cases hk : t.kind <;> rw [hk] at hs <;> simp_all [strength?]

theorem Ends.assignOp?_eq_none (h : Ends 0 rest) : assignOp? (peek rest) = none := by
  obtain ⟨s, hs, hle⟩ := h
  revert hs
  cases peek rest <;> simp_all [strength?, assignOp?]

/-- The operator that a token stands for between two operands. -/
def binaryOp? : Token.Kind → Option BinOp
  | .orOr => some .or | .andAnd => some .and
  | .eqEq => some .eq | .neq => some .ne
  | .lt => some .lt | .le => some .le | .gt => some .gt | .ge => some .ge
  | .plus => some .add | .minus => some .sub
  | .star => some .mul | .slash => some .div | .percent => some .rem
  | _ => none

/-- The level of the operators that bind with `k`. -/
def levelAt (k : Nat) : Level := fun kind => (binaryOp? kind).filter (rank · = k)

theorem levels_eq :
    levels = [levelAt 1, levelAt 2, levelAt 3, levelAt 4, levelAt 5, levelAt 6] := by
  simp only [levels, List.cons.injEq, and_true]
  refine ⟨?_, ?_, ?_, ?_, ?_, ?_⟩ <;> funext kind <;> cases kind <;> rfl

theorem drop_levels (hk : 1 ≤ k) (hk' : k ≤ 6) :
    levels.drop (k - 1) = levelAt k :: levels.drop k := by
  rw [levels_eq]
  interval_cases k <;> rfl

theorem rank_pos (op : BinOp) : 1 ≤ rank op := by cases op <;> decide

theorem rank_le (op : BinOp) : rank op ≤ 6 := by cases op <;> decide

theorem binaryOp?_opKind (op : BinOp) : binaryOp? (opKind op) = some op := by cases op <;> rfl

theorem strength_of_binaryOp {kind : Token.Kind} {op : BinOp} (h : binaryOp? kind = some op) :
    strength? kind = some (rank op + 1) := by
  unfold binaryOp? at h
  split at h <;> cases h <;> rfl

theorem levelAt_eq_some {kind : Token.Kind} {op : BinOp} :
    levelAt k kind = some op ↔ binaryOp? kind = some op ∧ rank op = k := by
  simp [levelAt, Option.filter_eq_some_iff]

theorem Ends.levelAt_eq_none (h : Ends k rest) : levelAt k (peek rest) = none := by
  obtain ⟨s, hs, hle⟩ := h
  cases hl : levelAt k (peek rest) with
  | none => rfl
  | some op =>
    obtain ⟨hop, hr⟩ := levelAt_eq_some.1 hl
    rw [strength_of_binaryOp hop, Option.some.injEq] at hs
    omega

/-- Operands joined by the operators that bind at least with `k`. -/
def tight (p : Parser Expr) (k : Nat) : Parser Expr := binary p (levels.drop (k - 1))

theorem gives_tight (hk : 1 ≤ k) (hk' : k ≤ 6) :
    Gives (tight p k ts) e rest ↔ ∃ left mid, Gives (tight p (k + 1) ts) left mid ∧
      Rounds (binaryRound (levelAt k) (tight p (k + 1))) left mid e rest := by
  have h : tight p k = binary p (levelAt k :: levels.drop k) := by rw [tight, drop_levels hk hk']
  rw [h]
  exact gives_binary_cons

/-- What is read as an operand is read at every looser level that ends with it. -/
theorem gives_tight_of_le {j : Nat} (hj : j ≤ 7) (hk : 1 ≤ k) (hkj : k ≤ j)
    (h : Gives (tight p j ts) e rest) (hr : Ends k rest) : Gives (tight p k ts) e rest := by
  induction j, hkj using Nat.le_induction with
  | base => exact h
  | succ j hkj ih =>
    have hnone : binaryRound (levelAt j) (tight p (j + 1)) e rest = none := by
      rw [binaryRound_eq_none]
      · exact (hr.mono hkj).levelAt_eq_none
      · rfl
    exact ih (by omega) ((gives_tight (by omega) (by omega)).2 ⟨e, rest, h, .stop hnone⟩)

/-! ### How a printed expression starts -/

/-- An expression that is never put in parentheses. -/
def compact : Expr → Bool
  | .binary .. | .assign .. => false
  | .call f _ => f != "new"
  | _ => true

theorem print_of_compact (h : compact e) (k : Nat) : print e k = print e 0 := by
  cases e with
  | binary | assign => cases h
  | call f args =>
    have hf : f ≠ "new" := by simpa [compact] using h
    simp [print, hf]
  | _ => simp [print]

theorem print_of_not_compact (h : compact e = false) :
    print e 7 = sign .lparen :: (print e 0 ++ [sign .rparen]) := by
  cases e with
  | binary op left right =>
    have := rank_le op
    simp [print, grouped, show rank op < 7 by omega]
  | assign => simp [print, grouped]
  | call f args =>
    have hf : f = "new" := by simpa [compact] using h
    simp [print, grouped, hf]
  | _ => cases h

/-- The tokens that a printed expression can start with, if it is not in parentheses. -/
def starts : Token.Kind → Bool
  | .ident | .kwNullptr | .int | .string | .amp | .star | .minus | .kwNew | .kwDelete | .kwSizeof =>
    true
  | _ => false

theorem kind_word {n : String} (h : IsName n ∨ n = "nullptr") :
    Token.Kind.ofWord n = .ident ∨ Token.Kind.ofWord n = .kwNullptr := by
  rcases h with h | rfl
  · exact .inl h.2
  · exact .inr rfl

theorem starts_word {n : String} (h : IsName n ∨ n = "nullptr") :
    starts (Token.Kind.ofWord n) = true := by
  rcases kind_word h with h | h <;> rw [h] <;> rfl

/-- A first lexeme of an expression. -/
def StartsWith (e : Expr) (ls : List Lexeme) : Prop :=
  ∃ l ls', ls = l :: ls' ∧ (starts l.kind = true ∨ l.kind = .lparen ∧ compact e = false)

theorem startsWith_grouped {needed : Bool} {ls : List Lexeme} (h : StartsWith e ls)
    (he : compact e = false) : StartsWith e (grouped needed ls) := by
  unfold grouped
  split
  · exact ⟨_, _, rfl, .inr ⟨rfl, he⟩⟩
  · exact h

/-- An expression starts with one of these tokens, or with a parenthesis around it or around its
leftmost operand. -/
theorem startsWith_print (h : e.Every (printable σ)) (k : Nat) : StartsWith e (print e k) := by
  induction e using Expr.induct generalizing k with
  | absent | foreign | arrayDecl => exact h.here.elim
  | ident n => exact ⟨_, _, rfl, .inl (starts_word (h.imp And.left id))⟩
  | varRef n => exact ⟨_, _, rfl, .inl (starts_word (.inl h.1))⟩
  | intLit v =>
    rw [print]
    split <;> exact ⟨_, _, rfl, .inl rfl⟩
  | stringLit | addr => exact ⟨_, _, rfl, .inl rfl⟩
  | deref x =>
    rw [print]
    exact ⟨_, _, rfl, .inl rfl⟩
  | binary op left right ihl =>
    rw [print]
    obtain ⟨l, ls, hp, hl⟩ := ihl h.2.1 (rank op)
    refine startsWith_grouped ⟨l, _, by rw [hp, List.cons_append], ?_⟩ rfl
    exact hl.imp id fun hl => ⟨hl.1, rfl⟩
  | assign target value iht =>
    rw [print]
    obtain ⟨l, ls, hp, hl⟩ := iht h.2.1 7
    refine startsWith_grouped ⟨l, _, by rw [hp, List.cons_append], ?_⟩ rfl
    exact hl.imp id fun hl => ⟨hl.1, rfl⟩
  | index n i =>
    rw [print]
    exact ⟨_, _, rfl, .inl (starts_word h.1)⟩
  | call f args =>
    rw [print]
    split
    next hnew =>
      refine startsWith_grouped ⟨_, _, rfl, .inl rfl⟩ ?_
      simp [compact, hnew]
    next hnew =>
      split
      next hf =>
        refine ⟨_, _, rfl, .inl ?_⟩
        rcases hf with rfl | rfl <;> rfl
      next hf => exact ⟨_, _, rfl, .inl (starts_word (.inl (isName_of_call h hnew hf)))⟩

/-- What the first token of a printed expression is not. -/
theorem peek_written {ls : List Lexeme} (h : StartsWith e ls) (hw : Written ls ts)
    (rest : List Token) : starts (peek (ts ++ rest)) = true ∨
      peek (ts ++ rest) = .lparen ∧ compact e = false := by
  obtain ⟨l, ls', rfl, hl⟩ := h
  obtain ⟨t, ts', rfl, rfl, -⟩ := written_cons.1 hw
  exact hl

theorem peek_ne_of_starts {kind : Token.Kind}
    (h : starts (peek ts) = true ∨ peek ts = .lparen ∧ compact e = false)
    (hk : starts kind = false) (hp : kind ≠ .lparen) : peek ts ≠ kind := by
  rintro rfl
  rcases h with h | ⟨h, -⟩
  · rw [hk] at h
    cases h
  · exact hp h

theorem startsType_of_starts (h : starts (peek ts) = true ∨ peek ts = .lparen ∧ compact e = false) :
    (peek ts).startsType = false := by
  rcases h with h | ⟨h, -⟩
  · revert h
    cases peek ts <;> decide
  · rw [h]
    rfl

/-! ### Reading at one level from reading at another -/

theorem Reads.expression {ls : List Lexeme} (h : Reads p ls e rest) (hc : peek rest ≠ .comma) :
    Reads (expression p) ls e rest := fun ts hw =>
  gives_expression.2 ⟨e, rest, h ts hw, .stop (commaRound_eq_none.2 hc)⟩

theorem Reads.loosen {ls : List Lexeme} {j : Nat} (h : Reads (tight p j) ls e rest) (hj : j ≤ 7)
    (hk : 1 ≤ k) (hkj : k ≤ j) (hr : Ends k rest) : Reads (tight p k) ls e rest := fun ts hw =>
  gives_tight_of_le hj hk hkj (h ts hw) hr

theorem Reads.assign {ls : List Lexeme} {d : Nat} (h : Reads (tight (unary σ d) 1) ls e rest)
    (hr : Ends 0 rest) : Reads (Grammar.assign σ (d + 1)) ls e rest := fun ts hw =>
  gives_assign_succ.2 (.plain (h ts hw) hr.assignOp?_eq_none)

theorem ends_rparen {t : Token} (h : Token.lexeme t = sign .rparen) : Ends k (t :: rest) := by
  refine ends_cons (s := 0) ?_ (Nat.zero_le k)
  rw [kind_sign h]
  rfl

/-- An expression in parentheses is a unary expression. -/
theorem Reads.paren {ls : List Lexeme} {d : Nat} (hs : StartsWith e ls)
    (h : ∀ rest, Ends 0 rest → Reads (Grammar.assign σ d) ls e rest) (hr : Ends 7 rest) :
    Reads (unary σ (d + 1)) (sign .lparen :: (ls ++ [sign .rparen])) e rest := by
  intro ts hw
  obtain ⟨t, ts, rfl, ht, hw⟩ := written_cons.1 hw
  obtain ⟨ts, cs, rfl, hls, hcs⟩ := written_append.1 hw
  obtain ⟨c, rfl, hc⟩ := written_singleton.1 hcs
  rw [List.cons_append, List.append_assoc, List.singleton_append]
  have hck : c.kind = .rparen := kind_sign hc
  have hx := (h (c :: rest) (ends_rparen hc)).expression (by rw [peek_cons, hck]; decide)
  have hstart := startsType_of_starts (peek_written hs hls (c :: rest))
  refine gives_unary_succ.2 (.paren (kind_sign ht) ?_)
  exact .group hstart (hx ts hls) hck (.stop hr.postfixRound_eq_none)

/-- In parentheses an expression is read at every level. -/
theorem reads_grouped (hp : e.Every (printable σ))
    (h : ∀ d rest, 3 * e.height + 1 ≤ d → Ends 0 rest → Reads (assign σ d) (print e 0) e rest)
    {d : Nat} (hd : 3 * e.height + 2 ≤ d) (hk : 1 ≤ k) (hk' : k ≤ 7) (hr : Ends k rest) :
    Reads (tight (unary σ d) k) (sign .lparen :: (print e 0 ++ [sign .rparen])) e rest := by
  obtain ⟨d, rfl⟩ : ∃ d', d = d' + 1 := ⟨d - 1, by omega⟩
  have h7 : Reads (tight (unary σ (d + 1)) 7) _ e rest :=
    Reads.paren (startsWith_print hp 0) (fun rest => h d rest (by omega)) (hr.mono hk')
  exact h7.loosen (by decide) hk hk' hr

/-! ### The invariant -/

/-- Some rounds of a loop. -/
inductive Steps {α : Type} (round : Round α) : α → List Token → α → List Token → Prop where
  | refl {a : α} {ts : List Token} : Steps round a ts a ts
  | tail {a b c : α} {ts mid rest : List Token} (h : Steps round a ts b mid)
      (step : Step round b mid c rest) : Steps round a ts c rest

theorem Steps.rounds {α : Type} {round : Round α} {a b c : α} {ts mid rest : List Token}
    (h : Steps round a ts b mid) (hr : Rounds round b mid c rest) : Rounds round a ts c rest := by
  induction h with
  | refl => exact hr
  | tail _ step ih => exact ih (.next step hr)

/-- The expression is read back at every level, if there is enough depth. The spine says how far a
loop over the operators of one level has come when it has read the expression, so that it can go
on. -/
structure RoundTrip (σ : Scopes) (e : Expr) : Prop where
  assign : ∀ d rest, 3 * e.height + 1 ≤ d → Ends 0 rest →
    Reads (Grammar.assign σ d) (print e 0) e rest
  tight : ∀ d k rest, 3 * e.height + 2 ≤ d → 1 ≤ k → k ≤ 7 → Ends k rest →
    Reads (tight (unary σ d) k) (print e k) e rest
  spine : ∀ d k rest, 3 * e.height + 2 ≤ d → 1 ≤ k → k ≤ 6 → Ends (k + 1) rest →
    ∀ ts, Written (print e k) ts → ∃ left mid,
      Gives (Grammar.tight (unary σ d) (k + 1) (ts ++ rest)) left mid ∧
      Steps (binaryRound (levelAt k) (Grammar.tight (unary σ d) (k + 1))) left mid e rest

theorem roundTrip_of_compact (hc : compact e) (he : 0 < e.height)
    (h : ∀ d rest, 3 * e.height ≤ d + 1 → Ends 7 rest →
      Reads (unary σ (d + 1)) (print e 0) e rest) : RoundTrip σ e := by
  have htight : ∀ d k rest, 3 * e.height ≤ d → 1 ≤ k → k ≤ 7 → Ends k rest →
      Reads (tight (unary σ d) k) (print e 0) e rest := by
    intro d k rest hd hk hk' hr
    obtain ⟨d, rfl⟩ : ∃ d', d = d' + 1 := ⟨d - 1, by omega⟩
    have h7 : Reads (tight (unary σ (d + 1)) 7) (print e 0) e rest := h d rest hd (hr.mono hk')
    exact h7.loosen (by decide) hk hk' hr
  refine ⟨?_, ?_, ?_⟩
  · intro d rest hd hr
    obtain ⟨d, rfl⟩ : ∃ d', d = d' + 1 := ⟨d - 1, by omega⟩
    exact (htight d 1 rest (by omega) (by decide) (by decide) (hr.mono (by decide))).assign hr
  · intro d k rest hd hk hk' hr
    rw [print_of_compact hc]
    exact htight d k rest (by omega) hk hk' hr
  · intro d k rest hd hk hk' hr ts hw
    rw [print_of_compact hc] at hw
    exact ⟨e, rest, htight d (k + 1) rest (by omega) (by omega) (by omega) hr ts hw, .refl⟩

/-- An expression that stands in parentheses wherever something tighter than an assignment is
wanted. -/
theorem roundTrip_of_loose (hp : e.Every (printable σ))
    (hg : ∀ k, 1 ≤ k → print e k = sign .lparen :: (print e 0 ++ [sign .rparen]))
    (h : ∀ d rest, 3 * e.height + 1 ≤ d → Ends 0 rest →
      Reads (assign σ d) (print e 0) e rest) : RoundTrip σ e := by
  have htight : ∀ d k rest, 3 * e.height + 2 ≤ d → 1 ≤ k → k ≤ 7 → Ends k rest →
      Reads (tight (unary σ d) k) (print e k) e rest := by
    intro d k rest hd hk hk' hr
    rw [hg k hk]
    exact reads_grouped hp h hd hk hk' hr
  refine ⟨h, htight, ?_⟩
  intro d k rest hd hk hk' hr ts hw
  rw [hg k hk, ← hg (k + 1) (by omega)] at hw
  exact ⟨e, rest, htight d (k + 1) rest hd (by omega) (by omega) hr ts hw, .refl⟩

/-- An expression that binds as one of the operators does: it stands in parentheses where something
tighter is wanted, and otherwise a loop over the operators of its level reads it. -/
theorem roundTrip_of_rank {q : Nat} (h₁ : 1 ≤ q) (h₂ : q ≤ 6) (hp : e.Every (printable σ))
    (hloose : ∀ k ≤ q, print e k = print e 0)
    (hgroup : ∀ k > q, print e k = sign .lparen :: (print e 0 ++ [sign .rparen]))
    (hspine : ∀ d rest, 3 * e.height ≤ d → Ends (q + 1) rest → ∀ ts, Written (print e 0) ts →
      ∃ x mid, Gives (tight (unary σ d) (q + 1) (ts ++ rest)) x mid ∧
        Steps (binaryRound (levelAt q) (tight (unary σ d) (q + 1))) x mid e rest) :
    RoundTrip σ e := by
  have hbody : ∀ d k rest, 3 * e.height ≤ d → 1 ≤ k → k ≤ q → Ends k rest →
      Reads (tight (unary σ d) k) (print e 0) e rest := by
    intro d k rest hd hk hkq hr
    have hq : Reads (tight (unary σ d) q) (print e 0) e rest := by
      intro ts hw
      obtain ⟨x, mid, hx, hs⟩ := hspine d rest hd (hr.mono (by omega)) ts hw
      have hnone : binaryRound (levelAt q) (tight (unary σ d) (q + 1)) e rest = none :=
        (binaryRound_eq_none rfl).2 (hr.mono hkq).levelAt_eq_none
      exact (gives_tight h₁ h₂).2 ⟨x, mid, hx, hs.rounds (.stop hnone)⟩
    exact hq.loosen (by omega) hk hkq hr
  have hassign : ∀ d rest, 3 * e.height + 1 ≤ d → Ends 0 rest →
      Reads (assign σ d) (print e 0) e rest := by
    intro d rest hd hr
    obtain ⟨d, rfl⟩ : ∃ d', d = d' + 1 := ⟨d - 1, by omega⟩
    exact (hbody d 1 rest (by omega) (by decide) h₁ (hr.mono (by decide))).assign hr
  have htight : ∀ d k rest, 3 * e.height + 2 ≤ d → 1 ≤ k → k ≤ 7 → Ends k rest →
      Reads (tight (unary σ d) k) (print e k) e rest := by
    intro d k rest hd hk hk' hr
    by_cases hkq : k ≤ q
    · rw [hloose k hkq]
      exact hbody d k rest (by omega) hk hkq hr
    · rw [hgroup k (by omega)]
      exact reads_grouped hp hassign hd hk hk' hr
  refine ⟨hassign, htight, ?_⟩
  intro d k rest hd hk hk' hr ts hw
  -- only the loop at the level of the expression itself can have read it in part
  rcases Nat.lt_trichotomy k q with hlt | rfl | hgt
  · rw [hloose k (by omega), ← hloose (k + 1) hlt] at hw
    exact ⟨e, rest, htight d (k + 1) rest hd (by omega) (by omega) hr ts hw, .refl⟩
  · rw [hloose k (Nat.le_refl _)] at hw
    exact hspine d rest (by omega) hr ts hw
  · rw [hgroup k hgt, ← hgroup (k + 1) (by omega)] at hw
    exact ⟨e, rest, htight d (k + 1) rest hd (by omega) (by omega) hr ts hw, .refl⟩

/-! ### Operators -/

section Binary

variable {op : BinOp} {left right : Expr}

/-- The loop over the operators of a level goes through the left operand, which it may have read
only in part, and then takes the operator and the right operand. -/
theorem spine_binary (hl : RoundTrip σ left) (hr : RoundTrip σ right) {d : Nat}
    (hd : 3 * (Expr.binary op left right).height ≤ d) (hrest : Ends (rank op + 1) rest)
    (hw : Written (print left (rank op) ++ sign (opKind op) :: print right (rank op + 1)) ts) :
    ∃ x mid, Gives (tight (unary σ d) (rank op + 1) (ts ++ rest)) x mid ∧
      Steps (binaryRound (levelAt (rank op)) (tight (unary σ d) (rank op + 1))) x mid
        (.binary op left right) rest := by
  have h₁ := rank_pos op
  have h₂ := rank_le op
  simp only [Expr.height] at hd
  obtain ⟨ls, rs, rfl, hlw, hrs⟩ := written_append.1 hw
  obtain ⟨t, rs, rfl, ht, hrw⟩ := written_cons.1 hrs
  rw [List.append_assoc, List.cons_append]
  have hkind : t.kind = opKind op := kind_sign ht
  have hends : Ends (rank op + 1) (t :: (rs ++ rest)) :=
    ends_cons (by rw [hkind, strength_of_binaryOp (binaryOp?_opKind op)]) (Nat.le_refl _)
  obtain ⟨x, mid, hx, hs⟩ := hl.spine d (rank op) _ (by omega) h₁ h₂ hends ls hlw
  have hright := hr.tight d (rank op + 1) rest (by omega) (by omega) (by omega) hrest rs hrw
  have hlevel : levelAt (rank op) t.kind = some op := by
    rw [hkind]
    exact levelAt_eq_some.2 ⟨binaryOp?_opKind op, rfl⟩
  exact ⟨x, mid, hx, hs.tail (step_binaryRound.2 ⟨t, _, op, right, rfl, hlevel, hright, rfl⟩)⟩

theorem roundTrip_binary (hp : (Expr.binary op left right).Every (printable σ))
    (hl : RoundTrip σ left) (hr : RoundTrip σ right) : RoundTrip σ (.binary op left right) := by
  have hloose : ∀ k ≤ rank op, print (.binary op left right) k =
      print left (rank op) ++ sign (opKind op) :: print right (rank op + 1) := by
    intro k hk
    simp [print, grouped, Nat.not_lt.2 hk]
  have hzero := hloose 0 (Nat.zero_le _)
  refine roundTrip_of_rank (rank_pos op) (rank_le op) hp ?_ ?_ ?_
  · intro k hk
    rw [hloose k hk, hzero]
  · intro k hk
    rw [hzero]
    simp [print, grouped, hk]
  · intro d rest hd hrest ts hw
    rw [hzero] at hw
    exact spine_binary hl hr hd hrest hw

end Binary

theorem roundTrip_assign {target value : Expr} (hp : (Expr.assign target value).Every (printable σ))
    (ht : RoundTrip σ target) (hv : RoundTrip σ value) : RoundTrip σ (.assign target value) := by
  have ha : target.assignable := hp.here
  have hc : compact target := by
    cases target with
    | ident | varRef | deref | index => rfl
    | _ => cases ha
  refine roundTrip_of_loose hp (fun k hk => ?_) fun d rest hd hr ts hw => ?_
  · simp [print, grouped, show 0 < k by omega]
  · simp only [Expr.height] at hd
    obtain ⟨d, rfl⟩ : ∃ d', d = d' + 1 := ⟨d - 1, by omega⟩
    rw [print, grouped, if_neg (by decide), print_of_compact hc, ← print_of_compact hc 1] at hw
    obtain ⟨ts, vs, rfl, htw, hvs⟩ := written_append.1 hw
    obtain ⟨t, vs, rfl, hteq, hvw⟩ := written_cons.1 hvs
    rw [List.append_assoc, List.cons_append]
    have hkind : t.kind = .assign := kind_sign hteq
    have hends : Ends 1 (t :: (vs ++ rest)) := ends_cons (by rw [hkind]; rfl) (Nat.le_refl 1)
    have hleft := ht.tight d 1 _ (by omega) (by decide) (by decide) hends ts htw
    have hvalue := hv.assign d rest (by omega) hr vs hvw
    have hop : assignOp? t.kind = some none := by rw [hkind]; rfl
    exact gives_assign_succ.2 (.assign hleft hop ha hvalue)

/-! ### Operands -/

theorem primary_name {n : String} (hn : IsName n ∨ n = "nullptr") {t : Token}
    (ht : Token.lexeme t = .word n) (rest : List Token) :
    ∃ x, PrimaryRule σ (t :: rest) x rest ∧ x.name? = some n := by
  have hkind : t.kind = Token.Kind.ofWord n := congrArg Lexeme.kind ht
  have hlex : t.lex = n := congrArg Lexeme.lex ht
  rcases hn with hn | rfl
  · refine ⟨_, .name (by rw [hkind, hn.2]), ?_⟩
    rw [hlex]
    unfold Scopes.ref
    split <;> rfl
  · exact ⟨_, .null (by rw [hkind]; rfl), rfl⟩

/-- A name is read as what the scopes say of it. -/
theorem primary_ref {n : String} (hp : e.Every (printable σ)) (he : e.name? = some n) {t : Token}
    (ht : Token.lexeme t = .word n) (rest : List Token) : PrimaryRule σ (t :: rest) e rest := by
  have hkind : t.kind = Token.Kind.ofWord n := congrArg Lexeme.kind ht
  have hlex : t.lex = n := congrArg Lexeme.lex ht
  cases e with
  | ident m =>
    cases he
    rcases hp with ⟨hn, hσ⟩ | rfl
    · have href : σ.ref t.lex = .ident n := by simp [Scopes.ref, hlex, hσ]
      exact href ▸ .name (by rw [hkind, hn.2])
    · exact .null (by rw [hkind]; rfl)
  | varRef m =>
    cases he
    have href : σ.ref t.lex = .varRef n := by simp [Scopes.ref, hlex, hp.2]
    exact href ▸ .name (by rw [hkind, hp.1.2])
  | _ => cases he

theorem roundTrip_ref {n : String} (hp : e.Every (printable σ)) (he : e.name? = some n) :
    RoundTrip σ e := by
  have hshape : compact e ∧ 0 < e.height ∧ print e 0 = [.word n] := by
    cases e with
    | ident | varRef =>
      cases he
      exact ⟨rfl, Nat.one_pos, rfl⟩
    | _ => cases he
  obtain ⟨hc, hh, hprint⟩ := hshape
  refine roundTrip_of_compact hc hh fun d rest hd hr ts hw => ?_
  rw [hprint] at hw
  obtain ⟨t, rfl, ht⟩ := written_singleton.1 hw
  exact gives_unary_succ.2 (.operand (primary_ref hp he ht rest) (.stop hr.postfixRound_eq_none))

theorem reads_number {n d : Nat} (hn : n ≤ Numeral.maxInt64) (hr : Ends k rest) :
    Reads (unary σ (d + 1)) [.number n] (.intLit n) rest := by
  intro ts hw
  obtain ⟨t, rfl, ht⟩ := written_singleton.1 hw
  have hkind : t.kind = .int := congrArg Lexeme.kind ht
  have hlex : t.lex = n.repr := congrArg Lexeme.lex ht
  have hv : literal? t = some (n : Int) := by
    simp only [literal?, hkind, hlex, Numeral.integer?_repr hn]
  exact gives_unary_succ.2 (.operand (.number hv) (.stop hr.postfixRound_eq_none))

theorem roundTrip_intLit {v : Int} (hp : (Expr.intLit v).Every (printable σ)) :
    RoundTrip σ (.intLit v) := by
  refine roundTrip_of_compact rfl (Nat.succ_pos _) fun d rest hd hr ts hw => ?_
  simp only [Expr.height] at hd
  obtain ⟨d, rfl⟩ : ∃ d', d = d' + 1 := ⟨d - 1, by omega⟩
  have hn : v.natAbs ≤ Numeral.maxInt64 := hp
  rw [print] at hw
  split at hw
  next hneg =>
    obtain ⟨t, ts, rfl, ht, hw⟩ := written_cons.1 hw
    have hx := reads_number (σ := σ) (d := d) hn hr ts hw
    have hv : negate (.intLit v.natAbs) = .intLit v := by
      simp only [negate, Expr.intLit.injEq]
      omega
    rw [← hv]
    exact gives_unary_succ.2 (.signed (by rw [kind_sign ht]; rfl) hx)
  next hpos =>
    have hv : (v.natAbs : Int) = v := by omega
    have hx := reads_number (σ := σ) (d := d + 1) hn hr ts hw
    rwa [hv] at hx

theorem Ends.kind_ne (h : Ends k rest) (kind : Token.Kind) (hk : strength? kind = none) :
    peek rest ≠ kind := by
  obtain ⟨s, hs, -⟩ := h
  rintro rfl
  rw [hk] at hs
  cases hs

theorem roundTrip_stringLit (s : String) : RoundTrip σ (.stringLit s) := by
  refine roundTrip_of_compact rfl (Nat.succ_pos _) fun d rest hd hr ts hw => ?_
  obtain ⟨t, rfl, ht⟩ := written_singleton.1 hw
  have hkind : t.kind = .string := congrArg Lexeme.kind ht
  have hlex : t.lex = s := congrArg Lexeme.lex ht
  have habsorb : absorb stringPart t.lex rest = (s, rest) := by
    rw [hlex]
    refine absorb_of_none fun u us hu => ?_
    have hne : u.kind ≠ .string := by
      have := hr.kind_ne .string rfl
      rwa [hu, peek_cons] at this
    simp [stringPart, hne]
  have hprim : PrimaryRule σ (t :: rest) _ _ := .string hkind
  rw [habsorb] at hprim
  exact gives_unary_succ.2 (.operand hprim (.stop hr.postfixRound_eq_none))

theorem roundTrip_addr {n : String} (hp : (Expr.addr n).Every (printable σ)) :
    RoundTrip σ (.addr n) := by
  refine roundTrip_of_compact rfl (Nat.succ_pos _) fun d rest hd hr ts hw => ?_
  simp only [Expr.height] at hd
  obtain ⟨d, rfl⟩ : ∃ d', d = d' + 1 := ⟨d - 1, by omega⟩
  rw [print] at hw
  obtain ⟨t, ts, rfl, ht, hts⟩ := written_cons.1 hw
  obtain ⟨u, rfl, hu⟩ := written_singleton.1 hts
  obtain ⟨x, hx, hname⟩ := primary_name (σ := σ) hp hu rest
  have haddr : addressOf x = .addr n := by rw [addressOf, hname]
  rw [← haddr]
  refine gives_unary_succ.2 (.signed (by rw [kind_sign ht]; rfl) ?_)
  exact gives_unary_succ.2 (.operand hx (.stop hr.postfixRound_eq_none))

theorem roundTrip_deref {x : Expr} (hx : RoundTrip σ x) : RoundTrip σ (.deref x) := by
  refine roundTrip_of_compact rfl (Nat.succ_pos _) fun d rest hd hr ts hw => ?_
  simp only [Expr.height] at hd
  rw [print] at hw
  obtain ⟨t, ts, rfl, ht, hw⟩ := written_cons.1 hw
  have hread := hx.tight d 7 rest (by omega) (by decide) (by decide) hr ts hw
  exact gives_unary_succ.2 (.signed (by rw [kind_sign ht]; rfl) hread)

theorem roundTrip_index {n : String} {i : Expr} (hp : (Expr.index n i).Every (printable σ))
    (hi : RoundTrip σ i) : RoundTrip σ (.index n i) := by
  refine roundTrip_of_compact rfl (Nat.succ_pos _) fun d rest hd hr ts hw => ?_
  simp only [Expr.height] at hd
  rw [print] at hw
  obtain ⟨t, ts, rfl, ht, hts⟩ := written_cons.1 hw
  obtain ⟨o, ts, rfl, ho, hts⟩ := written_cons.1 hts
  obtain ⟨ts, cs, rfl, hiw, hcs⟩ := written_append.1 hts
  obtain ⟨c, rfl, hc⟩ := written_singleton.1 hcs
  rw [List.cons_append, List.cons_append, List.append_assoc, List.singleton_append]
  have hck : c.kind = .rbrack := kind_sign hc
  have hends : Ends 0 (c :: rest) := ends_cons (by rw [hck]; rfl) (Nat.le_refl 0)
  have hindex := (hi.assign d (c :: rest) (by omega) hends).expression
    (by rw [peek_cons, hck]; decide) ts hiw
  obtain ⟨x, hx, hname⟩ := primary_name (σ := σ) hp.here ht (o :: (ts ++ c :: rest))
  refine gives_unary_succ.2 (.operand hx (.next ?_ (.stop hr.postfixRound_eq_none)))
  exact step_postfixRound.2 (.index (kind_sign ho) hname hindex hck)

/-! ### Calls -/

/-- The items of a list, one round after the other. -/
theorem rounds_items {d : Nat} {es : List Expr} {c : Token} (hc : c.kind = .rparen)
    (hp : ∀ a ∈ e :: es, a.Every (printable σ))
    (h : ∀ a ∈ e :: es, ∀ rest, Ends 0 rest → Reads (assign σ d) (print a 0) a rest)
    (hw : Written (print e 0 ++ printMore es) ts) (done : List Expr) :
    Rounds (itemRound .rparen (assign σ d)) done (ts ++ c :: rest) (es.reverse ++ e :: done)
      (c :: rest) := by
  induction es generalizing e ts done with
  | nil =>
    rw [printMore, List.append_nil] at hw
    have hends : Ends 0 (c :: rest) := ends_cons (by rw [hc]; rfl) (Nat.le_refl 0)
    have hread := h e (by simp) (c :: rest) hends ts hw
    have hstart := peek_written (startsWith_print (hp e (by simp)) 0) hw (c :: rest)
    refine .next (step_itemRound.2 ⟨peek_ne_of_starts hstart rfl (by decide), ?_⟩) (.stop ?_)
    · exact .last hread (by rw [peek_cons, hc]) (by decide)
    · exact itemRound_eq_none.2 (by rw [peek_cons, hc])
  | cons e' es ih =>
    rw [printMore] at hw
    obtain ⟨ts, ms, rfl, hew, hms⟩ := written_append.1 hw
    obtain ⟨m, ms, rfl, hm, hmw⟩ := written_cons.1 hms
    rw [List.append_assoc, List.cons_append]
    have hmk : m.kind = .comma := kind_sign hm
    have hends : Ends 0 (m :: (ms ++ c :: rest)) := ends_cons (by rw [hmk]; rfl) (Nat.le_refl 0)
    have hread := h e (by simp) _ hends ts hew
    have hstart := peek_written (startsWith_print (hp e (by simp)) 0) hew (m :: (ms ++ c :: rest))
    refine .next (step_itemRound.2 ⟨peek_ne_of_starts hstart rfl (by decide), .comma hread hmk⟩) ?_
    have htail := ih (fun a ha => hp a (by simp [ha])) (fun a ha => h a (by simp [ha])) hmw
      (e :: done)
    simpa using htail

theorem listed_print {d : Nat} {args : List Expr} {c : Token} (hc : c.kind = .rparen)
    (hp : ∀ a ∈ args, a.Every (printable σ))
    (h : ∀ a ∈ args, ∀ rest, Ends 0 rest → Reads (assign σ d) (print a 0) a rest)
    (hw : Written (printList args) ts) :
    Listed .rparen (assign σ d) (ts ++ c :: rest) args rest := by
  cases args with
  | nil =>
    obtain rfl : ts = [] := List.map_eq_nil_iff.1 hw
    exact ⟨[], c, .stop (itemRound_eq_none.2 (by rw [List.nil_append, peek_cons, hc])), hc, rfl⟩
  | cons e es =>
    rw [printList] at hw
    exact ⟨_, c, rounds_items hc hp h hw [], hc, by simp⟩

/-- The arguments of a call in parentheses. -/
theorem listed_parens {d : Nat} {args : List Expr} (hp : ∀ a ∈ args, a.Every (printable σ))
    (h : ∀ a ∈ args, RoundTrip σ a) (hd : 3 * Expr.heightOf args + 1 ≤ d)
    (hw : Written (sign .lparen :: (printList args ++ [sign .rparen])) ts) :
    ∃ o ts', ts = o :: ts' ∧ o.kind = .lparen ∧
      Listed .rparen (assign σ d) (ts' ++ rest) args rest := by
  obtain ⟨o, ts, rfl, ho, hts⟩ := written_cons.1 hw
  obtain ⟨ts, cs, rfl, hargs, hcs⟩ := written_append.1 hts
  obtain ⟨c, rfl, hc⟩ := written_singleton.1 hcs
  refine ⟨o, _, rfl, kind_sign ho, ?_⟩
  rw [List.append_assoc, List.singleton_append]
  refine listed_print (kind_sign hc) hp (fun a ha rest hr => ?_) hargs
  have := Expr.heightOf_le_iff.1 (Nat.le_refl (Expr.heightOf args)) a ha
  exact (h a ha).assign d rest (by omega) hr

theorem gives_declType_int {t : Token} (ht : t.kind = .kwInt)
    (hs : (peek rest).startsType = false) (hstar : peek rest ≠ .star) :
    Gives (declType (t :: rest)) (.base .int) rest := by
  have hq : absorb qualifier () (t :: rest) = ((), t :: rest) := by
    refine absorb_of_none fun u us hu => ?_
    cases hu
    simp [qualifier, ht, Token.Kind.isQualifier]
  have hspec : absorb specifier .int rest = (.int, rest) := by
    refine absorb_of_none fun u us hu => ?_
    rw [hu, peek_cons] at hs
    simp [specifier, hs]
  have hstars : absorb star (.base .int) rest = (.base .int, rest) := by
    refine absorb_of_none fun u us hu => ?_
    rw [hu, peek_cons] at hs hstar
    revert hs hstar
    unfold star
    cases u.kind <;> simp [Token.Kind.startsType, Token.Kind.isType, Token.Kind.isQualifier]
  refine gives_declType.2 ⟨t, rest, .int, _, by rw [hq], by rw [ht]; rfl, rfl, ?_⟩
  rw [hspec, hstars]

/-- A call of a name. -/
theorem roundTrip_call {f : String} {args : List Expr} (hf : IsName f)
    (hp : ∀ a ∈ args, a.Every (printable σ)) (h : ∀ a ∈ args, RoundTrip σ a) :
    RoundTrip σ (.call f args) := by
  have hnew : f ≠ "new" := by rintro rfl; exact absurd hf.2 (by decide)
  have hdelete : f ≠ "delete" := by rintro rfl; exact absurd hf.2 (by decide)
  have hsizeof : f ≠ "sizeof" := by rintro rfl; exact absurd hf.2 (by decide)
  refine roundTrip_of_compact (by simp [compact, hnew]) (Nat.succ_pos _) fun d rest hd hr ts hw => ?_
  simp only [Expr.height] at hd
  rw [print, if_neg hnew, if_neg (by simp [hdelete, hsizeof])] at hw
  obtain ⟨t, ts, rfl, ht, hts⟩ := written_cons.1 hw
  obtain ⟨o, ts, rfl, ho, hl⟩ := listed_parens hp h (show _ ≤ d by omega) hts
  obtain ⟨x, hx, hname⟩ := primary_name (σ := σ) (.inl hf) ht (o :: (ts ++ rest))
  refine gives_unary_succ.2 (.operand hx (.next ?_ (.stop hr.postfixRound_eq_none)))
  exact step_postfixRound.2 (.call ho hname hl)

theorem roundTrip_new {args : List Expr} (hp : (Expr.call "new" args).Every (printable σ))
    (h : ∀ a ∈ args, RoundTrip σ a) : RoundTrip σ (.call "new" args) := by
  have hbody : print (.call "new" args) 0 = .word "new" :: .word "int" ::
      if args.isEmpty then [] else sign .lparen :: (printList args ++ [sign .rparen]) := by
    simp [print, grouped]
  refine roundTrip_of_loose hp (fun k hk => ?_) fun d rest hd hr => ?_
  · rw [hbody]
    simp [print, grouped, show 0 < k by omega]
  obtain ⟨d, rfl⟩ : ∃ d', d = d' + 2 := ⟨d - 2, by simp only [Expr.height] at hd; omega⟩
  have hunary : Reads (tight (unary σ (d + 1)) 7) (print (.call "new" args) 0)
      (.call "new" args) rest := by
    intro ts hw
    rw [hbody] at hw
    obtain ⟨t, ts, rfl, ht, hts⟩ := written_cons.1 hw
    obtain ⟨u, ts, rfl, hu, hargs⟩ := written_cons.1 hts
    have hnew : t.kind = .kwNew := congrArg Lexeme.kind ht
    have hint : u.kind = .kwInt := congrArg Lexeme.kind hu
    refine gives_unary_succ.2 (.new hnew ?_)
    split at hargs
    next hnil =>
      obtain rfl : args = [] := List.isEmpty_iff.1 hnil
      obtain rfl : ts = [] := List.map_eq_nil_iff.1 hargs
      have htype : (peek rest).startsType = false := by
        obtain ⟨s, hs, -⟩ := hr
        revert hs
        cases peek rest <;> simp [strength?, Token.Kind.startsType, Token.Kind.isType,
          Token.Kind.isQualifier]
      have hstar : peek rest ≠ .star := by
        obtain ⟨s, hs, hle⟩ := hr
        intro hk
        rw [hk, strength?, Option.some.injEq] at hs
        omega
      exact .bare (gives_declType_int hint htype hstar) (hr.kind_ne .lbrack rfl)
        (hr.kind_ne .lparen rfl)
    next =>
      obtain ⟨o, ts, rfl, ho, hl⟩ := listed_parens hp.args h
        (show _ ≤ d by simp only [Expr.height] at hd; omega) hargs
      have htype : (peek (o :: (ts ++ rest))).startsType = false := by
        rw [peek_cons, ho]
        rfl
      have hstar : peek (o :: (ts ++ rest)) ≠ .star := by
        rw [peek_cons, ho]
        decide
      exact .args (gives_declType_int hint htype hstar) ho hl
  exact (hunary.loosen (by decide) (by decide) (by decide) (hr.mono (by decide))).assign hr

theorem roundTrip_delete {x : Expr} (hp : x.Every (printable σ)) (hx : RoundTrip σ x) :
    RoundTrip σ (.call "delete" [x]) := by
  refine roundTrip_of_compact rfl (Nat.succ_pos _) fun d rest hd hr ts hw => ?_
  simp only [Expr.height, Expr.heightOf] at hd
  simp only [print, String.reduceEq, if_false, true_or, if_true, printOperand] at hw
  obtain ⟨t, ts, rfl, ht, hxw⟩ := written_cons.1 hw
  have hread := hx.tight d 7 rest (by omega) (by decide) (by decide) hr ts hxw
  have hstart := peek_written (startsWith_print hp 7) hxw rest
  refine gives_unary_succ.2 (.delete (congrArg Lexeme.kind ht) ?_)
  exact .plain (peek_ne_of_starts hstart rfl (by decide)) hread

theorem roundTrip_sizeof_type : RoundTrip σ (.call "sizeof" []) := by
  refine roundTrip_of_compact rfl (Nat.succ_pos _) fun d rest hd hr ts hw => ?_
  obtain ⟨t, ts, rfl, ht, hts⟩ := written_cons.1 hw
  obtain ⟨o, ts, rfl, ho, hts⟩ := written_cons.1 hts
  obtain ⟨u, ts, rfl, hu, hts⟩ := written_cons.1 hts
  obtain ⟨c, rfl, hc⟩ := written_singleton.1 hts
  have hint : u.kind = .kwInt := congrArg Lexeme.kind hu
  have hck : c.kind = .rparen := kind_sign hc
  have htype : Gives (declType (u :: c :: rest)) (.base .int) (c :: rest) :=
    gives_declType_int hint (by rw [peek_cons, hck]; rfl) (by rw [peek_cons, hck]; decide)
  refine gives_unary_succ.2 (.sizeof (congrArg Lexeme.kind ht) ?_)
  have hs : (peek (u :: c :: rest)).startsType := by
    rw [peek_cons, hint]
    rfl
  exact .type (kind_sign ho) hs htype hck

theorem roundTrip_sizeof {x : Expr} (hp : x.Every (printable σ)) (hx : RoundTrip σ x) :
    RoundTrip σ (.call "sizeof" [x]) := by
  refine roundTrip_of_compact rfl (Nat.succ_pos _) fun d rest hd hr ts hw => ?_
  simp only [Expr.height, Expr.heightOf] at hd
  simp only [print, String.reduceEq, if_false, or_true, if_true, printOperand] at hw
  obtain ⟨t, ts, rfl, ht, hxw⟩ := written_cons.1 hw
  rw [List.cons_append]
  refine gives_unary_succ.2 (.sizeof (congrArg Lexeme.kind ht) ?_)
  have hstart := peek_written (startsWith_print hp 7) hxw rest
  by_cases hc : compact x
  · have hread := hx.tight d 7 rest (by omega) (by decide) (by decide) hr ts hxw
    refine .operand ?_ hread
    rcases hstart with h | ⟨-, h⟩
    · intro hl
      rw [hl] at h
      cases h
    · rw [hc] at h
      cases h
  · -- the parenthesis could open a type as well
    rw [print_of_not_compact (by simpa using hc)] at hxw
    obtain ⟨o, ts, rfl, ho, hts⟩ := written_cons.1 hxw
    obtain ⟨ts, cs, rfl, hbody, hcs⟩ := written_append.1 hts
    obtain ⟨c, rfl, hc⟩ := written_singleton.1 hcs
    rw [List.cons_append, List.append_assoc, List.singleton_append]
    have hck : c.kind = .rparen := kind_sign hc
    have hread := (hx.assign d (c :: rest) (by omega) (ends_rparen hc)).expression
      (by rw [peek_cons, hck]; decide) ts hbody
    have hs := startsType_of_starts (peek_written (startsWith_print hp 0) hbody (c :: rest))
    exact .paren (kind_sign ho) hs hread hck

/-! ### All expressions -/

theorem roundTrip (hp : e.Every (printable σ)) : RoundTrip σ e := by
  induction e using Expr.induct with
  | absent | foreign | arrayDecl => exact hp.here.elim
  | ident n => exact roundTrip_ref hp rfl
  | varRef n => exact roundTrip_ref hp rfl
  | intLit v => exact roundTrip_intLit hp
  | stringLit s => exact roundTrip_stringLit s
  | addr n => exact roundTrip_addr hp
  | deref x ih => exact roundTrip_deref (ih hp.2)
  | binary op left right ihl ihr => exact roundTrip_binary hp (ihl hp.2.1) (ihr hp.2.2)
  | assign target value iht ihv => exact roundTrip_assign hp (iht hp.2.1) (ihv hp.2.2)
  | index n i ih => exact roundTrip_index hp (ih hp.2)
  | call f args ih =>
    have hargs : ∀ a ∈ args, RoundTrip σ a := fun a ha => ih a ha (hp.args a ha)
    rcases hp.here with rfl | ⟨rfl, hone⟩ | ⟨rfl, hone⟩ | hf
    · exact roundTrip_new hp hargs
    · obtain ⟨x, rfl⟩ := List.length_eq_one_iff.1 hone
      exact roundTrip_delete (hp.args x (by simp)) (hargs x (by simp))
    · match args, hone with
      | [], _ => exact roundTrip_sizeof_type
      | [x], _ => exact roundTrip_sizeof (hp.args x (by simp)) (hargs x (by simp))
    · exact roundTrip_call hf hp.args hargs

/-! ### The source of an expression -/

theorem written_source (hp : e.Every (printable σ)) :
    Written (print e 0 ++ [sign .semi]) (Token.scan (source e)).tokens := by
  refine Token.scan_spell (List.forall_mem_append.2 ⟨legible_print hp 0, ?_⟩)
  exact List.forall_mem_singleton.2 (legible_signOf (by decide))

theorem startsExpr_of_starts (h : starts (peek ts) = true ∨ peek ts = .lparen ∧ compact e = false) :
    startsExpr (peek ts) := by
  rcases h with h | ⟨h, -⟩
  · revert h
    cases peek ts <;> decide
  · rw [h]
    rfl

/-- The tokens of an expression and a semicolon are a statement. -/
theorem gives_stmt_written {n : Nat} (hp : e.Every (printable σ)) (hn : 3 * e.height + 2 ≤ n)
    (hw : Written (print e 0 ++ [sign .semi]) ts) : Gives (stmt n σ ts) (.expr e, σ) [] := by
  obtain ⟨n, rfl⟩ : ∃ m, n = m + 1 := ⟨n - 1, by omega⟩
  obtain ⟨ts, cs, rfl, hew, hcs⟩ := written_append.1 hw
  obtain ⟨c, rfl, hc⟩ := written_singleton.1 hcs
  have hck : c.kind = .semi := kind_sign hc
  have hends : Ends 0 [c] := ends_cons (by rw [hck]; rfl) (Nat.le_refl 0)
  have hread := ((roundTrip hp).assign n [c] (by omega) hends).expression
    (by rw [peek_cons, hck]; decide) ts hew
  have hstart := startsExpr_of_starts (peek_written (startsWith_print hp 0) hew [c])
  exact gives_stmt_succ.2 (.expr hstart hread hck)

/-- A text that is one statement is a file of one declaration. -/
theorem parse_of_gives_stmt {n : Nat} {text : List Char} {s : Stmt} {scopes : Scopes}
    (hs : (peek (Token.scan text).tokens).startsType = false)
    (h : Gives (stmt n .file (Token.scan text).tokens) (s, scopes) []) :
    parse n text = .ok [.stmt s] := by
  have hstep : Step (fileRound n) ([], .file) _ ([.stmt s], scopes) [] :=
    step_fileRound.2 ⟨_, _, .stmt hs h, rfl⟩
  exact parse_eq_ok.2 (file_eq_ok.2 ⟨_, _, .next hstep (.stop (fileRound_eq_none.2 rfl)), rfl⟩)

/-- The source of an expression is read as a statement that consists of that expression, whatever
the scopes say which of its names are pointers; at file scope it is a file of its own. -/
theorem expr_read_from_source {n : Nat} (hp : e.Every (printable σ)) (hn : 3 * e.height + 2 ≤ n) :
    Gives (stmt n σ (Token.scan (source e)).tokens) (.expr e, σ) [] ∧
      (σ = .file → parse n (source e) = .ok [.stmt (.expr e)]) := by
  have hw := written_source hp
  have hstmt := gives_stmt_written hp hn hw
  refine ⟨hstmt, ?_⟩
  rintro rfl
  obtain ⟨ts, cs, hts, hew, -⟩ := written_append.1 hw
  have hstart := peek_written (startsWith_print hp 0) hew cs
  rw [← hts] at hstart
  exact parse_of_gives_stmt (startsType_of_starts hstart) hstmt

theorem expr_read_from_source_at_chain :
    let σ := Scopes.file.declare "p" true
    let e : Expr := .assign (.deref (.varRef "p"))
      (.assign (.index "a" (.call "new" [.intLit (-1)]))
        (.binary .sub (.call "f" [.stringLit "\"", .ident "nullptr"])
          (.binary .sub (.ident "b") (.binary .mul (.binary .or (.addr "p") (.ident "b"))
            (.call "sizeof" [.call "delete" [.varRef "p"]])))))
    String.ofList (source e) = "* p = a [ new int ( - 1 ) ] = " ++
      "f ( \"\\\"\" , nullptr ) - ( b - ( & p || b ) * sizeof delete p ) ;" ∧
    e.Every (printable σ) ∧
    Gives (stmt 26 σ (Token.scan (source e)).tokens) (.expr e, σ) [] := by
  intro σ e
  have hnames : IsName "a" ∧ IsName "b" ∧ IsName "f" ∧ IsName "p" := by decide
  have hpointers : σ.isPointer "b" = false ∧ σ.isPointer "p" := ⟨rfl, rfl⟩
  have hp : e.Every (printable σ) := by
    simp [e, Expr.Every, Expr.EveryOf, printable, Expr.assignable, hnames, hpointers,
      Numeral.maxInt64]
  exact ⟨by rfl, hp, (expr_read_from_source hp (by decide)).1⟩

end MemLint.Grammar
