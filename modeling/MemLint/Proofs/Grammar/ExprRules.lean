import MemLint.Grammar.Expr
import MemLint.Proofs.Grammar.Gives

/-! The grammar of expressions as rules: for every production, what it takes to give a value. The
rules speak of the productions they are made of only through what these give. -/

namespace MemLint.Grammar

variable {assign unary operand item : Parser Expr} {ts rest : List Token} {e : Expr}

/-! ### Operators -/

theorem step_binaryRound {level : Level} {left : Expr} :
    Step (binaryRound level operand) left ts e rest ↔
      ∃ t mid op right, ts = t :: mid ∧ level t.kind = some op ∧ Gives (operand mid) right rest ∧
        e = .binary op left right := by
  constructor
  · rintro ⟨x, hx, hg⟩
    cases ts with
    | nil => cases hx
    | cons t mid =>
      simp only [binaryRound] at hx
      split at hx
      next op hop =>
        cases hx
        obtain ⟨right, hr, h⟩ := gives_bind.1 hg
        obtain ⟨rfl, rfl⟩ := gives_pure.1 h
        exact ⟨t, mid, op, right.val, rfl, hop, gives_andThen.1 hr, rfl⟩
      next => cases hx
  · rintro ⟨t, mid, op, right, rfl, hop, hr, rfl⟩
    refine ⟨_, by simp only [binaryRound, hop]; rfl, ?_⟩
    exact gives_bind_of (gives_andThen.2 hr) fun _ => gives_pure.2 ⟨rfl, rfl⟩

theorem binaryRound_eq_none {level : Level} {left : Expr} (hl : level .eof = none) :
    binaryRound level operand left ts = none ↔ level (peek ts) = none := by
  cases ts with
  | nil => simp [binaryRound, peek, hl]
  | cons t mid =>
    simp only [binaryRound, peek_cons]
    split <;> simp_all

theorem gives_binary_cons {level : Level} {tighter : List Level} :
    Gives (binary operand (level :: tighter) ts) e rest ↔
      ∃ left mid, Gives (binary operand tighter ts) left mid ∧
        Rounds (binaryRound level (binary operand tighter)) left mid e rest := by
  constructor
  · intro h
    obtain ⟨left, hl, h⟩ := gives_bind.1 h
    exact ⟨left.val, left.rest, hl, gives_parsed_chain.1 h⟩
  · rintro ⟨left, mid, hl, hr⟩
    exact gives_bind_of hl fun _ => gives_parsed_chain.2 hr

/-- An assignment expression: operands and operators, perhaps with an assignment after them. -/
inductive AssignRule (unary assign : Parser Expr) (ts : List Token) : Expr → List Token → Prop where
  | plain {e : Expr} {rest : List Token} (he : Gives (binary unary levels ts) e rest)
      (ho : assignOp? (peek rest) = none) : AssignRule unary assign ts e rest
  | assign {left v : Expr} {t : Token} {mid rest : List Token} {op? : Option BinOp}
      (hl : Gives (binary unary levels ts) left (t :: mid)) (ho : assignOp? t.kind = some op?)
      (ha : left.assignable) (hv : Gives (assign mid) v rest) :
      AssignRule unary assign ts (assignWith op? left v) rest

theorem gives_assignment :
    Gives (assignment unary assign ts) e rest ↔ AssignRule unary assign ts e rest := by
  constructor
  · intro h
    obtain ⟨left, hl, h⟩ := gives_bind.1 h
    split at h
    next ho =>
      obtain ⟨rfl, rfl⟩ := gives_pure.1 h
      exact .plain hl ho
    next op? ho =>
      split at h
      next ha =>
        obtain ⟨v, hv, h⟩ := gives_bind.1 h
        obtain ⟨rfl, rfl⟩ := gives_pure.1 h
        have hv := gives_andThen.1 hv
        cases hr : left.rest with
        | nil => rw [hr] at ho; cases ho
        | cons t mid =>
          rw [hr] at hl ho
          rw [rest_advance, hr] at hv
          exact .assign hl ho ha hv
      next => exact (not_gives_error h).elim
  · rintro (⟨he, ho⟩ | ⟨hl, ho, ha, hv⟩)
    · exact gives_bind_of he fun _ => by simp [ho]
    · refine gives_bind_of hl fun _ => ?_
      simp only [peek_cons, ho, ha, if_true]
      exact gives_bind_of (gives_andThen.2 hv) fun _ => gives_pure.2 ⟨rfl, rfl⟩

/-! ### Lists -/

theorem step_commaRound {a : Expr} :
    Step (commaRound assign) a ts e rest ↔
      ∃ t mid, ts = t :: mid ∧ t.kind = .comma ∧ Gives (assign mid) e rest := by
  constructor
  · rintro ⟨x, hx, hg⟩
    cases ts with
    | nil => cases hx
    | cons t mid =>
      simp only [commaRound] at hx
      split at hx
      next hk =>
        cases hx
        exact ⟨t, mid, rfl, hk, gives_andThen.1 hg⟩
      next => cases hx
  · rintro ⟨t, mid, rfl, hk, hg⟩
    exact ⟨_, by simp only [commaRound, hk, if_true]; rfl, gives_andThen.2 hg⟩

theorem commaRound_eq_none {a : Expr} : commaRound assign a ts = none ↔ peek ts ≠ .comma := by
  cases ts with
  | nil => simp [commaRound, peek]
  | cons t mid => simp [commaRound]

theorem gives_expression :
    Gives (expression assign ts) e rest ↔
      ∃ first mid, Gives (assign ts) first mid ∧ Rounds (commaRound assign) first mid e rest := by
  constructor
  · intro h
    obtain ⟨first, hf, h⟩ := gives_bind.1 h
    exact ⟨first.val, first.rest, hf, gives_parsed_chain.1 h⟩
  · rintro ⟨first, mid, hf, hr⟩
    exact gives_bind_of hf fun _ => gives_parsed_chain.2 hr

/-- One item of a list, and what stands after it. -/
inductive ItemRule (close : Token.Kind) (item : Parser Expr) (done : List Expr) (ts : List Token) :
    List Expr → List Token → Prop where
  | comma {x : Expr} {t : Token} {rest : List Token} (hx : Gives (item ts) x (t :: rest))
      (ht : t.kind = .comma) : ItemRule close item done ts (x :: done) rest
  | last {x : Expr} {rest : List Token} (hx : Gives (item ts) x rest) (ht : peek rest = close)
      (hc : close ≠ .comma) : ItemRule close item done ts (x :: done) rest

theorem step_itemRound {close : Token.Kind} {done done' : List Expr} :
    Step (itemRound close item) done ts done' rest ↔
      peek ts ≠ close ∧ ItemRule close item done ts done' rest := by
  constructor
  · rintro ⟨x, hx, hg⟩
    simp only [itemRound] at hx
    split at hx
    next => cases hx
    next hc =>
      cases hx
      refine ⟨hc, ?_⟩
      obtain ⟨x, hx, h⟩ := gives_bind.1 hg
      split at h
      next ht =>
        obtain ⟨rfl, rfl⟩ := gives_pure.1 h
        obtain ⟨t, mid, hr, ht⟩ := exists_of_peek ht (by decide)
        simp only [val_map, rest_map, val_advance, rest_advance, hr] at hx ⊢
        exact .comma hx ht
      next hn =>
        split at h
        next ht =>
          obtain ⟨rfl, rfl⟩ := gives_pure.1 h
          exact .last hx ht fun hc => hn (ht.trans hc)
        next => exact (not_gives_error h).elim
  · rintro ⟨hc, hr⟩
    refine ⟨_, by simp only [itemRound, hc, if_false]; rfl, ?_⟩
    cases hr with
    | comma hx ht => exact gives_bind_of hx fun _ => by simp [ht]
    | last hx ht hc => exact gives_bind_of hx fun _ => by simp [ht, hc]

theorem itemRound_eq_none {close : Token.Kind} {done : List Expr} :
    itemRound close item done ts = none ↔ peek ts = close := by
  simp [itemRound]

/-- Items in front of a closing token. -/
def Listed (close : Token.Kind) (item : Parser Expr) (ts : List Token) (xs : List Expr)
    (rest : List Token) : Prop :=
  ∃ done t, Rounds (itemRound close item) [] ts done (t :: rest) ∧ t.kind = close ∧
    xs = done.reverse

@[simp] theorem gives_items {α : Type} {src : List Token} {close : Token.Kind}
    {opened : Parsed α src} {xs : List Expr} :
    Gives (items close item opened) xs rest ↔ Listed close item opened.rest xs rest := by
  constructor
  · intro h
    obtain ⟨done, hd, h⟩ := gives_bind.1 h
    obtain ⟨closed, hc, h⟩ := gives_bind.1 h
    obtain ⟨rfl, rfl⟩ := gives_pure.1 h
    have hd := gives_parsed_chain.1 hd
    obtain ⟨hr, ht⟩ := gives_andThen_expect.1 hc
    rw [hr] at hd
    exact ⟨done.val, closed.val, hd, ht, rfl⟩
  · rintro ⟨done, t, hd, ht, rfl⟩
    refine gives_bind_of (gives_parsed_chain.2 hd) fun _ => ?_
    refine gives_bind_of (gives_andThen_expect.2 ⟨rfl, ht⟩) fun _ => ?_
    exact gives_pure.2 ⟨rfl, rfl⟩

/-- An initialiser of an array and how many elements it has. -/
inductive InitRule (assign : Parser Expr) : List Token → Nat → List Token → Prop where
  | string {t : Token} {rest : List Token} (ht : t.kind = .string) :
      InitRule assign (t :: rest) (t.lex.utf8ByteSize + 1) rest
  | braces {t : Token} {ts rest : List Token} {xs : List Expr} (ht : t.kind = .lbrace)
      (hxs : Listed .rbrace assign ts xs rest) : InitRule assign (t :: ts) xs.length rest

theorem gives_initList {n : Nat} :
    Gives (initList assign ts) n rest ↔ InitRule assign ts n rest := by
  constructor
  · intro h
    cases ts with
    | nil => exact (not_gives_error h).elim
    | cons t ts =>
      simp only [initList] at h
      split at h
      next ht =>
        obtain ⟨rfl, rfl⟩ := gives_ok.1 h
        exact .string ht
      next =>
        obtain ⟨opened, ho, h⟩ := gives_bind.1 h
        obtain ⟨xs, hx, h⟩ := gives_bind.1 h
        obtain ⟨rfl, rfl⟩ := gives_pure.1 h
        obtain ⟨hr, ht⟩ := gives_expect.1 ho
        obtain ⟨h₁, h₂⟩ := List.cons.inj hr
        have hxs := gives_items.1 hx
        rw [← h₂] at hxs
        exact .braces (h₁ ▸ ht) hxs
  · rintro (ht | ⟨ht, hxs⟩)
    · simp [initList, ht]
    · simp only [initList, ht]
      refine gives_bind_of (gives_expect.2 ⟨rfl, ht⟩) fun _ => ?_
      exact gives_bind_of (gives_items.2 hxs) fun _ => gives_pure.2 ⟨rfl, rfl⟩

/-! ### Operands -/

/-- The number that a token stands for on its own. -/
def literal? (t : Token) : Option Int :=
  match t.kind with
  | .int => Numeral.integer? t.lex
  | .float => Numeral.floating? t.lex
  | .char => some (charCode t.lex)
  | .kwTrue => some 1
  | .kwFalse => some 0
  | _ => none

inductive PrimaryRule (scopes : Scopes) : List Token → Expr → List Token → Prop where
  | name {t : Token} {rest : List Token} (ht : t.kind = .ident) :
      PrimaryRule scopes (t :: rest) (scopes.ref t.lex) rest
  | number {t : Token} {rest : List Token} {v : Int} (hv : literal? t = some v) :
      PrimaryRule scopes (t :: rest) (.intLit v) rest
  | string {t : Token} {ts : List Token} (ht : t.kind = .string) :
      PrimaryRule scopes (t :: ts) (.stringLit (absorb stringPart t.lex ts).1)
        (absorb stringPart t.lex ts).2
  | null {t : Token} {rest : List Token} (ht : t.kind = .kwNullptr) :
      PrimaryRule scopes (t :: rest) (.ident "nullptr") rest

theorem gives_primary {scopes : Scopes} :
    Gives (primary scopes ts) e rest ↔ PrimaryRule scopes ts e rest := by
  constructor
  · intro h
    cases ts with
    | nil => exact (not_gives_error h).elim
    | cons t ts =>
      simp only [primary] at h
      split at h
      next ht =>
        obtain ⟨rfl, rfl⟩ := gives_ok.1 h
        exact .name ht
      next ht =>
        split at h
        next v hv =>
          obtain ⟨rfl, rfl⟩ := gives_ok.1 h
          exact .number (by simp only [literal?, ht, hv])
        next => exact (not_gives_error h).elim
      next ht =>
        split at h
        next v hv =>
          obtain ⟨rfl, rfl⟩ := gives_ok.1 h
          exact .number (by simp only [literal?, ht, hv])
        next => exact (not_gives_error h).elim
      next ht =>
        obtain ⟨rfl, rfl⟩ := gives_ok.1 h
        exact .number (by simp only [literal?, ht])
      next ht =>
        obtain ⟨rfl, rfl⟩ := gives_ok.1 h
        exact .string ht
      next ht =>
        obtain ⟨rfl, rfl⟩ := gives_ok.1 h
        exact .number (by simp only [literal?, ht])
      next ht =>
        obtain ⟨rfl, rfl⟩ := gives_ok.1 h
        exact .number (by simp only [literal?, ht])
      next ht =>
        obtain ⟨rfl, rfl⟩ := gives_ok.1 h
        exact .null ht
      next => exact (not_gives_error h).elim
  · intro h
    cases h with
    | name ht => simp [primary, ht]
    | @number t rest v hv =>
      unfold literal? at hv
      split at hv <;> simp_all [primary]
    | string ht => simp [primary, ht, Parsed.absorb]
    | null ht => simp [primary, ht]

/-- The step of an increment or a decrement. -/
def stepOp? : Token.Kind → Option BinOp
  | .inc => some .add
  | .dec => some .sub
  | _ => none

/-- The step `x = x op 1`. -/
def stepped (op : BinOp) (x : Expr) : Expr := assignWith (some op) x (.intLit 1)

theorem gives_increment {src : List Token} {op : BinOp} {x : Parsed Expr src} :
    Gives (increment op x) e rest ↔
      x.val.assignable ∧ e = stepped op x.val ∧ x.rest = rest := by
  unfold increment
  split
  next ha => simp [ha, stepped, eq_comm]
  next ha => simp [ha]

/-- One thing after an operand: arguments, an index, or a step up or down. -/
inductive PostfixRule (assign : Parser Expr) (e : Expr) :
    List Token → Expr → List Token → Prop where
  | call {t : Token} {ts rest : List Token} {name : String} {args : List Expr}
      (ht : t.kind = .lparen) (hn : e.name? = some name)
      (hargs : Listed .rparen assign ts args rest) :
      PostfixRule assign e (t :: ts) (.call name args) rest
  | index {t c : Token} {ts rest : List Token} {name : String} {i : Expr}
      (ht : t.kind = .lbrack) (hn : e.name? = some name)
      (hi : Gives (expression assign ts) i (c :: rest)) (hc : c.kind = .rbrack) :
      PostfixRule assign e (t :: ts) (.index name i) rest
  | step {t : Token} {rest : List Token} {op : BinOp} (ht : stepOp? t.kind = some op)
      (ha : e.assignable) : PostfixRule assign e (t :: rest) (stepped op e) rest

theorem step_postfixRound {x : Expr} :
    Step (postfixRound assign) x ts e rest ↔ PostfixRule assign x ts e rest := by
  constructor
  · rintro ⟨y, hy, hg⟩
    cases ts with
    | nil => cases hy
    | cons t ts =>
      simp only [postfixRound] at hy
      split at hy
      next ht =>
        cases hy
        split at hg
        next => exact (not_gives_error hg).elim
        next name hn =>
          obtain ⟨args, ha, h⟩ := gives_bind.1 hg
          obtain ⟨rfl, rfl⟩ := gives_pure.1 h
          exact .call ht hn (gives_items.1 ha)
      next ht =>
        cases hy
        split at hg
        next => exact (not_gives_error hg).elim
        next name hn =>
          obtain ⟨i, hi, h⟩ := gives_bind.1 hg
          obtain ⟨closed, hc, h⟩ := gives_bind.1 h
          obtain ⟨rfl, rfl⟩ := gives_pure.1 h
          obtain ⟨hr, hc⟩ := gives_andThen_expect.1 hc
          have hi := gives_andThen.1 hi
          rw [hr] at hi
          exact .index ht hn hi hc
      next ht =>
        cases hy
        obtain ⟨ha, rfl, rfl⟩ := gives_increment.1 hg
        exact .step (by simp only [stepOp?, ht]) ha
      next ht =>
        cases hy
        obtain ⟨ha, rfl, rfl⟩ := gives_increment.1 hg
        exact .step (by simp only [stepOp?, ht]) ha
      all_goals cases hy
      all_goals exact (not_gives_error hg).elim
  · intro h
    cases h with
    | call ht hn hargs =>
      refine ⟨_, by simp only [postfixRound, ht, hn]; rfl, ?_⟩
      exact gives_bind_of (gives_items.2 hargs) fun _ => gives_pure.2 ⟨rfl, rfl⟩
    | index ht hn hi hc =>
      refine ⟨_, by simp only [postfixRound, ht, hn]; rfl, ?_⟩
      refine gives_bind_of (gives_andThen.2 hi) fun _ => ?_
      refine gives_bind_of (gives_andThen_expect.2 ⟨rfl, hc⟩) fun _ => ?_
      exact gives_pure.2 ⟨rfl, rfl⟩
    | @step t rest op ht ha =>
      unfold stepOp? at ht
      split at ht
      next hk =>
        cases ht
        exact ⟨_, by simp only [postfixRound, hk]; rfl, gives_increment.2 ⟨ha, rfl, rfl⟩⟩
      next hk =>
        cases ht
        exact ⟨_, by simp only [postfixRound, hk]; rfl, gives_increment.2 ⟨ha, rfl, rfl⟩⟩
      next => cases ht

theorem postfixRound_eq_none {x : Expr} :
    postfixRound assign x ts = none ↔
      peek ts ∉ [.lparen, .lbrack, .inc, .dec, .dot, .arrow, .scope] := by
  cases ts with
  | nil => simp [postfixRound, peek]
  | cons t mid =>
    simp only [postfixRound, peek_cons]
    split <;> simp_all

/-! ### Unary expressions -/

/-- What the sign in front of a unary expression does to it. -/
def prefixOp? : Token.Kind → Option (Expr → Expr)
  | .star => some .deref
  | .amp => some addressOf
  | .minus => some negate
  | .plus => some id
  | .bang => some invert
  | .tilde => some complement
  | _ => none

/-- What follows `new`. -/
inductive NewRule (assign : Parser Expr) (ts : List Token) : Expr → List Token → Prop where
  | bare {type : DeclType} {rest : List Token} (ht : Gives (declType ts) type rest)
      (hb : peek rest ≠ .lbrack) (hp : peek rest ≠ .lparen) :
      NewRule assign ts (.call "new" []) rest
  | sized {type : DeclType} {b c : Token} {mid rest : List Token} {size : Expr}
      (ht : Gives (declType ts) type (b :: mid)) (hb : b.kind = .lbrack)
      (hs : Gives (expression assign mid) size (c :: rest)) (hc : c.kind = .rbrack)
      (hr : peek rest ≠ .lbrace) : NewRule assign ts (.call "new" [size]) rest
  | filled {type : DeclType} {b c : Token} {mid rest' rest : List Token} {size : Expr} {n : Nat}
      (ht : Gives (declType ts) type (b :: mid)) (hb : b.kind = .lbrack)
      (hs : Gives (expression assign mid) size (c :: rest')) (hc : c.kind = .rbrack)
      (hr : peek rest' = .lbrace) (hn : Gives (initList assign rest') n rest) :
      NewRule assign ts (.call "new" [size]) rest
  | args {type : DeclType} {b : Token} {mid rest : List Token} {args : List Expr}
      (ht : Gives (declType ts) type (b :: mid)) (hb : b.kind = .lparen)
      (hargs : Listed .rparen assign mid args rest) : NewRule assign ts (.call "new" args) rest

theorem gives_newCall {src : List Token} {here : Parsed Token src} :
    Gives (newCall assign here) e rest ↔ NewRule assign here.rest e rest := by
  constructor
  · intro h
    obtain ⟨type, ht, h⟩ := gives_bind.1 h
    have ht := gives_andThen.1 ht
    split at h
    next hb =>
      obtain ⟨b, mid, hm, hb⟩ := exists_of_peek hb (by decide)
      rw [hm] at ht
      obtain ⟨size, hs, h⟩ := gives_bind.1 h
      obtain ⟨closed, hc, h⟩ := gives_bind.1 h
      obtain ⟨hr, hc⟩ := gives_andThen_expect.1 hc
      have hs := gives_andThen.1 hs
      rw [rest_advance, hm, List.tail_cons, hr] at hs
      split at h
      next hl =>
        obtain ⟨n, hn, h⟩ := gives_bind.1 h
        obtain ⟨rfl, rfl⟩ := gives_pure.1 h
        exact .filled ht hb hs hc hl (gives_andThen.1 hn)
      next hl =>
        obtain ⟨rfl, rfl⟩ := gives_pure.1 h
        exact .sized ht hb hs hc hl
    next hb =>
      obtain ⟨b, mid, hm, hb⟩ := exists_of_peek hb (by decide)
      rw [hm] at ht
      obtain ⟨args, ha, h⟩ := gives_bind.1 h
      obtain ⟨rfl, rfl⟩ := gives_pure.1 h
      have ha := gives_items.1 ha
      rw [rest_advance, hm, List.tail_cons] at ha
      exact .args ht hb ha
    next hb hp =>
      obtain ⟨rfl, rfl⟩ := gives_pure.1 h
      exact .bare ht hb hp
  · intro h
    cases h with
    | bare ht hb hp =>
      refine gives_bind_of (gives_andThen.2 ht) fun _ => ?_
      split <;> simp_all
    | sized ht hb hs hc hr =>
      refine gives_bind_of (gives_andThen.2 ht) fun _ => ?_
      simp only [peek_cons, hb]
      refine gives_bind_of (gives_andThen.2 hs) fun _ => ?_
      refine gives_bind_of (gives_andThen_expect.2 ⟨rfl, hc⟩) fun _ => ?_
      simp [hr]
    | filled ht hb hs hc hr hn =>
      refine gives_bind_of (gives_andThen.2 ht) fun _ => ?_
      simp only [peek_cons, hb]
      refine gives_bind_of (gives_andThen.2 hs) fun _ => ?_
      refine gives_bind_of (gives_andThen_expect.2 ⟨rfl, hc⟩) fun _ => ?_
      simp only [hr, if_true]
      exact gives_bind_of (gives_andThen.2 hn) fun _ => gives_pure.2 ⟨rfl, rfl⟩
    | args ht hb hargs =>
      refine gives_bind_of (gives_andThen.2 ht) fun _ => ?_
      simp only [peek_cons, hb]
      exact gives_bind_of (gives_items.2 hargs) fun _ => gives_pure.2 ⟨rfl, rfl⟩

/-- What follows `delete`. -/
inductive DeleteRule (unary : Parser Expr) : List Token → Expr → List Token → Prop where
  | plain {ts rest : List Token} {x : Expr} (hb : peek ts ≠ .lbrack)
      (hx : Gives (unary ts) x rest) :
      DeleteRule unary ts (.call "delete" [x]) rest
  | array {b c : Token} {mid rest : List Token} {x : Expr} (hb : b.kind = .lbrack)
      (hc : c.kind = .rbrack) (hx : Gives (unary mid) x rest) :
      DeleteRule unary (b :: c :: mid) (.call "delete" [x]) rest

theorem gives_deleteCall {src : List Token} {here : Parsed Token src} :
    Gives (deleteCall unary here) e rest ↔ DeleteRule unary here.rest e rest := by
  unfold deleteCall
  constructor
  · intro h
    split at h
    next hb =>
      obtain ⟨b, mid, hm, hb⟩ := exists_of_peek hb (by decide)
      obtain ⟨opened, ho, h⟩ := gives_bind.1 h
      obtain ⟨x, hx, h⟩ := gives_bind.1 h
      obtain ⟨rfl, rfl⟩ := gives_pure.1 h
      obtain ⟨hr, hc⟩ := gives_andThen_expect.1 ho
      rw [rest_advance, hm, List.tail_cons] at hr
      rw [hm, hr]
      exact .array hb hc (gives_andThen.1 hx)
    next hb =>
      rw [ok_bind] at h
      obtain ⟨x, hx, h⟩ := gives_bind.1 h
      obtain ⟨rfl, rfl⟩ := gives_pure.1 h
      exact .plain hb (gives_andThen.1 hx)
  · intro h
    generalize hr : here.rest = ts at h
    cases h with
    | plain hb hx =>
      simp only [hb, if_false, ok_bind]
      exact gives_bind_of (gives_andThen.2 (hr ▸ hx)) fun _ => gives_pure.2 ⟨rfl, rfl⟩
    | @array b c mid _ x hb hc hx =>
      simp only [peek_cons, hb, if_true]
      have ho : here.advance.rest = c :: mid := by rw [rest_advance, hr, List.tail_cons]
      refine gives_bind_of (gives_andThen_expect.2 ⟨ho, hc⟩) fun _ => ?_
      exact gives_bind_of (gives_andThen.2 hx) fun _ => gives_pure.2 ⟨rfl, rfl⟩

/-- What follows `sizeof`. -/
inductive SizeofRule (assign unary : Parser Expr) : List Token → Expr → List Token → Prop where
  | type {t c : Token} {ts rest : List Token} {type : DeclType} (ht : t.kind = .lparen)
      (hs : (peek ts).startsType) (hd : Gives (declType ts) type (c :: rest))
      (hc : c.kind = .rparen) : SizeofRule assign unary (t :: ts) (.call "sizeof" []) rest
  | paren {t c : Token} {ts rest : List Token} {x : Expr} (ht : t.kind = .lparen)
      (hs : (peek ts).startsType = false) (hx : Gives (expression assign ts) x (c :: rest))
      (hc : c.kind = .rparen) : SizeofRule assign unary (t :: ts) (.call "sizeof" [x]) rest
  | operand {ts rest : List Token} {x : Expr} (hp : peek ts ≠ .lparen)
      (hx : Gives (unary ts) x rest) : SizeofRule assign unary ts (.call "sizeof" [x]) rest

theorem gives_sizeofCall {src : List Token} {here : Parsed Token src} :
    Gives (sizeofCall assign unary here) e rest ↔ SizeofRule assign unary here.rest e rest := by
  simp only [sizeofCall, pure_bind]
  constructor
  · intro h
    split at h
    next hp =>
      obtain ⟨t, mid, hm, ht⟩ := exists_of_peek hp (by decide)
      rw [hm]
      split at h
      next hs =>
        obtain ⟨type, hd, h⟩ := gives_bind.1 h
        obtain ⟨closed, hc, h⟩ := gives_bind.1 h
        obtain ⟨rfl, rfl⟩ := gives_pure.1 h
        have hd := gives_andThen.1 hd
        obtain ⟨hr, hc⟩ := gives_andThen_expect.1 hc
        rw [rest_set] at hr
        rw [rest_advance, hm, List.tail_cons, hr] at hd
        rw [rest_advance, hm, List.tail_cons] at hs
        exact .type ht hs hd hc
      next hs =>
        obtain ⟨x, hx, h⟩ := gives_bind.1 h
        obtain ⟨closed, hc, h⟩ := gives_bind.1 h
        obtain ⟨rfl, rfl⟩ := gives_pure.1 h
        have hx := gives_andThen.1 hx
        obtain ⟨hr, hc⟩ := gives_andThen_expect.1 hc
        rw [rest_map] at hr
        rw [rest_advance, hm, List.tail_cons, hr] at hx
        rw [rest_advance, hm, List.tail_cons, Bool.not_eq_true] at hs
        exact .paren ht hs hx hc
    next hp =>
      obtain ⟨x, hx, h⟩ := gives_bind.1 h
      obtain ⟨rfl, rfl⟩ := gives_pure.1 h
      exact .operand hp (gives_andThen.1 hx)
  · intro h
    generalize hr : here.rest = ts at h
    cases h with
    | type ht hs hd hc =>
      simp only [hr, peek_cons, ht, if_true, rest_advance, List.tail_cons, hs]
      refine gives_bind_of (gives_andThen.2 (by rw [rest_advance, hr]; exact hd)) fun _ => ?_
      refine gives_bind_of (gives_andThen_expect.2 ⟨rfl, hc⟩) fun _ => ?_
      exact gives_pure.2 ⟨rfl, rfl⟩
    | paren ht hs hx hc =>
      simp only [hr, peek_cons, ht, if_true, rest_advance, List.tail_cons, hs]
      refine gives_bind_of (gives_andThen.2 (by rw [rest_advance, hr]; exact hx)) fun _ => ?_
      refine gives_bind_of (gives_andThen_expect.2 ⟨rfl, hc⟩) fun _ => ?_
      exact gives_pure.2 ⟨rfl, rfl⟩
    | operand hp hx =>
      simp only [hp, if_false]
      exact gives_bind_of (gives_andThen.2 (hr ▸ hx)) fun _ => gives_pure.2 ⟨rfl, rfl⟩

/-- What follows an opening parenthesis. -/
inductive ParenRule (assign unary : Parser Expr) (ts : List Token) : Expr → List Token → Prop where
  | cast {c : Token} {mid rest : List Token} {type : DeclType} {e : Expr}
      (hs : (peek ts).startsType) (hd : Gives (declType ts) type (c :: mid))
      (hc : c.kind = .rparen) (he : Gives (unary mid) e rest) : ParenRule assign unary ts e rest
  | group {c : Token} {mid rest : List Token} {x e : Expr} (hs : (peek ts).startsType = false)
      (hx : Gives (expression assign ts) x (c :: mid)) (hc : c.kind = .rparen)
      (hr : Rounds (postfixRound assign) x mid e rest) : ParenRule assign unary ts e rest

theorem gives_parenthesized {src : List Token} {here : Parsed Token src} :
    Gives (parenthesized assign unary here) e rest ↔ ParenRule assign unary here.rest e rest := by
  unfold parenthesized
  constructor
  · intro h
    split at h
    next hs =>
      obtain ⟨type, hd, h⟩ := gives_bind.1 h
      obtain ⟨closed, hc, h⟩ := gives_bind.1 h
      have hd := gives_andThen.1 hd
      obtain ⟨hr, hc⟩ := gives_andThen_expect.1 hc
      rw [hr] at hd
      exact .cast hs hd hc (gives_andThen.1 h)
    next hs =>
      obtain ⟨x, hx, h⟩ := gives_bind.1 h
      obtain ⟨closed, hc, h⟩ := gives_bind.1 h
      have hx := gives_andThen.1 hx
      obtain ⟨hr, hc⟩ := gives_andThen_expect.1 hc
      rw [hr] at hx
      exact .group (Bool.not_eq_true _ ▸ hs) hx hc (gives_parsed_chain.1 h)
  · intro h
    cases h with
    | cast hs hd hc he =>
      simp only [hs, if_true]
      refine gives_bind_of (gives_andThen.2 hd) fun _ => ?_
      exact gives_bind_of (gives_andThen_expect.2 ⟨rfl, hc⟩) fun _ => gives_andThen.2 he
    | group hs hx hc hr =>
      simp only [hs]
      refine gives_bind_of (gives_andThen.2 hx) fun _ => ?_
      exact gives_bind_of (gives_andThen_expect.2 ⟨rfl, hc⟩) fun _ =>
        gives_parsed_chain.2 hr

/-- A unary expression. -/
inductive UnaryRule (scopes : Scopes) (assign unary : Parser Expr) :
    List Token → Expr → List Token → Prop where
  | signed {t : Token} {ts rest : List Token} {f : Expr → Expr} {x : Expr}
      (ht : prefixOp? t.kind = some f) (hx : Gives (unary ts) x rest) :
      UnaryRule scopes assign unary (t :: ts) (f x) rest
  | stepped {t : Token} {ts rest : List Token} {op : BinOp} {x : Expr}
      (ht : stepOp? t.kind = some op) (hx : Gives (unary ts) x rest) (ha : x.assignable) :
      UnaryRule scopes assign unary (t :: ts) (stepped op x) rest
  | new {t : Token} {ts rest : List Token} {e : Expr} (ht : t.kind = .kwNew)
      (h : NewRule assign ts e rest) : UnaryRule scopes assign unary (t :: ts) e rest
  | delete {t : Token} {ts rest : List Token} {e : Expr} (ht : t.kind = .kwDelete)
      (h : DeleteRule unary ts e rest) : UnaryRule scopes assign unary (t :: ts) e rest
  | sizeof {t : Token} {ts rest : List Token} {e : Expr} (ht : t.kind = .kwSizeof)
      (h : SizeofRule assign unary ts e rest) : UnaryRule scopes assign unary (t :: ts) e rest
  | paren {t : Token} {ts rest : List Token} {e : Expr} (ht : t.kind = .lparen)
      (h : ParenRule assign unary ts e rest) : UnaryRule scopes assign unary (t :: ts) e rest
  | operand {ts mid rest : List Token} {x e : Expr} (hx : PrimaryRule scopes ts x mid)
      (hr : Rounds (postfixRound assign) x mid e rest) : UnaryRule scopes assign unary ts e rest

/-- A sign changes the value of the unary expression after it. -/
private theorem gives_signed {t : Token} {ts rest : List Token} {f : Expr → Expr} {e : Expr} :
    Gives (do let x ← (Parsed.first t ts).andThen unary; return x.map f) e rest ↔
      ∃ x, Gives (unary ts) x rest ∧ f x = e := by
  constructor
  · intro h
    obtain ⟨x, hx, h⟩ := gives_bind.1 h
    obtain ⟨rfl, rfl⟩ := gives_pure.1 h
    exact ⟨x.val, gives_andThen.1 hx, rfl⟩
  · rintro ⟨x, hx, rfl⟩
    exact gives_bind_of (gives_andThen.2 hx) fun _ => gives_pure.2 ⟨rfl, rfl⟩

private theorem gives_stepped {t : Token} {ts rest : List Token} {op : BinOp} {e : Expr} :
    Gives (do let x ← (Parsed.first t ts).andThen unary; increment op x) e rest ↔
      ∃ x, Gives (unary ts) x rest ∧ x.assignable ∧ e = stepped op x := by
  constructor
  · intro h
    obtain ⟨x, hx, h⟩ := gives_bind.1 h
    obtain ⟨ha, rfl, rfl⟩ := gives_increment.1 h
    exact ⟨x.val, gives_andThen.1 hx, ha, rfl⟩
  · rintro ⟨x, hx, ha, rfl⟩
    exact gives_bind_of (gives_andThen.2 hx) fun _ => gives_increment.2 ⟨ha, rfl, rfl⟩

private theorem gives_operand {scopes : Scopes} {ts rest : List Token} {e : Expr} :
    Gives (do let x ← primary scopes ts; x.chain (postfixRound assign)) e rest ↔
      ∃ x mid, PrimaryRule scopes ts x mid ∧ Rounds (postfixRound assign) x mid e rest := by
  constructor
  · intro h
    obtain ⟨x, hx, h⟩ := gives_bind.1 h
    exact ⟨x.val, x.rest, gives_primary.1 hx, gives_parsed_chain.1 h⟩
  · rintro ⟨x, mid, hx, hr⟩
    exact gives_bind_of (gives_primary.2 hx) fun _ => gives_parsed_chain.2 hr

theorem gives_unaryForm {scopes : Scopes} :
    Gives (unaryForm scopes assign unary ts) e rest ↔ UnaryRule scopes assign unary ts e rest := by
  cases ts with
  | nil =>
    constructor
    · intro h
      exact (not_gives_error h).elim
    · intro h
      cases h with
      | operand hx _ => cases hx
  | cons t ts =>
    constructor
    · intro h
      simp only [unaryForm] at h
      split at h
      case h_7 ht | h_8 ht =>
        obtain ⟨x, hx, ha, rfl⟩ := gives_stepped.1 h
        exact .stepped (by rw [ht]; rfl) hx ha
      case h_9 ht => exact .new ht (gives_newCall.1 h)
      case h_10 ht => exact .delete ht (gives_deleteCall.1 h)
      case h_11 ht => exact .sizeof ht (gives_sizeofCall.1 h)
      case h_12 ht => exact .paren ht (gives_parenthesized.1 h)
      case h_4 ht => exact .signed (f := id) (by rw [ht]; rfl) (gives_andThen.1 h)
      case h_13 =>
        obtain ⟨x, mid, hx, hr⟩ := gives_operand.1 h
        exact .operand hx hr
      all_goals
        rename_i ht
        obtain ⟨x, hx, rfl⟩ := gives_signed.1 h
        exact .signed (by rw [ht]; rfl) hx
    · intro h
      cases h with
      | signed ht hx =>
        unfold prefixOp? at ht
        split at ht <;> cases ht <;> rename_i hk <;> simp only [unaryForm, hk]
        case h_4 => exact gives_andThen.2 hx
        all_goals exact gives_signed.2 ⟨_, hx, rfl⟩
      | stepped ht hx ha =>
        unfold stepOp? at ht
        split at ht <;> cases ht <;> rename_i hk <;> simp only [unaryForm, hk] <;>
          exact gives_stepped.2 ⟨_, hx, ha, rfl⟩
      | new ht h => simp only [unaryForm, ht]; exact gives_newCall.2 h
      | delete ht h => simp only [unaryForm, ht]; exact gives_deleteCall.2 h
      | sizeof ht h => simp only [unaryForm, ht]; exact gives_sizeofCall.2 h
      | paren ht h => simp only [unaryForm, ht]; exact gives_parenthesized.2 h
      | operand hx hr =>
        have hg := gives_operand.2 ⟨_, _, hx, hr⟩
        cases hx with
        | name ht | string ht | null ht => simp only [unaryForm, ht]; exact hg
        | number hv =>
          unfold literal? at hv
          split at hv
          case h_6 => cases hv
          all_goals
            rename_i ht
            simp only [unaryForm, ht]
            exact hg

/-! ### Levels of nesting -/

theorem gives_assign_succ {scopes : Scopes} {d : Nat} :
    Gives (Grammar.assign scopes (d + 1) ts) e rest ↔
      AssignRule (Grammar.unary scopes d) (Grammar.assign scopes d) ts e rest := by
  rw [Grammar.assign]
  exact gives_assignment

theorem gives_unary_succ {scopes : Scopes} {d : Nat} :
    Gives (Grammar.unary scopes (d + 1) ts) e rest ↔
      UnaryRule scopes (Grammar.assign scopes d) (Grammar.unary scopes d) ts e rest := by
  rw [Grammar.unary]
  exact gives_unaryForm

theorem not_gives_assign_zero {scopes : Scopes} : ¬ Gives (Grammar.assign scopes 0 ts) e rest := by
  rw [Grammar.assign]
  exact not_gives_error

theorem not_gives_unary_zero {scopes : Scopes} : ¬ Gives (Grammar.unary scopes 0 ts) e rest := by
  rw [Grammar.unary]
  exact not_gives_error

end MemLint.Grammar
