import MemLint.Grammar.File
import MemLint.Proofs.Grammar.Derivation

/-! The depth limit of the grammar. A production with fewer levels to go is refused as too deep, or
it ends exactly like one with more levels: same value, same tokens left, same fault. It never goes
back: what is left is the end of what it got. Two levels in a row take a token, so the limit is out
of reach for a text that has few tokens for it. All this is shown at once, production by
production. -/

namespace MemLint.Grammar

variable {α β : Type} {short short' : Prop} {src ts mid : List Token} {n m : Nat}

/-! ### Outcomes under a raised limit -/

/-- Two outcomes of what starts at `ts`, the second with more levels to go. The first is too deep,
for which it takes `short`, or both are refused alike for another cause, or both give the same and
have not gone back. -/
inductive Raised (short : Prop) (ts : List Token) :
    Except Fault (Parsed α src) → Except Fault (Parsed α src) → Prop where
  | deep {f : Fault} (h : short) (hf : f.cause = .tooDeep) (y : Except Fault (Parsed α src)) :
      Raised short ts (.error f) y
  | error {f : Fault} (hf : f.cause ≠ .tooDeep) : Raised short ts (.error f) (.error f)
  | ok {r : Parsed α src} (hr : r.rest <:+ ts) : Raised short ts (.ok r) (.ok r)

/-- On fewer than `n` tokens the production is only refused less with more levels. -/
def Raises (short : Prop) (n : Nat) (p q : Parser α) : Prop :=
  ∀ ts, ts.length < n → Raised short ts (p ts) (q ts)

/-- The same for a round of a loop. -/
def RaisesRound (short : Prop) (n : Nat) (round round' : Round α) : Prop :=
  ∀ a ts, ts.length < n → Option.Rel (Raised short ts) (round a ts) (round' a ts)

theorem suffix_advance {r : Parsed α src} (h : r.rest <:+ ts) : r.advance.rest <:+ ts :=
  (List.tail_suffix r.rest).trans h

theorem suffix_first (t : Token) (rest : List Token) : (Parsed.first t rest).rest <:+ t :: rest :=
  List.suffix_cons t rest

theorem suffix_absorb {step : α → Token → Option α} {r : Parsed α src} (h : r.rest <:+ ts) :
    (r.absorb step).rest <:+ ts := by
  obtain ⟨part, hpart, -⟩ := absorb_eq step r.val r.rest
  exact List.IsSuffix.trans ⟨part, hpart.symm⟩ h

namespace Raised

theorem mono {x y : Except Fault (Parsed α src)} (h : Raised short ts x y) (hs : short → short') :
    Raised short' ts x y := by
  cases h with
  | deep h hf y => exact .deep (hs h) hf y
  | error hf => exact .error hf
  | ok hr => exact .ok hr

/-- What starts later has not gone back either. -/
theorem later {x y : Except Fault (Parsed α src)} (h : Raised short mid x y) (hmid : mid <:+ ts) :
    Raised short ts x y := by
  cases h with
  | deep h hf y => exact .deep h hf y
  | error hf => exact .error hf
  | ok hr => exact .ok (hr.trans hmid)

theorem bind {src' : List Token} {x y : Except Fault (Parsed α src')}
    {f g : Parsed α src' → Except Fault (Parsed β src)} (h : Raised short ts x y)
    (hf : ∀ r, r.rest <:+ ts → Raised short ts (f r) (g r)) :
    Raised short ts (x >>= f) (y >>= g) := by
  cases h with
  | deep h hf y => exact .deep h hf _
  | error hf => exact .error hf
  | ok hr => exact hf _ hr

theorem map {x y : Except Fault (Parsed α src)} (h : Raised short ts x y) (f : α → β) :
    Raised short ts (do let r ← x; return r.map f) (do let r ← y; return r.map f) :=
  h.bind fun _ hr => .ok hr

theorem ite {c : Prop} [Decidable c] {x x' y y' : Except Fault (Parsed α src)}
    (hx : Raised short ts x x') (hy : Raised short ts y y') :
    Raised short ts (if c then x else y) (if c then x' else y') := by
  split
  · exact hx
  · exact hy

end Raised

theorem Raises.mono {p q : Parser α} (h : Raises short n p q) (hmn : m ≤ n) :
    Raises short m p q := fun ts hts => h ts (Nat.lt_of_lt_of_le hts hmn)

/-- A production that follows another has fewer tokens. -/
theorem Raises.andThen {p q : Parser β} (h : Raises short n p q) {r : Parsed α src}
    (hr : r.rest <:+ ts) (hsrc : src.length ≤ n) :
    Raised short ts (r.andThen p) (r.andThen q) :=
  ((h r.rest (Nat.lt_of_lt_of_le r.shorter hsrc)).later hr).bind fun _ hp => .ok hp

theorem raised_expect (want : Token.Kind) (ts : List Token) :
    Raised short ts (expect want ts) (expect want ts) := by
  cases ts with
  | nil => exact .error fun h => Cause.noConfusion h
  | cons t rest => exact .ite (.ok (suffix_first t rest)) (.error fun h => Cause.noConfusion h)

theorem raised_next {r : Parsed α src} (hr : r.rest <:+ ts) (want : Token.Kind) :
    Raised short ts (r.andThen (expect want)) (r.andThen (expect want)) :=
  ((raised_expect want r.rest).later hr).bind fun _ hp => .ok hp

theorem raised_chain {round round' : Round α} (hround : RaisesRound short n round round') (a : α)
    (mid : List Token) (h : mid.length < src.length) (hmid : mid.length < n) (hts : mid <:+ ts) :
    Raised short ts (chain round src a mid h) (chain round' src a mid h) := by
  -- on the number of tokens, since each round leaves fewer
  induction hk : mid.length using Nat.strongRecOn generalizing a mid with
  | ind k ih =>
    have hrel := hround a mid hmid
    rw [chain, chain]
    generalize round a mid = x at hrel ⊢
    generalize round' a mid = x' at hrel ⊢
    cases hrel with
    | none => exact .ok hts
    | some hx =>
      cases hx with
      | deep hs hf y => exact .deep hs hf _
      | error hf => exact .error hf
      | @ok r hr =>
        have hlt := Nat.lt_trans r.shorter hmid
        exact ih r.rest.length (hk ▸ r.shorter) r.val r.rest (Nat.lt_trans r.shorter h) hlt
          (hr.trans hts) rfl

theorem RaisesRound.chain {round round' : Round α} (h : RaisesRound short n round round')
    (r : Parsed α src) (hr : r.rest <:+ ts) (hsrc : src.length ≤ n) :
    Raised short ts (r.chain round) (r.chain round') :=
  raised_chain h r.val r.rest r.shorter (Nat.lt_of_lt_of_le r.shorter hsrc) hr

/-! ### Types -/

theorem raised_declType (ts : List Token) : Raised short ts (declType ts) (declType ts) := by
  cases h : declType ts with
  | error f =>
    refine .error fun hf => ?_
    simp only [declType] at h
    split at h
    · cases h
      cases hf
    · split at h
      · cases h
        cases hf
      · cases h
  | ok r =>
    obtain ⟨part, hpart, -⟩ := typeText_of_gives (gives_of_eq h)
    exact .ok ⟨part, hpart.symm⟩

theorem raised_type {r : Parsed α src} (hr : r.rest <:+ ts) :
    Raised short ts (r.andThen declType) (r.andThen declType) :=
  ((raised_declType r.rest).later hr).bind fun _ hp => .ok hp

/-! ### Expressions -/

section Expressions

variable {assign assign' unary unary' item item' operand operand' : Parser Expr}

theorem raised_increment (op : BinOp) {x : Parsed Expr src} (hx : x.rest <:+ ts) :
    Raised short ts (increment op x) (increment op x) :=
  .ite (.ok hx) (.error fun h => Cause.noConfusion h)

theorem Raises.binaryRound (h : Raises short n operand operand') (level : Level) :
    RaisesRound short n (binaryRound level operand) (binaryRound level operand') := by
  intro left ts hts
  cases ts with
  | nil => exact .none
  | cons t rest =>
    rw [Grammar.binaryRound, Grammar.binaryRound]
    cases level t.kind with
    | none => exact .none
    | some op => exact .some ((h.andThen (suffix_first t rest) (Nat.le_of_lt hts)).map _)

theorem Raises.binary (h : Raises short n operand operand') (ls : List Level) :
    Raises short n (binary operand ls) (binary operand' ls) := by
  induction ls with
  | nil => exact h
  | cons level tighter ih =>
    intro ts hts
    exact (ih ts hts).bind fun left hl => (ih.binaryRound level).chain left hl (Nat.le_of_lt hts)

/-- The operands start at the first token, what is assigned behind it. -/
theorem raised_assignment (hu : Raises short (ts.length + 1) unary unary')
    (ha : Raises short ts.length assign assign') :
    Raised short ts (assignment unary assign ts) (assignment unary' assign' ts) := by
  refine (hu.binary levels ts (Nat.lt_succ_self _)).bind fun left hl => ?_
  cases assignOp? (peek left.rest) with
  | none => exact .ok hl
  | some op? =>
    refine .ite ((ha.andThen (suffix_advance hl) (Nat.le_refl _)).map _) ?_
    exact .error fun h => Cause.noConfusion h

theorem Raises.commaRound (ha : Raises short n assign assign') :
    RaisesRound short n (commaRound assign) (commaRound assign') := by
  intro e ts hts
  cases ts with
  | nil => exact .none
  | cons t rest =>
    rw [Grammar.commaRound, Grammar.commaRound]
    split
    · exact .some (ha.andThen (suffix_first t rest) (Nat.le_of_lt hts))
    · exact .none

theorem Raises.expression (ha : Raises short n assign assign') :
    Raises short n (expression assign) (expression assign') := by
  intro ts hts
  exact (ha ts hts).bind fun e he => ha.commaRound.chain e he (Nat.le_of_lt hts)

theorem Raises.itemRound (hi : Raises short n item item') (close : Token.Kind) :
    RaisesRound short n (itemRound close item) (itemRound close item') := by
  intro done ts hts
  unfold Grammar.itemRound
  split
  · exact .none
  · refine .some ((hi ts hts).bind fun x hx => ?_)
    exact .ite (.ok (suffix_advance hx)) (.ite (.ok hx) (.error fun h => Cause.noConfusion h))

theorem Raises.items (hi : Raises short n item item') (close : Token.Kind) {opened : Parsed α src}
    (ho : opened.rest <:+ ts) (hsrc : src.length ≤ n) :
    Raised short ts (items close item opened) (items close item' opened) := by
  refine ((hi.itemRound close).chain (opened.set []) ho hsrc).bind fun done hd => ?_
  exact (raised_next hd close).bind fun _ hc => .ok hc

theorem Raises.initList (ha : Raises short n assign assign') :
    Raises short n (initList assign) (initList assign') := by
  intro ts hts
  cases ts with
  | nil => exact .error fun h => Cause.noConfusion h
  | cons t rest =>
    refine .ite (.ok (suffix_first t rest)) ((raised_expect .lbrace _).bind fun opened ho => ?_)
    exact (ha.items .rbrace ho (Nat.le_of_lt hts)).map _

theorem raised_primary (scopes : Scopes) (ts : List Token) :
    Raised short ts (primary scopes ts) (primary scopes ts) := by
  cases ts with
  | nil => exact .error fun h => Cause.noConfusion h
  | cons t rest =>
    have here := suffix_first t rest
    obtain ⟨k, lex, pos⟩ := t
    cases k with
    | ident | char | kwTrue | kwFalse | kwNullptr => exact .ok here
    | int =>
      unfold primary
      dsimp only
      cases Numeral.integer? lex with
      | none => exact .error fun h => Cause.noConfusion h
      | some v => exact .ok here
    | float =>
      unfold primary
      dsimp only
      cases Numeral.floating? lex with
      | none => exact .error fun h => Cause.noConfusion h
      | some v => exact .ok here
    | string => exact .ok (suffix_absorb (r := (Parsed.first _ rest).set lex) here)
    | _ => exact .error fun h => Cause.noConfusion h

theorem Raises.postfixRound (ha : Raises short n assign assign') :
    RaisesRound short n (postfixRound assign) (postfixRound assign') := by
  intro e ts hts
  cases ts with
  | nil => exact .none
  | cons t rest =>
    have here := suffix_first t rest
    have hsrc := Nat.le_of_lt hts
    obtain ⟨k, lex, pos⟩ := t
    cases k with
    | lparen =>
      apply Option.Rel.some
      cases e.name? with
      | none => exact .error fun h => Cause.noConfusion h
      | some name => exact (ha.items .rparen here hsrc).map _
    | lbrack =>
      apply Option.Rel.some
      cases e.name? with
      | none => exact .error fun h => Cause.noConfusion h
      | some name =>
        refine (ha.expression.andThen here hsrc).bind fun i hi => ?_
        exact (raised_next hi .rbrack).bind fun _ hc => .ok hc
    | inc | dec => exact .some (raised_increment _ here)
    | dot | arrow | scope => exact .some (.error fun h => Cause.noConfusion h)
    | _ => exact .none

section Words

variable {here : Parsed Token src} (h : here.rest <:+ ts) (hsrc : src.length ≤ n)

include h hsrc

theorem Raises.newCall (ha : Raises short n assign assign') :
    Raised short ts (newCall assign here) (newCall assign' here) := by
  refine (raised_type h).bind fun type ht => ?_
  dsimp only
  split
  · refine (ha.expression.andThen (suffix_advance ht) hsrc).bind fun size hs => ?_
    refine (raised_next hs .rbrack).bind fun closed hc => ?_
    exact .ite ((ha.initList.andThen hc hsrc).bind fun _ hi => .ok hi) (.ok hc)
  · exact (ha.items .rparen (suffix_advance ht) hsrc).map _
  · exact .ok ht

theorem Raises.deleteCall (hu : Raises short n unary unary') :
    Raised short ts (deleteCall unary here) (deleteCall unary' here) := by
  have hoperand (opened : Parsed Token src) (ho : opened.rest <:+ ts) :=
    (hu.andThen ho hsrc).map fun x => Expr.call "delete" [x]
  exact .ite ((raised_next (suffix_advance h) .rbrack).bind hoperand) (hoperand here h)

theorem Raises.sizeofCall (ha : Raises short n assign assign') (hu : Raises short n unary unary') :
    Raised short ts (sizeofCall assign unary here) (sizeofCall assign' unary' here) := by
  have hclose (args : Parsed (List Expr) src) (hargs : args.rest <:+ ts) :=
    (raised_next hargs .rparen : Raised short ts _ _).bind fun closed hc =>
      .ok (r := closed.set (Expr.call "sizeof" args.val)) hc
  refine .ite (.ite ?_ ?_) ((hu.andThen h hsrc).map _)
  · exact (raised_type (suffix_advance h)).bind fun type ht => hclose (type.set []) ht
  · refine (ha.expression.andThen (suffix_advance h) hsrc).bind fun x hx => ?_
    exact hclose (x.map fun x => [x]) hx

theorem Raises.parenthesized (ha : Raises short n assign assign')
    (hu : Raises short n unary unary') :
    Raised short ts (parenthesized assign unary here) (parenthesized assign' unary' here) := by
  apply Raised.ite
  · refine (raised_type h).bind fun type ht => ?_
    exact (raised_next ht .rparen).bind fun closed hc => hu.andThen hc hsrc
  · refine (ha.expression.andThen h hsrc).bind fun e he => ?_
    exact (raised_next he .rparen).bind fun closed hc =>
      ha.postfixRound.chain (closed.set e.val) hc hsrc

end Words

theorem raised_unaryForm (scopes : Scopes) (ha : Raises short ts.length assign assign')
    (hu : Raises short ts.length unary unary') :
    Raised short ts (unaryForm scopes assign unary ts) (unaryForm scopes assign' unary' ts) := by
  cases ts with
  | nil => exact raised_primary scopes []
  | cons t rest =>
    have here := suffix_first t rest
    have hsrc : (t :: rest).length ≤ (t :: rest).length := Nat.le_refl _
    have hoperand := hu.andThen here hsrc
    obtain ⟨k, lex, pos⟩ := t
    cases k with
    | star | amp | minus | bang | tilde => exact hoperand.map _
    | plus => exact hoperand
    | inc | dec => exact hoperand.bind fun x hx => raised_increment _ hx
    | kwNew => exact ha.newCall here hsrc
    | kwDelete => exact hu.deleteCall here hsrc
    | kwSizeof => exact ha.sizeofCall here hsrc hu
    | lparen => exact ha.parenthesized here hsrc hu
    | _ => exact (raised_primary scopes _).bind fun e he => ha.postfixRound.chain e he hsrc

/-- Of a unary expression and the one inside it, the second has a token less, and an assignment is
one level above. -/
theorem raised_expr (scopes : Scopes) {d d' : Nat} (hd : d ≤ d') (ts : List Token) :
    Raised (d < 2 * ts.length + 2) ts (Grammar.assign scopes d ts) (Grammar.assign scopes d' ts) ∧
      Raised (d < 2 * ts.length + 1) ts (Grammar.unary scopes d ts)
        (Grammar.unary scopes d' ts) := by
  induction d generalizing d' ts with
  | zero =>
    rw [Grammar.assign, Grammar.unary]
    exact ⟨.deep (Nat.succ_pos _) rfl _, .deep (Nat.succ_pos _) rfl _⟩
  | succ d ih =>
    obtain ⟨d', rfl⟩ := Nat.exists_eq_add_one.2 (Nat.lt_of_lt_of_le d.succ_pos hd)
    have ih := ih (Nat.le_of_succ_le_succ hd)
    constructor
    · rw [Grammar.assign, Grammar.assign]
      refine raised_assignment (fun ts' hts' => ?_) fun ts' hts' => ?_
      · exact (ih ts').2.mono fun _ => by omega
      · exact (ih ts').1.mono fun _ => by omega
    · rw [Grammar.unary, Grammar.unary]
      refine raised_unaryForm scopes (fun ts' hts' => ?_) fun ts' hts' => ?_
      · exact (ih ts').1.mono fun _ => by omega
      · exact (ih ts').2.mono fun _ => by omega

end Expressions

/-! ### Statements -/

section Statements

variable {value value' : Scopes → Parser Expr} {stmt stmt' : Declaring Stmt}

/-- The production is only refused less, whatever the scopes. -/
def RaisesAll (short : Prop) (n : Nat) (p q : Scopes → Parser α) : Prop :=
  ∀ scopes, Raises short n (p scopes) (q scopes)

theorem RaisesAll.mono {p q : Scopes → Parser α} (h : RaisesAll short n p q) (hmn : m ≤ n) :
    RaisesAll short m p q := fun scopes => (h scopes).mono hmn

section Declarators

variable (here : Parsed Unit src) (h : here.rest <:+ ts) (hsrc : src.length ≤ n) (name : String)
  (scopes : Scopes)

include h hsrc

theorem Raises.arrayDeclarator {p q : Parser Expr} (hp : Raises short n p q) :
    Raised short ts (arrayDeclarator p name scopes here)
      (arrayDeclarator q name scopes here) := by
  unfold Grammar.arrayDeclarator
  dsimp only
  have hopened := suffix_advance h
  refine .ite (Raised.bind (.ok (r := here.advance.set none) hopened) ?_)
    ((hp.expression.andThen hopened hsrc).bind fun size hs =>
      Raised.bind (.ok (r := size.map some) hs) ?_)
  -- with or without a size the same follows
  all_goals
    intro size hs
    refine (raised_next hs .rbrack).bind fun closed hc => ?_
    refine .ite (.error fun h => Cause.noConfusion h) (.ite ?_ ?_)
    · exact (hp.initList.andThen (suffix_advance hc) hsrc).bind fun _ hi => .ok hi
    · cases size.val with
      | none => exact .error fun h => Cause.noConfusion h
      | some e => exact .ok hc

theorem RaisesAll.declarator (hv : RaisesAll short n value value') (type : DeclType) :
    Raised short ts (declarator value type name scopes here)
      (declarator value' type name scopes here) := by
  unfold Grammar.declarator
  split
  · exact (hv scopes).arrayDeclarator here h hsrc name scopes
  · exact ((hv scopes).andThen (suffix_advance h) hsrc).map _
  · exact .ok h

end Declarators

theorem RaisesAll.declaratorRound (hv : RaisesAll short n value value') (base : DeclType.Base) :
    RaisesRound short n (declaratorRound value base) (declaratorRound value' base) := by
  rintro ⟨done, scopes⟩ ts hts
  cases ts with
  | nil => exact .none
  | cons t rest =>
    rw [Grammar.declaratorRound, Grammar.declaratorRound]
    split
    · have htype : (((Parsed.first t rest).set (DeclType.base base)).absorb star).rest <:+
          t :: rest := suffix_absorb (suffix_first t rest)
      refine .some ((raised_next htype .ident).bind fun name hn => ?_)
      exact (hv.declarator (name.set ()) hn (Nat.le_of_lt hts) _ scopes _).map _
    · exact .none

theorem RaisesAll.declarators (hv : RaisesAll short n value value') {name : Parsed Token src}
    (h : name.rest <:+ ts) (hsrc : src.length ≤ n) (type : DeclType) (scopes : Scopes) :
    Raised short ts (declarators value type scopes name)
      (declarators value' type scopes name) := by
  refine (hv.declarator (name.set ()) h hsrc _ scopes type).bind fun s hs => ?_
  refine ((hv.declaratorRound type.root).chain _ hs hsrc).bind fun done hd => ?_
  exact (raised_next hd .semi).bind fun _ hc => .ok hc

theorem RaisesAll.localDecl (hv : RaisesAll short n value value') (scopes : Scopes)
    (hts : ts.length ≤ n) :
    Raised short ts (localDecl value scopes ts) (localDecl value' scopes ts) := by
  refine (raised_declType ts).bind fun type ht => ?_
  refine (raised_next ht .ident).bind fun name hn => ?_
  exact (hv.declarators hn hts type.val scopes).map _

theorem RaisesAll.blockRound (hs : RaisesAll short n stmt stmt') :
    RaisesRound short n (blockRound stmt) (blockRound stmt') := by
  rintro ⟨done, scopes⟩ ts hts
  unfold Grammar.blockRound
  dsimp only
  split
  · exact .none
  · exact .some ((hs scopes ts hts).map _)

/-- The statements of a block stand behind its brace. -/
theorem RaisesAll.block (hs : RaisesAll short n stmt stmt') (scopes : Scopes)
    (hts : ts.length ≤ n) : Raised short ts (block stmt scopes ts) (block stmt' scopes ts) := by
  refine (raised_expect .lbrace ts).bind fun opened ho => ?_
  refine (hs.blockRound.chain _ ho hts).bind fun done hd => ?_
  exact (raised_next hd .rbrace).bind fun _ hc => .ok hc

theorem Raises.condition {p q : Parser Expr} (h : Raises short n p q) :
    Raises short n (condition p) (condition q) := by
  intro ts hts
  refine (raised_expect .lparen ts).bind fun opened ho => ?_
  refine (h.expression.andThen ho (Nat.le_of_lt hts)).bind fun e he => ?_
  exact (raised_next he .rparen).bind fun _ hc => .ok hc

theorem Raises.optional {p q : Parser Expr} (hp : Raises short n p q) (stop : Token.Kind)
    {here : Parsed α src} (h : here.rest <:+ ts) (hsrc : src.length ≤ n) :
    Raised short ts (optional stop p here) (optional stop q here) :=
  .ite (.ok h) (hp.expression.andThen h hsrc)

section Keywords

variable (hv : RaisesAll short n value value') (hs : RaisesAll short n stmt stmt')
  (scopes : Scopes) {here : Parsed Token src} (h : here.rest <:+ ts) (hsrc : src.length ≤ n)

include hv hs h hsrc

theorem raised_ifStmt :
    Raised short ts (ifStmt value stmt scopes here) (ifStmt value' stmt' scopes here) := by
  refine ((hv scopes).condition.andThen h hsrc).bind fun test ht => ?_
  refine ((hs scopes).andThen ht hsrc).bind fun yes hy => ?_
  exact .ite (((hs _).andThen (suffix_advance hy) hsrc).map _) (.ok hy)

theorem raised_whileStmt :
    Raised short ts (whileStmt value stmt scopes here) (whileStmt value' stmt' scopes here) := by
  refine ((hv scopes).condition.andThen h hsrc).bind fun test ht => ?_
  exact ((hs scopes).andThen ht hsrc).map _

theorem raised_doStmt :
    Raised short ts (doStmt value stmt scopes here) (doStmt value' stmt' scopes here) := by
  refine ((hs scopes).andThen h hsrc).bind fun body hb => ?_
  refine (raised_next hb .kwWhile).bind fun word hw => ?_
  refine ((hv _).condition.andThen hw hsrc).bind fun test ht => ?_
  exact (raised_next ht .semi).bind fun _ hc => .ok hc

theorem raised_forStmt :
    Raised short ts (forStmt value stmt scopes here) (forStmt value' stmt' scopes here) := by
  refine (raised_next h .lparen).bind fun opened ho => ?_
  dsimp only
  refine .ite (Raised.bind (.ok (r := opened.advance.set _) (suffix_advance ho)) ?_)
    (((hs _).andThen ho hsrc).bind ?_)
  -- with or without a first part the same follows
  all_goals
    intro init hi
    refine ((hv _).optional .semi hi hsrc).bind fun test ht => ?_
    refine (raised_next ht .semi).bind fun semi hc => ?_
    refine ((hv _).optional .rparen hc hsrc).bind fun post hp => ?_
    refine (raised_next hp .rparen).bind fun closed hc' => ?_
    exact ((hs _).andThen hc' hsrc).bind fun _ hb => .ok hb

end Keywords

theorem Raises.returnStmt {p q : Parser Expr} (hp : Raises short n p q) {here : Parsed Token src}
    (h : here.rest <:+ ts) (hsrc : src.length ≤ n) :
    Raised short ts (returnStmt p here) (returnStmt q here) := by
  refine (hp.optional .semi h hsrc).bind fun x hx => ?_
  exact (raised_next hx .semi).bind fun _ hc => .ok hc

theorem raised_jumpStmt (kind : Jump) {here : Parsed Token src} (h : here.rest <:+ ts) :
    Raised short ts (jumpStmt kind here) (jumpStmt kind here) :=
  (raised_next h .semi).bind fun _ hc => .ok hc

theorem Raises.exprStmt {p q : Parser Expr} (hp : Raises short n p q) :
    Raises short n (exprStmt p) (exprStmt q) := by
  intro ts hts
  refine (hp.expression ts hts).bind fun x hx => ?_
  exact (raised_next hx .semi).bind fun _ hc => .ok hc

/-- An expression may start at the first token, a statement inside another one starts behind it. -/
theorem raised_statement (hv : RaisesAll short (ts.length + 1) value value')
    (hs : RaisesAll short ts.length stmt stmt') (scopes : Scopes) :
    Raised short ts (statement value stmt scopes ts) (statement value' stmt' scopes ts) := by
  have hexpr := ((hv scopes).exprStmt ts (Nat.lt_succ_self _)).map fun s => (s, scopes)
  cases ts with
  | nil => exact hexpr
  | cons t rest =>
    have here := suffix_first t rest
    have hsrc : (t :: rest).length ≤ (t :: rest).length := Nat.le_refl _
    have hbehind := hv.mono (Nat.le_succ _)
    obtain ⟨k, lex, pos⟩ := t
    have hother := Raised.ite (c := k.startsType = true) (hbehind.localDecl scopes hsrc) hexpr
    cases k with
    | lbrace => exact (hs.block scopes hsrc).map _
    | semi => exact .ok here
    | kwReturn => exact ((hbehind scopes).returnStmt here hsrc).map _
    | kwIf => exact raised_ifStmt hbehind hs scopes here hsrc
    | kwWhile => exact raised_whileStmt hbehind hs scopes here hsrc
    | kwDo => exact raised_doStmt hbehind hs scopes here hsrc
    | kwFor => exact raised_forStmt hbehind hs scopes here hsrc
    | kwBreak | kwContinue => exact (raised_jumpStmt _ here).map _
    | _ => exact hother

theorem raised_stmt {d d' : Nat} (hd : d ≤ d') (scopes : Scopes) (ts : List Token) :
    Raised (d < 2 * ts.length + 3) ts (Grammar.stmt d scopes ts) (Grammar.stmt d' scopes ts) := by
  induction d generalizing d' scopes ts with
  | zero =>
    rw [Grammar.stmt]
    exact .deep (Nat.succ_pos _) rfl _
  | succ d ih =>
    obtain ⟨d', rfl⟩ := Nat.exists_eq_add_one.2 (Nat.lt_of_lt_of_le d.succ_pos hd)
    have hd := Nat.le_of_succ_le_succ hd
    rw [Grammar.stmt, Grammar.stmt]
    refine raised_statement (fun scopes ts' hts' => ?_) (fun scopes ts' hts' => ?_) scopes
    · exact (raised_expr scopes hd ts').1.mono fun _ => by omega
    · exact (ih hd scopes ts').mono fun _ => by omega

end Statements

/-! ### Files -/

section Files

/-- A token that may be missing. -/
theorem suffix_skip {r : Parsed α src} (h : r.rest <:+ ts) (k : Token.Kind) :
    (if peek r.rest = k then r.advance else r).rest <:+ ts := by
  split
  · exact suffix_advance h
  · exact h

theorem raised_param {type : Parsed DeclType src} (h : type.rest <:+ ts) :
    Raised short ts (param type) (param type) := by
  have hname := suffix_skip (suffix_skip h .amp) .ident
  unfold param
  simp only [apply_ite Prod.fst, apply_ite Prod.snd]
  refine .ite ((raised_next ?_ .rbrack).bind fun _ hc => .ok hc) (.ok hname)
  exact suffix_skip (suffix_advance hname) .int

theorem raises_paramRound : RaisesRound short n paramRound paramRound := by
  intro done ts hts
  cases ts with
  | nil => exact .none
  | cons t rest =>
    rw [paramRound]
    split
    · exact .some ((raised_type (suffix_first t rest)).bind fun type ht => (raised_param ht).map _)
    · exact .none

theorem raised_paramsFrom {type : Parsed DeclType src} (h : type.rest <:+ ts) :
    Raised short ts (paramsFrom type) (paramsFrom type) :=
  (raised_param h).bind fun _ hp => (raises_paramRound.chain _ hp (Nat.le_refl _)).map _

theorem raised_params {opened : Parsed α src} (h : opened.rest <:+ ts) :
    Raised short ts (params opened) (params opened) := by
  have hword : opened.advance.rest <:+ ts := suffix_advance h
  unfold params
  split
  · exact .ok h
  · refine .ite (.ok hword) (raised_paramsFrom ?_)
    exact suffix_absorb (r := opened.advance.set (DeclType.base .void)) hword
  · exact (raised_type h).bind fun type ht => raised_paramsFrom ht

theorem RaisesAll.func {stmt stmt' : Declaring Stmt} (hs : RaisesAll short n stmt stmt')
    {name : Parsed Token src} (h : name.rest <:+ ts) (hsrc : src.length ≤ n) (ret : DeclType)
    (scopes : Scopes) :
    Raised short ts (func stmt ret scopes name) (func stmt' ret scopes name) := by
  refine (raised_next h .lparen).bind fun opened ho => ?_
  refine (raised_params ho).bind fun ps hps => ?_
  refine (raised_next hps .rparen).bind fun closed hc => ?_
  have hblock : Raises short n (Grammar.block stmt (scopes.enter ps.val))
      (Grammar.block stmt' (scopes.enter ps.val)) := fun ts hts => hs.block _ (Nat.le_of_lt hts)
  exact .ite (.ok (suffix_advance hc)) ((hblock.andThen hc hsrc).map _)

theorem raised_decl {limit limit' : Nat} (h : limit ≤ limit') (scopes : Scopes) (ts : List Token) :
    Raised (limit < 2 * ts.length + 3) ts (decl limit scopes ts) (decl limit' scopes ts) := by
  have hstmt := raised_stmt h scopes ts
  unfold decl
  refine .ite ?_ (hstmt.map _)
  refine (raised_declType ts).bind fun type ht => ?_
  refine (raised_next ht .ident).bind fun name hn => .ite (.map ?_ _) (.map ?_ _)
  · refine RaisesAll.func (fun scopes ts' hts' => ?_) hn (Nat.le_refl _) _ scopes
    exact (raised_stmt h scopes ts').mono fun _ => by omega
  · refine RaisesAll.declarators (fun scopes ts' hts' => ?_) hn (Nat.le_refl _) _ scopes
    exact (raised_expr scopes h ts').1.mono fun _ => by omega

theorem raises_fileRound {limit limit' : Nat} (h : limit ≤ limit') (n : Nat) :
    RaisesRound (limit < 2 * n + 3) (n + 1) (fileRound limit) (fileRound limit') := by
  rintro ⟨done, scopes⟩ ts hts
  cases ts with
  | nil => exact .none
  | cons t rest => exact .some (((raised_decl h scopes _).mono fun _ => by omega).map _)

/-- The whole of a text is too deep, or refused for another cause, or it is the same declarations
that come out. -/
theorem raised_file {limit limit' : Nat} (h : limit ≤ limit') (text : Token.Scanned) :
    (limit < 2 * text.tokens.length + 3 ∧ ∃ f, file limit text = .error f ∧ f.cause = .tooDeep) ∨
      file limit text = file limit' text ∧
        ∀ f, file limit text = .error f → f.cause ≠ .tooDeep := by
  have hall : text.tokens.length < (text.eof :: text.tokens).length := Nat.lt_succ_self _
  have hchain := raised_chain (raises_fileRound h text.tokens.length) ([], Scopes.file) text.tokens
    hall (Nat.lt_succ_self _) (List.suffix_refl _)
  unfold file
  generalize chain (fileRound limit) _ _ _ _ = x at hchain ⊢
  generalize chain (fileRound limit') _ _ _ _ = y at hchain ⊢
  cases hchain with
  | deep hlow hf y => exact .inl ⟨hlow, _, rfl, hf⟩
  | error hf =>
    refine .inr ⟨rfl, fun f h => ?_⟩
    cases h
    exact hf
  | ok hr => exact .inr ⟨rfl, fun f h => nomatch h⟩

end Files

/-! ### Texts -/

/-- What comes of a text with that many tokens under the limits `n` and `m`: it is too deep for the
first, which is then low, or both give the same tree, or both refuse it with the same message. -/
inductive LiftsNesting (tokens n m : Nat) :
    Except Error (List Decl) → Except Error (List Decl) → Prop where
  | tooDeep (pos : Pos) (hlow : n < 2 * tokens + 3) (r : Except Error (List Decl)) :
      LiftsNesting tokens n m (.error ⟨pos, n, .tooDeep⟩) r
  | tree (ds : List Decl) : LiftsNesting tokens n m (.ok ds) (.ok ds)
  | refused {pos : Pos} {cause : Cause} (hcause : cause ≠ .tooDeep)
      (hmessage : ∀ file, Error.message file ⟨pos, n, cause⟩ = Error.message file ⟨pos, m, cause⟩) :
      LiftsNesting tokens n m (.error ⟨pos, n, cause⟩) (.error ⟨pos, m, cause⟩)

/-- Only the message of a text that is too deep has the limit in it. -/
theorem message_of_ne_tooDeep {cause : Cause} (h : cause ≠ .tooDeep) (n m : Nat) :
    cause.message n = cause.message m := by
  cases cause with
  | tooDeep => exact (h rfl).elim
  | _ => rfl

theorem parse_raised {n m : Nat} (h : n ≤ m) (source : List Char) :
    LiftsNesting (Token.scan source).tokens.length n m (parse n source) (parse m source) := by
  unfold parse
  dsimp only
  rcases raised_file h (Token.scan source) with ⟨hlow, f, hfile, hdeep⟩ | ⟨hsame, hother⟩
  · rw [hfile]
    obtain ⟨pos?, cause⟩ := f
    obtain rfl : cause = .tooDeep := hdeep
    exact .tooDeep _ hlow _
  · rw [← hsame]
    cases hfile : file n (Token.scan source) with
    | ok ds => exact .tree ds
    | error f =>
      have hcause := hother f hfile
      refine .refused hcause fun file => ?_
      simp only [Error.message, message_of_ne_tooDeep hcause n m]

/-- Raising the limit can only lift the error that a text nests too deep. -/
theorem raised_limit_lifts_nesting_error (source : List Char) {n m : Int} (hn : 1 ≤ n)
    (hnm : n ≤ m) :
    LiftsNesting (Token.scan source).tokens.length n.toNat m.toNat (parse (limitOf n) source)
      (parse (limitOf m) source) := by
  have hlimit {k : Int} (hk : 1 ≤ k) : limitOf k = k.toNat := if_pos hk
  rw [hlimit hn, hlimit (Int.le_trans hn hnm)]
  exact parse_raised (Int.toNat_le_toNat hnm) source

/-- Parentheses that are too deep at three levels are read at five, and a text that is not read at
five levels is not read at a thousand. -/
theorem raised_limit_lifts_nesting_error_at_parentheses :
    let closed := "(1);".toList
    let opened := "(1;".toList
    parse (limitOf 3) closed = .error ⟨⟨1, 2⟩, 3, .tooDeep⟩ ∧
    LiftsNesting (Token.scan closed).tokens.length 3 5 (parse (limitOf 3) closed)
      (parse (limitOf 5) closed) ∧
    LiftsNesting (Token.scan opened).tokens.length 5 1000 (parse (limitOf 5) opened)
      (parse (limitOf 1000) opened) := by
  intro closed opened
  have hdeep : parse (limitOf 3) closed = .error ⟨⟨1, 2⟩, 3, .tooDeep⟩ := by with_unfolding_all rfl
  refine ⟨hdeep, ?_, ?_⟩
  · exact raised_limit_lifts_nesting_error closed (n := 3) (m := 5) (by decide) (by decide)
  · exact raised_limit_lifts_nesting_error opened (n := 5) (m := 1000) (by decide) (by decide)

end MemLint.Grammar
