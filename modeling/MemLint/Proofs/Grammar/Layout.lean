import Mathlib.Data.List.Infix
import MemLint.Analysis
import MemLint.Grammar.File
import MemLint.Proofs.Token.Layout

/-! Places do not matter to the grammar. Two lists of tokens that differ in their places only are
taken side by side through every production: both are refused for the same cause, or the same value
comes out and the same tokens are left. -/

namespace MemLint.Grammar

/-! ### Tokens at other places -/

/-- The same tokens, perhaps at other places. -/
inductive Moved : List Token → List Token → Prop where
  | nil : Moved [] []
  | cons (k : Token.Kind) (lex : String) (p p' : Pos) {ts ts' : List Token} (h : Moved ts ts') :
      Moved (⟨k, lex, p⟩ :: ts) (⟨k, lex, p'⟩ :: ts')

namespace Moved

variable {ts ts' : List Token}

theorem of_lexemes (h : ts.map Token.lexeme = ts'.map Token.lexeme) : Moved ts ts' := by
  induction ts generalizing ts' with
  | nil =>
    cases ts' with
    | nil => exact .nil
    | cons t' ts' => cases h
  | cons t ts ih =>
    cases ts' with
    | nil => cases h
    | cons t' ts' =>
      obtain ⟨k, lex, p⟩ := t
      obtain ⟨k', lex', p'⟩ := t'
      obtain ⟨ht, hts⟩ := List.cons.inj h
      obtain ⟨rfl, rfl⟩ := Token.Lexeme.mk.inj ht
      exact .cons k lex p p' (ih hts)

theorem peek (h : Moved ts ts') : peek ts = peek ts' := by
  cases h <;> rfl

theorem peekLex (h : Moved ts ts') : peekLex ts = peekLex ts' := by
  cases h <;> rfl

theorem tail (h : Moved ts ts') : Moved ts.tail ts'.tail := by
  cases h with
  | nil => exact .nil
  | cons _ _ _ _ h => exact h

/-- What is absorbed does not depend on places, if no step does. -/
theorem absorb {α : Type} (step : α → Token → Option α)
    (hstep : ∀ a k lex p p', step a ⟨k, lex, p⟩ = step a ⟨k, lex, p'⟩) (a : α)
    (h : Moved ts ts') :
    (absorb step a ts).1 = (absorb step a ts').1 ∧
      Moved (absorb step a ts).2 (absorb step a ts').2 := by
  induction h generalizing a with
  | nil => exact ⟨rfl, .nil⟩
  | cons k lex p p' h ih =>
    rw [Grammar.absorb, Grammar.absorb, hstep a k lex p p']
    cases step a ⟨k, lex, p'⟩ with
    | none => exact ⟨rfl, .cons k lex p p' h⟩
    | some b => exact ih b

end Moved

/-! ### Outcomes side by side -/

section Outcomes

variable {α β : Type} {R : α → α → Prop} {Q : β → β → Prop} {src src' : List Token}

/-- Values that are related, with the same tokens left. -/
structure Parsed.Agree (R : α → α → Prop) (r : Parsed α src) (r' : Parsed α src') : Prop where
  val : R r.val r'.val
  rest : Moved r.rest r'.rest

/-- Both are refused for the same cause, or what comes out agrees. -/
inductive Same (R : α → α → Prop) :
    Except Fault (Parsed α src) → Except Fault (Parsed α src') → Prop where
  | error {f f' : Fault} (h : f.cause = f'.cause) : Same R (.error f) (.error f')
  | ok {r : Parsed α src} {r' : Parsed α src'} (h : r.Agree R r') : Same R (.ok r) (.ok r')

/-- Tokens with the same text. -/
def SameLex (t t' : Token) : Prop := t.lex = t'.lex

/-- Places do not matter to the production. -/
def Blind (p : Parser α) : Prop := ∀ ⦃ts ts'⦄, Moved ts ts' → Same Eq (p ts) (p ts')

/-- Places do not matter to a round of a loop. -/
def BlindRound (round : Round α) : Prop :=
  ∀ (a : α) ⦃ts ts'⦄, Moved ts ts' → Option.Rel (Same Eq) (round a ts) (round a ts')

namespace Parsed.Agree

variable {r : Parsed α src} {r' : Parsed α src'}

theorem map (h : r.Agree Eq r') (f : α → β) : (r.map f).Agree Eq (r'.map f) :=
  ⟨congrArg f h.val, h.rest⟩

theorem set (h : r.Agree R r') {b b' : β} (hb : Q b b') : (r.set b).Agree Q (r'.set b') :=
  ⟨hb, h.rest⟩

theorem advance (h : r.Agree R r') : r.advance.Agree R r'.advance := ⟨h.val, h.rest.tail⟩

theorem peek (h : r.Agree R r') : Grammar.peek r.rest = Grammar.peek r'.rest := h.rest.peek

theorem absorb (h : r.Agree Eq r') (step : α → Token → Option α)
    (hstep : ∀ a k lex p p', step a ⟨k, lex, p⟩ = step a ⟨k, lex, p'⟩) :
    (r.absorb step).Agree Eq (r'.absorb step) := by
  obtain ⟨hv, hr⟩ := h.rest.absorb step hstep r.val
  rw [h.val] at hv hr
  constructor
  · show (Grammar.absorb step r.val r.rest).1 = (Grammar.absorb step r'.val r'.rest).1
    rw [h.val]
    exact hv
  · show Moved (Grammar.absorb step r.val r.rest).2 (Grammar.absorb step r'.val r'.rest).2
    rw [h.val]
    exact hr

end Parsed.Agree

theorem agree_first (k : Token.Kind) (lex : String) (p p' : Pos) {ts ts' : List Token}
    (h : Moved ts ts') : (Parsed.first ⟨k, lex, p⟩ ts).Agree SameLex (.first ⟨k, lex, p'⟩ ts') :=
  ⟨rfl, h⟩

namespace Same

theorem bind {mid mid' : List Token} {x : Except Fault (Parsed α mid)}
    {x' : Except Fault (Parsed α mid')} {f : Parsed α mid → Except Fault (Parsed β src)}
    {f' : Parsed α mid' → Except Fault (Parsed β src')} (h : Same R x x')
    (hf : ∀ {r r'}, r.Agree R r' → Same Q (f r) (f' r')) : Same Q (x >>= f) (x' >>= f') := by
  cases h with
  | error h => exact .error h
  | ok h => exact hf h

theorem ite {c : Prop} [Decidable c] {x y : Except Fault (Parsed α src)}
    {x' y' : Except Fault (Parsed α src')} (hx : Same R x x') (hy : Same R y y') :
    Same R (if c then x else y) (if c then x' else y') := by
  split
  · exact hx
  · exact hy

theorem map {x : Except Fault (Parsed α src)} {x' : Except Fault (Parsed α src')}
    (h : Same Eq x x') (f : α → β) :
    Same Eq (do let r ← x; return r.map f) (do let r ← x'; return r.map f) :=
  h.bind fun hr => .ok (hr.map f)

end Same

theorem Parsed.Agree.andThen {r : Parsed α src} {r' : Parsed α src'} (h : r.Agree R r')
    {q : Parser β} (hq : ∀ ⦃ts ts'⦄, Moved ts ts' → Same Q (q ts) (q ts')) :
    Same Q (r.andThen q) (r'.andThen q) :=
  (hq h.rest).bind fun h => .ok ⟨h.val, h.rest⟩

theorem same_faultAt {ts ts' : List Token} (cause : Cause) :
    Same R (.error (faultAt ts cause) : Except Fault (Parsed α src))
      (.error (faultAt ts' cause) : Except Fault (Parsed α src')) :=
  .error rfl

theorem same_unmet {ts ts' : List Token} (h : Moved ts ts') (want : Token.Kind) :
    Same R (.error (unmet want ts) : Except Fault (Parsed α src))
      (.error (unmet want ts') : Except Fault (Parsed α src')) := by
  apply Same.error
  show Cause.expected want (peek ts) (peekLex ts) = .expected want (peek ts') (peekLex ts')
  rw [h.peek, h.peekLex]

/-- A token of a kind is found in both lists, or in neither. -/
theorem same_expect (want : Token.Kind) {ts ts' : List Token} (h : Moved ts ts') :
    Same SameLex (expect want ts) (expect want ts') := by
  have hno : Same SameLex (.error (unmet want ts) : Except Fault (Parsed Token ts))
      (.error (unmet want ts') : Except Fault (Parsed Token ts')) := same_unmet h want
  cases h with
  | nil => exact hno
  | cons k lex p p' h => exact .ite (.ok (agree_first k lex p p' h)) hno

theorem Parsed.Agree.expect {r : Parsed α src} {r' : Parsed α src'} (h : r.Agree R r')
    (want : Token.Kind) : Same SameLex (r.andThen (expect want)) (r'.andThen (expect want)) :=
  h.andThen fun _ _ hm => same_expect want hm

/-- The rounds of a loop go side by side to its end. -/
theorem same_chain {round : Round α} (hround : BlindRound round) (a : α) {ts ts' : List Token}
    (h : Moved ts ts') (hs : ts.length < src.length) (hs' : ts'.length < src'.length) :
    Same Eq (chain round src a ts hs) (chain round src' a ts' hs') := by
  -- on the number of tokens, since each round leaves fewer
  induction hn : ts.length using Nat.strong_induction_on generalizing a ts ts' with
  | _ n ih =>
    have hr := hround a h
    rw [chain, chain]
    generalize round a ts = x at hr ⊢
    generalize round a ts' = x' at hr ⊢
    cases hr with
    | none => exact .ok ⟨rfl, h⟩
    | some hx =>
      cases hx with
      | error he => exact .error he
      | @ok r r' hagree =>
        obtain ⟨b, rest, hlt⟩ := r
        obtain ⟨b', rest', hlt'⟩ := r'
        obtain ⟨rfl, hrest⟩ := hagree
        exact ih rest.length (hn ▸ hlt) b hrest _ _ rfl

theorem Parsed.Agree.chain {r : Parsed α src} {r' : Parsed α src'} (h : r.Agree Eq r')
    {round : Round α} (hround : BlindRound round) : Same Eq (r.chain round) (r'.chain round) := by
  obtain ⟨a, ts, hs⟩ := r
  obtain ⟨a', ts', hs'⟩ := r'
  obtain ⟨rfl, hrest⟩ := h
  exact same_chain hround a hrest hs hs'

end Outcomes

/-! ### Types -/

theorem blind_declType : Blind declType := by
  intro ts ts' h
  obtain ⟨-, hrest⟩ := h.absorb qualifier (fun _ _ _ _ _ => rfl) ()
  simp only [declType]
  split
  next hq =>
    rw [hq] at hrest
    split
    next => exact .error rfl
    next hq' =>
      rw [hq'] at hrest
      cases hrest
  next t mid hq =>
    rw [hq] at hrest
    split
    next hb =>
      split
      next hq' =>
        rw [hq'] at hrest
        cases hrest
      next t' mid' hq' =>
        rw [hq'] at hrest
        cases hrest
        rw [hb]
        exact .error rfl
    next b hb =>
      split
      next hq' =>
        rw [hq'] at hrest
        cases hrest
      next t' mid' hq' =>
        rw [hq'] at hrest
        cases hrest with
        | cons k lex p p' hmid =>
          rw [hb]
          refine .ok (Parsed.Agree.absorb ?_ star fun _ _ _ _ _ => rfl)
          refine Parsed.Agree.map (Parsed.Agree.absorb ?_ specifier fun _ _ _ _ _ => rfl) _
          exact ⟨rfl, hmid⟩

/-! ### Expressions -/

section Expressions

variable {assign unary item operand : Parser Expr} {src src' : List Token}

theorem same_increment (op : BinOp) {x : Parsed Expr src} {x' : Parsed Expr src'}
    (h : x.Agree Eq x') : Same Eq (increment op x) (increment op x') := by
  unfold increment
  rw [h.val]
  exact .ite (.ok (h.map _)) (same_faultAt _)

theorem Blind.binaryRound (hp : Blind operand) (level : Level) :
    BlindRound (binaryRound level operand) := by
  intro left ts ts' h
  cases h with
  | nil => exact .none
  | cons k lex p p' h =>
    rw [Grammar.binaryRound, Grammar.binaryRound]
    cases level k with
    | none => exact .none
    | some op => exact .some (((agree_first k lex p p' h).andThen hp).map _)

theorem Blind.binary (hp : Blind operand) (ls : List Level) : Blind (binary operand ls) := by
  induction ls with
  | nil => exact hp
  | cons level tighter ih =>
    intro ts ts' h
    exact (ih h).bind fun hl => hl.chain (ih.binaryRound level)

theorem Blind.assignment (hu : Blind unary) (ha : Blind assign) :
    Blind (assignment unary assign) := by
  intro ts ts' h
  refine (hu.binary levels h).bind fun {left left'} hl => ?_
  rw [hl.peek, hl.val]
  cases assignOp? (peek left'.rest) with
  | none => exact .ok hl
  | some op? => exact .ite ((hl.advance.andThen ha).map _) (same_faultAt _)

theorem Blind.commaRound (ha : Blind assign) : BlindRound (commaRound assign) := by
  intro e ts ts' h
  cases h with
  | nil => exact .none
  | cons k lex p p' h =>
    rw [Grammar.commaRound, Grammar.commaRound]
    split
    · exact .some ((agree_first k lex p p' h).andThen ha)
    · exact .none

theorem Blind.expression (ha : Blind assign) : Blind (expression assign) := by
  intro ts ts' h
  exact (ha h).bind fun he => he.chain ha.commaRound

theorem Blind.itemRound (hi : Blind item) (close : Token.Kind) :
    BlindRound (itemRound close item) := by
  intro done ts ts' h
  unfold Grammar.itemRound
  rw [h.peek]
  split
  · exact .none
  · refine .some ((hi h).bind fun {x x'} hx => ?_)
    rw [hx.peek]
    exact .ite (.ok (hx.advance.map _)) (.ite (.ok (hx.map _)) (same_unmet hx.rest close))

theorem Blind.items (hi : Blind item) (close : Token.Kind) {α : Type} {R : α → α → Prop}
    {opened : Parsed α src} {opened' : Parsed α src'} (h : opened.Agree R opened') :
    Same Eq (items close item opened) (items close item opened') := by
  refine ((h.set rfl).chain (hi.itemRound close)).bind fun hdone => ?_
  exact (hdone.expect close).bind fun hclosed => .ok (hclosed.set (congrArg _ hdone.val))

theorem Blind.initList (ha : Blind assign) : Blind (initList assign) := by
  intro ts ts' h
  have hopened := same_expect .lbrace h
  cases h with
  | nil => exact .error rfl
  | cons k lex p p' h =>
    refine .ite (.ok ((agree_first k lex p p' h).set rfl)) ?_
    exact hopened.bind fun ho => (ha.items .rbrace ho).map _

theorem blind_primary (scopes : Scopes) : Blind (primary scopes) := by
  intro ts ts' h
  cases h with
  | nil => exact .error rfl
  | cons k lex p p' h =>
    have here := agree_first k lex p p' h
    cases k with
    | ident | char | kwTrue | kwFalse | kwNullptr => exact .ok (here.set rfl)
    | int =>
      unfold primary
      dsimp only
      cases Numeral.integer? lex with
      | none => exact .error rfl
      | some v => exact .ok (here.set rfl)
    | float =>
      unfold primary
      dsimp only
      cases Numeral.floating? lex with
      | none => exact .error rfl
      | some v => exact .ok (here.set rfl)
    | string =>
      have htext := (here.set (Q := Eq) (rfl : lex = lex)).absorb stringPart fun _ _ _ _ _ => rfl
      exact .ok (htext.map Expr.stringLit)
    | _ => exact .error rfl

theorem Blind.postfixRound (ha : Blind assign) : BlindRound (postfixRound assign) := by
  intro e ts ts' h
  cases h with
  | nil => exact .none
  | cons k lex p p' h =>
    have here := agree_first k lex p p' h
    cases k with
    | lparen =>
      apply Option.Rel.some
      cases e.name? with
      | none => exact .error rfl
      | some name => exact (ha.items .rparen here).map _
    | lbrack =>
      apply Option.Rel.some
      cases e.name? with
      | none => exact .error rfl
      | some name =>
        refine (here.andThen ha.expression).bind fun hi => ?_
        exact (hi.expect .rbrack).bind fun hclosed => .ok (hclosed.set (congrArg _ hi.val))
    | inc | dec => exact .some (same_increment _ (here.set rfl))
    | dot | arrow | scope => exact .some (.error rfl)
    | _ => exact .none

theorem Blind.newCall (ha : Blind assign) {here : Parsed Token src} {here' : Parsed Token src'}
    (h : here.Agree SameLex here') : Same Eq (newCall assign here) (newCall assign here') := by
  refine (h.andThen blind_declType).bind fun {type type'} ht => ?_
  rw [ht.peek]
  generalize peek type'.rest = k
  cases k with
  | lbrack =>
    refine (ht.advance.andThen ha.expression).bind fun hsize => ?_
    refine (hsize.expect .rbrack).bind fun hclosed => ?_
    have hcall := congrArg (fun e => Expr.call "new" [e]) hsize.val
    rw [hclosed.peek]
    refine .ite ?_ (.ok (hclosed.set hcall))
    exact (hclosed.andThen ha.initList).bind fun hinits => .ok (hinits.set hcall)
  | lparen => exact (ha.items .rparen ht.advance).map _
  | _ => exact .ok (ht.set rfl)

theorem Blind.deleteCall (hu : Blind unary) {here : Parsed Token src} {here' : Parsed Token src'}
    (h : here.Agree SameLex here') : Same Eq (deleteCall unary here) (deleteCall unary here') := by
  have hgo {o : Parsed Token src} {o' : Parsed Token src'} (ho : o.Agree SameLex o') :=
    (ho.andThen hu).map fun x => Expr.call "delete" [x]
  unfold Grammar.deleteCall
  rw [h.peek]
  exact .ite ((h.advance.expect .rbrack).bind hgo) (hgo h)

theorem Blind.sizeofCall (ha : Blind assign) (hu : Blind unary) {here : Parsed Token src}
    {here' : Parsed Token src'} (h : here.Agree SameLex here') :
    Same Eq (sizeofCall assign unary here) (sizeofCall assign unary here') := by
  have hgo {args : Parsed (List Expr) src} {args' : Parsed (List Expr) src'}
      (hargs : args.Agree Eq args') :=
    (hargs.expect .rparen).bind fun hclosed =>
      .ok (hclosed.set (Q := Eq) (congrArg (Expr.call "sizeof") hargs.val))
  unfold Grammar.sizeofCall
  dsimp only
  rw [h.peek, h.advance.peek]
  refine .ite (.ite ?_ ?_) ((h.andThen hu).map _)
  · exact (h.advance.andThen blind_declType).bind fun ht => hgo (ht.set rfl)
  · exact (h.advance.andThen ha.expression).bind fun hx => hgo (hx.map _)

theorem Blind.parenthesized (ha : Blind assign) (hu : Blind unary) {here : Parsed Token src}
    {here' : Parsed Token src'} (h : here.Agree SameLex here') :
    Same Eq (parenthesized assign unary here) (parenthesized assign unary here') := by
  unfold Grammar.parenthesized
  rw [h.peek]
  apply Same.ite
  · refine (h.andThen blind_declType).bind fun ht => ?_
    exact (ht.expect .rparen).bind fun hclosed => hclosed.andThen hu
  · refine (h.andThen ha.expression).bind fun he => ?_
    exact (he.expect .rparen).bind fun hclosed => (hclosed.set he.val).chain ha.postfixRound

theorem Blind.unaryForm (scopes : Scopes) (ha : Blind assign) (hu : Blind unary) :
    Blind (unaryForm scopes assign unary) := by
  intro ts ts' h
  have hprimary := blind_primary scopes h
  cases h with
  | nil => exact hprimary
  | cons k lex p p' h =>
    have here := agree_first k lex p p' h
    have hoperand := here.andThen hu
    cases k with
    | star | amp | minus | bang | tilde => exact hoperand.map _
    | plus => exact hoperand
    | inc | dec => exact hoperand.bind fun hx => same_increment _ hx
    | kwNew => exact ha.newCall here
    | kwDelete => exact hu.deleteCall here
    | kwSizeof => exact ha.sizeofCall hu here
    | lparen => exact ha.parenthesized hu here
    | _ => exact hprimary.bind fun he => he.chain ha.postfixRound

/-- Places matter at no depth. -/
theorem blind_expr (scopes : Scopes) (d : Nat) :
    Blind (Grammar.assign scopes d) ∧ Blind (Grammar.unary scopes d) := by
  induction d with
  | zero => exact ⟨fun _ _ _ => .error rfl, fun _ _ _ => .error rfl⟩
  | succ d ih =>
    obtain ⟨ha, hu⟩ := ih
    constructor
    · intro ts ts' h
      rw [Grammar.assign, Grammar.assign]
      exact hu.assignment ha h
    · intro ts ts' h
      rw [Grammar.unary, Grammar.unary]
      exact ha.unaryForm scopes hu h

end Expressions

/-! ### Statements -/

section Statements

variable {value : Scopes → Parser Expr} {stmt : Declaring Stmt} {src src' : List Token}

theorem same_arrayDeclarator {p : Parser Expr} (hp : Blind p) (name : String) (scopes : Scopes)
    {here : Parsed Unit src} {here' : Parsed Unit src'} (h : here.Agree Eq here') :
    Same Eq (arrayDeclarator p name scopes here) (arrayDeclarator p name scopes here') := by
  unfold arrayDeclarator
  dsimp only
  rw [h.advance.peek]
  refine .ite (Same.bind (R := Eq) (.ok (h.advance.set rfl)) ?_)
    ((h.advance.andThen hp.expression).bind fun hs => Same.bind (R := Eq) (.ok (hs.map some)) ?_)
  -- with or without a size the same follows
  all_goals
    intro size size' hsize
    refine (hsize.expect .rbrack).bind fun hclosed => ?_
    rw [hclosed.peek, hsize.val]
    refine .ite (.error rfl) (.ite ?_ ?_)
    · have hinit := hclosed.advance.andThen hp.initList
      exact hinit.map fun (n : Nat) => (Stmt.expr (.arrayDecl name (size'.val.getD (.intLit n))),
        scopes.declare name true)
    · cases size'.val with
      | none => exact .error rfl
      | some e => exact .ok (hclosed.set rfl)

theorem same_declarator (hv : ∀ scopes, Blind (value scopes)) (type : DeclType) (name : String)
    (scopes : Scopes) {here : Parsed Unit src} {here' : Parsed Unit src'}
    (h : here.Agree Eq here') :
    Same Eq (declarator value type name scopes here) (declarator value type name scopes here') := by
  unfold declarator
  rw [h.peek]
  generalize peek here'.rest = k
  cases k with
  | lbrack => exact same_arrayDeclarator (hv scopes) name scopes h
  | assign => exact (h.advance.andThen (hv scopes)).map _
  | _ => exact .ok (h.set rfl)

theorem blind_declaratorRound (hv : ∀ scopes, Blind (value scopes)) (base : DeclType.Base) :
    BlindRound (declaratorRound value base) := by
  rintro ⟨done, scopes⟩ ts ts' h
  cases h with
  | nil => exact .none
  | cons k lex p p' h =>
    rw [declaratorRound, declaratorRound]
    split
    · have hbase := (agree_first k lex p p' h).set (Q := Eq) (rfl : DeclType.base base = .base base)
      have htype := hbase.absorb star fun _ _ _ _ _ => rfl
      refine .some ((htype.expect .ident).bind fun {name name'} hname => ?_)
      rw [htype.val, show name.val.lex = name'.val.lex from hname.val]
      exact (same_declarator hv _ _ scopes (hname.set rfl)).map _
    · exact .none

theorem same_declarators (hv : ∀ scopes, Blind (value scopes)) (type : DeclType) (scopes : Scopes)
    {name : Parsed Token src} {name' : Parsed Token src'} (h : name.Agree SameLex name') :
    Same Eq (declarators value type scopes name) (declarators value type scopes name') := by
  unfold declarators
  rw [show name.val.lex = name'.val.lex from h.val]
  refine (same_declarator hv type _ scopes (h.set rfl)).bind fun hs => ?_
  refine ((hs.map _).chain (blind_declaratorRound hv type.root)).bind fun hdone => ?_
  exact (hdone.expect .semi).bind fun hsemi =>
    .ok (hsemi.set (congrArg (fun r => (r.1.reverse, r.2)) hdone.val))

theorem blind_localDecl (hv : ∀ scopes, Blind (value scopes)) (scopes : Scopes) :
    Blind (localDecl value scopes) := by
  intro ts ts' h
  refine (blind_declType h).bind fun ht => ?_
  refine (ht.expect .ident).bind fun hname => ?_
  rw [ht.val]
  exact (same_declarators hv _ scopes hname).map _

theorem blind_blockRound (hs : ∀ scopes, Blind (stmt scopes)) : BlindRound (blockRound stmt) := by
  rintro ⟨done, scopes⟩ ts ts' h
  unfold blockRound
  rw [h.peek]
  dsimp only
  split
  · exact .none
  · exact .some ((hs scopes h).map _)

theorem blind_block (hs : ∀ scopes, Blind (stmt scopes)) (scopes : Scopes) :
    Blind (block stmt scopes) := by
  intro ts ts' h
  refine (same_expect .lbrace h).bind fun hopened => ?_
  refine ((hopened.set rfl).chain (blind_blockRound hs)).bind fun hdone => ?_
  exact (hdone.expect .rbrace).bind fun hclosed =>
    .ok (hclosed.set (congrArg (fun r => Stmt.block r.1.reverse) hdone.val))

theorem Blind.condition {p : Parser Expr} (hp : Blind p) : Blind (condition p) := by
  intro ts ts' h
  refine (same_expect .lparen h).bind fun hopened => ?_
  refine (hopened.andThen hp.expression).bind fun he => ?_
  exact (he.expect .rparen).bind fun hclosed => .ok (hclosed.set he.val)

theorem Blind.optional {p : Parser Expr} (hp : Blind p) (stop : Token.Kind) {α : Type}
    {R : α → α → Prop} {here : Parsed α src} {here' : Parsed α src'} (h : here.Agree R here') :
    Same Eq (optional stop p here) (optional stop p here') := by
  unfold Grammar.optional
  rw [h.peek]
  exact .ite (.ok (h.set rfl)) (h.andThen hp.expression)

section Keywords

variable (hv : ∀ scopes, Blind (value scopes)) (hs : ∀ scopes, Blind (stmt scopes))
  (scopes : Scopes) {here : Parsed Token src} {here' : Parsed Token src'}
  (h : here.Agree SameLex here')

include hv hs h

theorem same_ifStmt :
    Same Eq (ifStmt value stmt scopes here) (ifStmt value stmt scopes here') := by
  refine (h.andThen (hv scopes).condition).bind fun htest => ?_
  refine (htest.andThen (hs scopes)).bind fun hyes => ?_
  rw [htest.val, hyes.val, hyes.peek]
  exact .ite ((hyes.advance.andThen (hs _)).map _) (.ok (hyes.map _))

theorem same_whileStmt :
    Same Eq (whileStmt value stmt scopes here) (whileStmt value stmt scopes here') := by
  refine (h.andThen (hv scopes).condition).bind fun htest => ?_
  rw [htest.val]
  exact (htest.andThen (hs scopes)).map _

theorem same_doStmt :
    Same Eq (doStmt value stmt scopes here) (doStmt value stmt scopes here') := by
  refine (h.andThen (hs scopes)).bind fun hbody => ?_
  refine (hbody.expect .kwWhile).bind fun hword => ?_
  rw [hbody.val]
  refine (hword.andThen (hv _).condition).bind fun htest => ?_
  rw [htest.val]
  exact (htest.expect .semi).bind fun hsemi => .ok (hsemi.set rfl)

theorem same_forStmt :
    Same Eq (forStmt value stmt scopes here) (forStmt value stmt scopes here') := by
  refine (h.expect .lparen).bind fun hopened => ?_
  dsimp only
  rw [hopened.peek]
  refine .ite (Same.bind (R := Eq) (.ok (hopened.advance.set rfl)) ?_)
    ((hopened.andThen (hs _)).bind ?_)
  -- with or without a first part the same follows
  all_goals
    intro init init' hinit
    rw [hinit.val]
    refine ((hv _).optional .semi hinit).bind fun htest => ?_
    refine (htest.expect .semi).bind fun hsemi => ?_
    refine ((hv _).optional .rparen hsemi).bind fun hpost => ?_
    refine (hpost.expect .rparen).bind fun hclosed => ?_
    refine (hclosed.andThen (hs _)).bind fun hbody => ?_
    rw [htest.val, hpost.val, hbody.val]
    exact .ok (hbody.set rfl)

end Keywords

theorem Blind.returnStmt {p : Parser Expr} (hp : Blind p) {here : Parsed Token src}
    {here' : Parsed Token src'} (h : here.Agree SameLex here') :
    Same Eq (returnStmt p here) (returnStmt p here') := by
  refine (hp.optional .semi h).bind fun hx => ?_
  exact (hx.expect .semi).bind fun hsemi => .ok (hsemi.set (congrArg Stmt.ret hx.val))

theorem same_jumpStmt (kind : Jump) {here : Parsed Token src} {here' : Parsed Token src'}
    (h : here.Agree SameLex here') : Same Eq (jumpStmt kind here) (jumpStmt kind here') :=
  (h.expect .semi).bind fun hsemi => .ok (hsemi.set rfl)

theorem Blind.exprStmt {p : Parser Expr} (hp : Blind p) : Blind (exprStmt p) := by
  intro ts ts' h
  refine (hp.expression h).bind fun hx => ?_
  exact (hx.expect .semi).bind fun hsemi => .ok (hsemi.set (congrArg Stmt.expr hx.val))

theorem blind_statement (hv : ∀ scopes, Blind (value scopes)) (hs : ∀ scopes, Blind (stmt scopes))
    (scopes : Scopes) : Blind (statement value stmt scopes) := by
  intro ts ts' h
  have hexpr := ((hv scopes).exprStmt h).map fun s => (s, scopes)
  have hdecl := blind_localDecl hv scopes h
  have hblock := (blind_block hs scopes h).map fun s => (s, scopes)
  cases h with
  | nil => exact hexpr
  | cons k lex p p' h =>
    have here := agree_first k lex p p' h
    have hother := Same.ite (c := k.startsType = true) hdecl hexpr
    cases k with
    | lbrace => exact hblock
    | semi => exact .ok (here.set rfl)
    | kwReturn => exact ((hv scopes).returnStmt here).map _
    | kwIf => exact same_ifStmt hv hs scopes here
    | kwWhile => exact same_whileStmt hv hs scopes here
    | kwDo => exact same_doStmt hv hs scopes here
    | kwFor => exact same_forStmt hv hs scopes here
    | kwBreak | kwContinue => exact (same_jumpStmt _ here).map _
    | _ => exact hother

theorem blind_stmt (d : Nat) (scopes : Scopes) : Blind (Grammar.stmt d scopes) := by
  induction d generalizing scopes with
  | zero => exact fun _ _ _ => .error rfl
  | succ d ih =>
    intro ts ts' h
    rw [Grammar.stmt, Grammar.stmt]
    exact blind_statement (fun scopes => (blind_expr scopes d).1) ih scopes h

end Statements

/-! ### Files -/

section Files

variable {stmt : Declaring Stmt} {src src' : List Token}

/-- A token that may be missing is passed over in both lists, or in neither. -/
theorem agree_skip {α : Type} {R : α → α → Prop} {r : Parsed α src} {r' : Parsed α src'}
    (h : r.Agree R r') (k : Token.Kind) :
    (if peek r.rest = k then r.advance else r).Agree R
      (if peek r'.rest = k then r'.advance else r') := by
  rw [h.peek]
  split
  · exact h.advance
  · exact h

theorem same_param {type : Parsed DeclType src} {type' : Parsed DeclType src'}
    (h : type.Agree Eq type') : Same Eq (param type) (param type') := by
  have hamp := agree_skip h .amp
  have hname := agree_skip hamp .ident
  unfold param
  simp only [apply_ite Prod.fst, apply_ite Prod.snd]
  rw [hname.peek, hname.val]
  have hclosed := (agree_skip hname.advance .int).expect .rbrack
  refine .ite (hclosed.bind fun hend => .ok (hend.set ?_)) (.ok (hname.set ?_))
  · rw [hamp.peek, hamp.rest.peekLex]
  · rw [hamp.peek, hamp.rest.peekLex]

theorem blind_paramRound : BlindRound paramRound := by
  intro done ts ts' h
  cases h with
  | nil => exact .none
  | cons k lex p p' h =>
    rw [paramRound, paramRound]
    split
    · refine .some (((agree_first k lex p p' h).andThen blind_declType).bind fun ht => ?_)
      exact (same_param ht).map _
    · exact .none

theorem same_paramsFrom {type : Parsed DeclType src} {type' : Parsed DeclType src'}
    (h : type.Agree Eq type') : Same Eq (paramsFrom type) (paramsFrom type') := by
  refine (same_param h).bind fun hp => ?_
  exact ((hp.map _).chain blind_paramRound).map _

theorem same_params {α : Type} {R : α → α → Prop} {opened : Parsed α src} {opened' : Parsed α src'}
    (h : opened.Agree R opened') : Same Eq (params opened) (params opened') := by
  unfold params
  rw [h.peek]
  generalize peek opened'.rest = k
  cases k with
  | rparen => exact .ok (h.set rfl)
  | kwVoid =>
    dsimp only
    rw [h.advance.peek]
    refine .ite (.ok (h.advance.set rfl)) (same_paramsFrom ?_)
    exact (h.advance.set rfl).absorb star fun _ _ _ _ _ => rfl
  | _ => exact (h.andThen blind_declType).bind fun ht => same_paramsFrom ht

theorem same_func (hs : ∀ scopes, Blind (stmt scopes)) (ret : DeclType) (scopes : Scopes)
    {name : Parsed Token src} {name' : Parsed Token src'} (h : name.Agree SameLex name') :
    Same Eq (func stmt ret scopes name) (func stmt ret scopes name') := by
  unfold func
  rw [show name.val.lex = name'.val.lex from h.val]
  refine (h.expect .lparen).bind fun hopened => ?_
  refine (same_params hopened).bind fun hps => ?_
  refine (hps.expect .rparen).bind fun hclosed => ?_
  rw [hclosed.peek, hps.val]
  exact .ite (.ok (hclosed.advance.set rfl)) ((hclosed.andThen (blind_block hs _)).map _)

theorem blind_decl (limit : Nat) (scopes : Scopes) : Blind (decl limit scopes) := by
  intro ts ts' h
  unfold decl
  rw [h.peek]
  apply Same.ite
  · refine (blind_declType h).bind fun ht => ?_
    refine (ht.expect .ident).bind fun hname => ?_
    rw [hname.peek, ht.val]
    refine .ite ((same_func (blind_stmt limit) _ scopes hname).map _) ?_
    exact (same_declarators (fun scopes => (blind_expr scopes limit).1) _ scopes hname).map _
  · exact (blind_stmt limit scopes h).map _

theorem blind_fileRound (limit : Nat) : BlindRound (fileRound limit) := by
  rintro ⟨done, scopes⟩ ts ts' h
  have hdecl := blind_decl limit scopes h
  cases h with
  | nil => exact .none
  | cons k lex p p' h => exact .some (hdecl.map _)

end Files

/-! ### Texts -/

/-- The place of an error as it is shown in front of the message. -/
def Error.place (file : String) (e : Error) : String := s!"{file}:{e.pos.line}:{e.pos.col}: "

/-- Both texts have the same tree, or both are refused for the same cause, with one message behind
the place. What a check says of the tree is then the same. -/
structure ReadAlike (limit : Nat) (source source' : List Char) : Prop where
  outcome : (∃ ds, parse limit source = .ok ds ∧ parse limit source' = .ok ds) ∨
    ∃ e e' text, parse limit source = .error e ∧ parse limit source' = .error e' ∧
      e.cause = e'.cause ∧ ∀ file file', e.message file = e.place file ++ text ∧
        e'.message file' = e'.place file' ++ text
  diagnostics : ∀ o c, (parse limit source).toOption.map (Analysis.check o · c) =
    (parse limit source').toOption.map (Analysis.check o · c)

theorem message_eq_place (file : String) (e : Error) :
    e.message file = e.place file ++ e.cause.message e.limit := rfl

/-- The same tokens at other places give the same tree, or are refused for the same cause. -/
theorem parse_of_lexemes (limit : Nat) {source source' : List Char}
    (h : (Token.scan source).tokens.map Token.lexeme =
      (Token.scan source').tokens.map Token.lexeme) :
    (∃ ds, parse limit source = .ok ds ∧ parse limit source' = .ok ds) ∨
    ∃ e e', parse limit source = .error e ∧ parse limit source' = .error e' ∧
      e.limit = e'.limit ∧ e.cause = e'.cause := by
  have hlt (text : Token.Scanned) : text.tokens.length < (text.eof :: text.tokens).length :=
    Nat.lt_succ_self _
  have hsame := same_chain (blind_fileRound limit) ([], Scopes.file) (.of_lexemes h)
    (hlt (Token.scan source)) (hlt (Token.scan source'))
  unfold parse file
  dsimp only
  generalize chain (fileRound limit) ((Token.scan source).eof :: (Token.scan source).tokens)
    ([], Scopes.file) (Token.scan source).tokens _ = x at hsame ⊢
  generalize chain (fileRound limit) ((Token.scan source').eof :: (Token.scan source').tokens)
    ([], Scopes.file) (Token.scan source').tokens _ = x' at hsame ⊢
  cases hsame with
  | error hcause => exact .inr ⟨_, _, rfl, rfl, rfl, hcause⟩
  | @ok r r' hagree =>
    refine .inl ⟨r.val.1.reverse, rfl, ?_⟩
    rw [hagree.val]
    rfl

theorem readAlike_of_lexemes (limit : Nat) {source source' : List Char}
    (h : (Token.scan source).tokens.map Token.lexeme =
      (Token.scan source').tokens.map Token.lexeme) : ReadAlike limit source source' := by
  rcases parse_of_lexemes limit h with ⟨ds, hs, hs'⟩ | ⟨e, e', hs, hs', hlimit, hcause⟩
  · constructor
    · exact .inl ⟨ds, hs, hs'⟩
    · intro o c
      rw [hs, hs']
  · constructor
    · refine .inr ⟨e, e', e.cause.message e.limit, hs, hs', hcause, fun file file' => ?_⟩
      rw [message_eq_place, message_eq_place, hcause, hlimit]
      exact ⟨rfl, rfl⟩
    · intro o c
      rw [hs, hs']
      rfl

/-- Texts with the same lexemes are read alike. So are two layouts of the same lexemes, whatever
blanks, comments and `#` lines stand in their gaps. -/
theorem layout_irrelevant (limit : Nat) (source source' : List Char) :
    ((Token.scan source).tokens.map Token.lexeme = (Token.scan source').tokens.map Token.lexeme →
      ReadAlike limit source source') ∧
    ∀ ls, Token.LaidOut [] source ls → Token.LaidOut [] source' ls → Char.ofNat 0 ∉ source →
      Char.ofNat 0 ∉ source' → ReadAlike limit source source' := by
  constructor
  · exact readAlike_of_lexemes limit
  · intro ls h h' hnul hnul'
    apply readAlike_of_lexemes
    rw [h.lexemes hnul, h'.lexemes hnul']

theorem layout_irrelevant_at_comments :
    ReadAlike 9 "if(p)free(p);".toList "#x\nif ( p ) // y\n free/**/( p\n)\t;".toList ∧
    ReadAlike 0 "p;".toList "#x\np/**/;\n".toList := by
  have hlexemes : (Token.scan "if(p)free(p);".toList).tokens.map Token.lexeme =
      (Token.scan "#x\nif ( p ) // y\n free/**/( p\n)\t;".toList).tokens.map Token.lexeme := by
    decide +kernel
  have hdense : Token.LaidOut [] ['p', ';'] [⟨.ident, "p"⟩, ⟨.semi, ";"⟩] :=
    .lexeme 'p' [] rfl rfl (.lexeme ';' [] rfl rfl (.done _))
  have hloose : Token.LaidOut [] ['#', 'x', '\n', 'p', '/', '*', '*', '/', ';', '\n']
      [⟨.ident, "p"⟩, ⟨.semi, ";"⟩] := by
    have hline (rest : List Char) : Token.Skippable [] ['#', 'x'] ('\n' :: rest) :=
      .directive (fun _ hc => (List.not_mem_nil hc).elim) (by decide) (.line rest)
    have hbreak (before rest : List Char) : Token.Skippable before ['\n'] rest := .blank rfl
    have hcomment (before rest : List Char) : Token.Skippable before ['/', '*', '*', '/'] rest :=
      @Token.Skippable.comment before [] rest (by decide)
    refine .gap (hline _) (.gap (hbreak _ _) (.lexeme 'p' [] rfl rfl (.gap (hcomment _ _) ?_)))
    exact .lexeme ';' [] rfl rfl (.gap (hbreak _ _) (.done _))
  exact ⟨(layout_irrelevant 9 _ _).1 hlexemes,
    (layout_irrelevant 0 _ _).2 _ hdense hloose (by decide) (by decide)⟩

end MemLint.Grammar
