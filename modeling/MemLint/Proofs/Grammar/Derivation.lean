import MemLint.Proofs.Grammar.ExprRules

/-! The grammar without a parser. A phrase is derived from tokens of which each is marked with its
use; levels of nesting, scopes and tokens to look ahead at play no part. Whatever the productions
for expressions give is derived from exactly the tokens they take. -/

namespace MemLint.Grammar

/-- What a token is used for. -/
inductive Use where
  /-- A name that stands for something in the tree. -/
  | kept
  /-- A name in a part of an expression that leaves no trace in the tree. -/
  | dropped
  /-- No name of an operand. -/
  | other
  deriving DecidableEq, Repr

/-- A token with its use. -/
structure Mark where
  token : Token
  use : Use
  deriving DecidableEq, Repr

namespace Mark

/-- A token that is no name of an operand. -/
def other (t : Token) : Mark := ⟨t, .other⟩

/-- The token in a part that leaves no trace. -/
def drop (m : Mark) : Mark :=
  match m.use with
  | .kept => ⟨m.token, .dropped⟩
  | _ => m

theorem token_drop (m : Mark) : m.drop.token = m.token := by
  unfold drop
  split <;> rfl

theorem tokens_drop (us : List Mark) : (us.map drop).map token = us.map token := by
  rw [List.map_map]
  exact List.map_congr_left fun m _ => token_drop m

theorem tokens_other (ts : List Token) : (ts.map other).map token = ts := by
  rw [List.map_map]
  exact List.map_id ts

end Mark

/-- The tokens of a type: qualifiers, a first word, further words, and stars. -/
def TypeText (ts : List Token) (type : DeclType) : Prop :=
  ∃ qs t ws ss b b', ts = qs ++ t :: (ws ++ ss) ∧ qs.foldlM qualifier () = some () ∧
    DeclType.Base.ofKind? t.kind = some b ∧ ws.foldlM specifier b = some b' ∧
    ss.foldlM star (.base b') = some type

/-- What can be derived from tokens, one kind of phrase for each rank of the grammar. -/
inductive Phrase where
  /-- A name, a literal or an expression in parentheses, with what is applied to it. -/
  | operand (e : Expr)
  /-- Unary expressions joined by operators of the levels. -/
  | joined (ls : List Level) (e : Expr)
  /-- Perhaps an assignment. -/
  | value (e : Expr)
  /-- Values with commas between them. -/
  | expr (e : Expr)
  /-- The items of a list. -/
  | items (es : List Expr)
  /-- The initialiser of an array with so many elements. -/
  | init (n : Nat)

inductive Derives : List Mark → Phrase → Prop where
  | name {t : Token} {e : Expr} (ht : t.kind = .ident) (he : e.name? = some t.lex) :
      Derives [⟨t, .kept⟩] (.operand e)
  | number {t : Token} {v : Int} (hv : literal? t = some v) :
      Derives [.other t] (.operand (.intLit v))
  | string {t : Token} {ts : List Token} {s : String} (ht : t.kind = .string)
      (hs : ts.foldlM stringPart t.lex = some s) :
      Derives ((t :: ts).map .other) (.operand (.stringLit s))
  | null {t : Token} (ht : t.kind = .kwNullptr) : Derives [.other t] (.operand (.ident "nullptr"))
  | group {o c : Token} {us : List Mark} {e : Expr} (ho : o.kind = .lparen)
      (he : Derives us (.expr e)) (hc : c.kind = .rparen) :
      Derives (.other o :: (us ++ [.other c])) (.operand e)
  | call {o c : Token} {us vs : List Mark} {x : Expr} {f : String} {args : List Expr}
      (hx : Derives us (.operand x)) (hf : x.name? = some f) (ho : o.kind = .lparen)
      (hargs : Derives vs (.items args)) (hc : c.kind = .rparen) :
      Derives (us ++ .other o :: (vs ++ [.other c])) (.operand (.call f args))
  | index {o c : Token} {us vs : List Mark} {x i : Expr} {name : String}
      (hx : Derives us (.operand x)) (hn : x.name? = some name) (ho : o.kind = .lbrack)
      (hi : Derives vs (.expr i)) (hc : c.kind = .rbrack) :
      Derives (us ++ .other o :: (vs ++ [.other c])) (.operand (.index name i))
  | stepAfter {t : Token} {us : List Mark} {op : BinOp} {x : Expr} (hx : Derives us (.operand x))
      (ht : stepOp? t.kind = some op) (ha : x.assignable) :
      Derives (us ++ [.other t]) (.operand (stepped op x))
  | unary {us : List Mark} {e : Expr} (h : Derives us (.operand e)) : Derives us (.joined [] e)
  | stepBefore {t : Token} {us : List Mark} {op : BinOp} {x : Expr} (ht : stepOp? t.kind = some op)
      (hx : Derives us (.joined [] x)) (ha : x.assignable) :
      Derives (.other t :: us) (.joined [] (stepped op x))
  | signed {t : Token} {us : List Mark} {f : Expr → Expr} {x : Expr} (ht : prefixOp? t.kind = some f)
      (hx : Derives us (.joined [] x)) : Derives (.other t :: us) (.joined [] (f x))
  | cast {o c : Token} {ts : List Token} {us : List Mark} {type : DeclType} {x : Expr}
      (ho : o.kind = .lparen) (ht : TypeText ts type) (hc : c.kind = .rparen)
      (hx : Derives us (.joined [] x)) :
      Derives (.other o :: (ts.map .other ++ .other c :: us)) (.joined [] x)
  | new {t : Token} {ts : List Token} {type : DeclType} (ht : t.kind = .kwNew)
      (hts : TypeText ts type) : Derives (.other t :: ts.map .other) (.joined [] (.call "new" []))
  | newSized {t o c : Token} {ts : List Token} {us : List Mark} {type : DeclType} {size : Expr}
      (ht : t.kind = .kwNew) (hts : TypeText ts type) (ho : o.kind = .lbrack)
      (hs : Derives us (.expr size)) (hc : c.kind = .rbrack) :
      Derives (.other t :: (ts.map .other ++ .other o :: (us ++ [.other c])))
        (.joined [] (.call "new" [size]))
  | newFilled {t o c : Token} {ts : List Token} {us vs : List Mark} {type : DeclType} {size : Expr}
      {n : Nat} (ht : t.kind = .kwNew) (hts : TypeText ts type) (ho : o.kind = .lbrack)
      (hs : Derives us (.expr size)) (hc : c.kind = .rbrack) (hn : Derives vs (.init n)) :
      Derives (.other t :: (ts.map .other ++ .other o :: (us ++ .other c :: vs)))
        (.joined [] (.call "new" [size]))
  | newArgs {t o c : Token} {ts : List Token} {us : List Mark} {type : DeclType} {args : List Expr}
      (ht : t.kind = .kwNew) (hts : TypeText ts type) (ho : o.kind = .lparen)
      (hargs : Derives us (.items args)) (hc : c.kind = .rparen) :
      Derives (.other t :: (ts.map .other ++ .other o :: (us ++ [.other c])))
        (.joined [] (.call "new" args))
  | delete {t : Token} {us : List Mark} {x : Expr} (ht : t.kind = .kwDelete)
      (hx : Derives us (.joined [] x)) : Derives (.other t :: us) (.joined [] (.call "delete" [x]))
  | deleteArray {t o c : Token} {us : List Mark} {x : Expr} (ht : t.kind = .kwDelete)
      (ho : o.kind = .lbrack) (hc : c.kind = .rbrack) (hx : Derives us (.joined [] x)) :
      Derives (.other t :: .other o :: .other c :: us) (.joined [] (.call "delete" [x]))
  | sizeof {t : Token} {us : List Mark} {x : Expr} (ht : t.kind = .kwSizeof)
      (hx : Derives us (.joined [] x)) : Derives (.other t :: us) (.joined [] (.call "sizeof" [x]))
  | sizeofType {t o c : Token} {ts : List Token} {type : DeclType} (ht : t.kind = .kwSizeof)
      (ho : o.kind = .lparen) (hts : TypeText ts type) (hc : c.kind = .rparen) :
      Derives (.other t :: .other o :: (ts.map .other ++ [.other c])) (.joined [] (.call "sizeof" []))
  | tighter {level : Level} {ls : List Level} {us : List Mark} {e : Expr}
      (h : Derives us (.joined ls e)) : Derives us (.joined (level :: ls) e)
  | binary {level : Level} {ls : List Level} {t : Token} {us vs : List Mark} {op : BinOp}
      {left right : Expr} (hl : Derives us (.joined (level :: ls) left))
      (ht : level t.kind = some op) (hr : Derives vs (.joined ls right)) :
      Derives (us ++ .other t :: vs) (.joined (level :: ls) (.binary op left right))
  | plain {us : List Mark} {e : Expr} (h : Derives us (.joined levels e)) : Derives us (.value e)
  | assign {t : Token} {us vs : List Mark} {op? : Option BinOp} {x v : Expr}
      (hx : Derives us (.joined levels x)) (ha : x.assignable) (ht : assignOp? t.kind = some op?)
      (hv : Derives vs (.value v)) : Derives (us ++ .other t :: vs) (.value (assignWith op? x v))
  | single {us : List Mark} {e : Expr} (h : Derives us (.value e)) : Derives us (.expr e)
  /-- Of operands with commas between them only the last one is kept. -/
  | comma {t : Token} {us vs : List Mark} {x e : Expr} (hx : Derives us (.expr x))
      (ht : t.kind = .comma) (he : Derives vs (.value e)) :
      Derives (us.map .drop ++ .other t :: vs) (.expr e)
  | noItem : Derives [] (.items [])
  | lastItem {us : List Mark} {x : Expr} (h : Derives us (.value x)) : Derives us (.items [x])
  | nextItem {t : Token} {us vs : List Mark} {x : Expr} {xs : List Expr} (hx : Derives us (.value x))
      (ht : t.kind = .comma) (hxs : Derives vs (.items xs)) :
      Derives (us ++ .other t :: vs) (.items (x :: xs))
  | stringInit {t : Token} (ht : t.kind = .string) :
      Derives [.other t] (.init (t.lex.utf8ByteSize + 1))
  /-- The elements of an initialiser are only counted. -/
  | braces {o c : Token} {us : List Mark} {xs : List Expr} (ho : o.kind = .lbrace)
      (hxs : Derives us (.items xs)) (hc : c.kind = .rbrace) :
      Derives (.other o :: (us.map .drop ++ [.other c])) (.init xs.length)

/-! ### The tokens that a production takes -/

/-- The marks are on the tokens from `ts` up to `rest`. -/
def Spans (ts : List Token) (us : List Mark) (rest : List Token) : Prop :=
  ts = us.map Mark.token ++ rest

namespace Spans

variable {ts mid rest : List Token} {us vs : List Mark}

theorem nil (ts : List Token) : Spans ts [] ts := rfl

theorem cons (m : Mark) (h : Spans ts us rest) : Spans (m.token :: ts) (m :: us) rest :=
  congrArg (m.token :: ·) h

theorem one (m : Mark) (ts : List Token) : Spans (m.token :: ts) [m] ts := rfl

theorem append (h : Spans ts us mid) (h' : Spans mid vs rest) : Spans ts (us ++ vs) rest := by
  unfold Spans at *
  rw [h, h', List.map_append, List.append_assoc]

theorem drop (h : Spans ts us rest) : Spans ts (us.map Mark.drop) rest := by
  unfold Spans at *
  rw [Mark.tokens_drop]
  exact h

theorem other (part rest : List Token) : Spans (part ++ rest) (part.map Mark.other) rest := by
  unfold Spans
  rw [Mark.tokens_other]

end Spans

/-- The tokens from `ts` up to `rest` can be marked so that the phrase is derived from them. -/
def Derivable (ts : List Token) (ph : Phrase) (rest : List Token) : Prop :=
  ∃ us, Spans ts us rest ∧ Derives us ph

theorem absorb_eq {α : Type} (step : α → Token → Option α) (a : α) (ts : List Token) :
    ∃ part, ts = part ++ (absorb step a ts).2 ∧ part.foldlM step a = some (absorb step a ts).1 := by
  induction ts generalizing a with
  | nil => exact ⟨[], rfl, rfl⟩
  | cons t ts ih =>
    rw [absorb]
    cases hs : step a t with
    | none => exact ⟨[], rfl, rfl⟩
    | some b =>
      obtain ⟨part, hp, hv⟩ := ih b
      exact ⟨t :: part, congrArg (t :: ·) hp, by simp [hs, hv]⟩

theorem typeText_of_gives {ts rest : List Token} {type : DeclType}
    (h : Gives (declType ts) type rest) : ∃ part, ts = part ++ rest ∧ TypeText part type := by
  obtain ⟨t, mid, b, words, hq, hb, rfl, hs⟩ := gives_declType.1 h
  obtain ⟨qs, hqs, hqv⟩ := absorb_eq qualifier () ts
  obtain ⟨ws, hws, hwv⟩ := absorb_eq specifier b mid
  obtain ⟨ss, hss, hsv⟩ := absorb_eq star (.base (absorb specifier b mid).1) (absorb specifier b mid).2
  rw [hs] at hss hsv
  refine ⟨qs ++ t :: (ws ++ ss), ?_, qs, t, ws, ss, b, _, rfl, hqv, hb, hwv, hsv⟩
  rw [hq, hws, hss] at hqs
  simpa using hqs

/-! ### Expressions -/

variable {assign unary item : Parser Expr} {ts mid rest : List Token} {e x : Expr}

/-- Whatever the production gives is derived from the tokens it takes. -/
def Derived (p : Parser Expr) (k : Expr → Phrase) : Prop :=
  ∀ ⦃ts e rest⦄, Gives (p ts) e rest → Derivable ts (k e) rest

theorem Derived.binary (hu : Derived unary (.joined [])) (ls : List Level) :
    Derived (binary unary ls) (.joined ls) := by
  induction ls with
  | nil => exact hu
  | cons level tighter ih =>
    intro ts e rest h
    obtain ⟨left, mid, hl, hr⟩ := gives_binary_cons.1 h
    obtain ⟨us, hus, hleft⟩ := ih hl
    apply hr.preserve (P := fun e rest => Derivable ts (.joined (level :: tighter) e) rest)
    · rintro left mid e rest hs ⟨us, hus, hleft⟩
      obtain ⟨t, mid, op, right, rfl, hop, hright, rfl⟩ := step_binaryRound.1 hs
      obtain ⟨vs, hvs, hright⟩ := ih hright
      exact ⟨_, hus.append (hvs.cons (.other t)), .binary hleft hop hright⟩
    · exact ⟨us, hus, .tighter hleft⟩

theorem Derived.assignment (hu : Derived unary (.joined [])) (ha : Derived assign .value) :
    Derived (assignment unary assign) .value := by
  intro ts e rest h
  cases gives_assignment.1 h with
  | plain he _ =>
    obtain ⟨us, hus, he⟩ := hu.binary levels he
    exact ⟨us, hus, .plain he⟩
  | @assign left v t mid rest op? hl ho hleft hv =>
    obtain ⟨us, hus, hl⟩ := hu.binary levels hl
    obtain ⟨vs, hvs, hv⟩ := ha hv
    exact ⟨_, hus.append (hvs.cons (.other t)), .assign hl hleft ho hv⟩

theorem Derived.expression (ha : Derived assign .value) : Derived (expression assign) .expr := by
  intro ts e rest h
  obtain ⟨first, mid, hf, hr⟩ := gives_expression.1 h
  obtain ⟨us, hus, hfirst⟩ := ha hf
  apply hr.preserve (P := fun e rest => Derivable ts (.expr e) rest)
  · rintro x mid e rest hs ⟨us, hus, hx⟩
    obtain ⟨t, mid, rfl, ht, he⟩ := step_commaRound.1 hs
    obtain ⟨vs, hvs, he⟩ := ha he
    exact ⟨_, hus.drop.append (hvs.cons (.other t)), .comma hx ht he⟩
  · exact ⟨us, hus, .single hfirst⟩

/-- The rounds of a list add its items in front of those that are done. -/
theorem derivable_of_itemRounds (hi : Derived item .value) {close : Token.Kind}
    {done done' : List Expr} (h : Rounds (itemRound close item) done ts done' rest) :
    ∃ xs, done' = xs.reverse ++ done ∧ Derivable ts (.items xs) rest := by
  induction h with
  | stop _ => exact ⟨[], rfl, [], .nil _, .noItem⟩
  | next hs tail ih =>
    obtain ⟨xs, hxs, vs, hvs, hitems⟩ := ih
    obtain ⟨-, hs⟩ := step_itemRound.1 hs
    cases hs with
    | @comma x t _ hx ht =>
      obtain ⟨us, hus, hx⟩ := hi hx
      refine ⟨x :: xs, by simp [hxs], _, hus.append (hvs.cons (.other t)), .nextItem hx ht hitems⟩
    | @last x _ hx hclose _ =>
      obtain ⟨us, hus, hx⟩ := hi hx
      -- in front of the closing token there is no further round
      cases tail with
      | stop _ => exact ⟨[x], rfl, us, hus, .lastItem hx⟩
      | next hs _ => exact ((step_itemRound.1 hs).1 hclose).elim

theorem derivable_of_listed (hi : Derived item .value) {close : Token.Kind} {xs : List Expr}
    (h : Listed close item ts xs rest) :
    ∃ c us, Spans ts us (c :: rest) ∧ Derives us (.items xs) ∧ c.kind = close := by
  obtain ⟨done, c, hr, hc, rfl⟩ := h
  obtain ⟨xs, rfl, us, hus, hitems⟩ := derivable_of_itemRounds hi hr
  refine ⟨c, us, hus, ?_, hc⟩
  simpa using hitems

theorem derivable_of_initList (ha : Derived assign .value) {n : Nat}
    (h : Gives (initList assign ts) n rest) : Derivable ts (.init n) rest := by
  cases gives_initList.1 h with
  | @string t _ ht => exact ⟨_, .one (.other t) _, .stringInit ht⟩
  | @braces o _ _ _ ho hxs =>
    obtain ⟨c, us, hus, hxs, hc⟩ := derivable_of_listed ha hxs
    exact ⟨_, (hus.drop.append (.one (.other c) _)).cons (.other o), .braces ho hxs hc⟩

theorem derivable_of_primary {scopes : Scopes} (h : PrimaryRule scopes ts e rest) :
    Derivable ts (.operand e) rest := by
  cases h with
  | @name t _ ht =>
    refine ⟨_, .one ⟨t, .kept⟩ _, .name ht ?_⟩
    unfold Scopes.ref
    split <;> rfl
  | @number t _ v hv => exact ⟨_, .one (.other t) _, .number hv⟩
  | @string t ts ht =>
    obtain ⟨part, hpart, hs⟩ := absorb_eq stringPart t.lex ts
    refine ⟨(t :: part).map .other, ?_, .string ht hs⟩
    have h := Spans.other (t :: part) (absorb stringPart t.lex ts).2
    rwa [List.cons_append, ← hpart] at h
  | @null t _ ht => exact ⟨_, .one (.other t) _, .null ht⟩

theorem derivable_of_postfixRounds (ha : Derived assign .value)
    (hx : Derivable ts (.operand x) mid) (hr : Rounds (postfixRound assign) x mid e rest) :
    Derivable ts (.operand e) rest := by
  apply hr.preserve (P := fun e rest => Derivable ts (.operand e) rest)
  · rintro x mid e rest hs ⟨us, hus, hx⟩
    cases step_postfixRound.1 hs with
    | @call o _ _ f args ho hf hargs =>
      obtain ⟨c, vs, hvs, hargs, hc⟩ := derivable_of_listed ha hargs
      exact ⟨_, hus.append ((hvs.append (.one (.other c) _)).cons (.other o)),
        .call hx hf ho hargs hc⟩
    | @index o c _ _ name i ho hn hi hc =>
      obtain ⟨vs, hvs, hi⟩ := ha.expression hi
      exact ⟨_, hus.append ((hvs.append (.one (.other c) _)).cons (.other o)),
        .index hx hn ho hi hc⟩
    | @step t _ op ht hassign => exact ⟨_, hus.append (.one (.other t) _), .stepAfter hx ht hassign⟩
  · exact hx

theorem derivable_of_newCall (ha : Derived assign .value) {t : Token} (ht : t.kind = .kwNew)
    (h : NewRule assign ts e rest) : Derivable (t :: ts) (.joined [] e) rest := by
  cases h with
  | bare hd _ _ =>
    obtain ⟨part, rfl, hpart⟩ := typeText_of_gives hd
    exact ⟨_, (Spans.other part rest).cons (.other t), .new ht hpart⟩
  | @sized _ o c mid _ size hd ho hs hc _ =>
    obtain ⟨part, rfl, hpart⟩ := typeText_of_gives hd
    obtain ⟨us, hus, hs⟩ := ha.expression hs
    have hsize := (hus.append (.one (.other c) _)).cons (.other o)
    exact ⟨_, ((Spans.other part _).append hsize).cons (.other t), .newSized ht hpart ho hs hc⟩
  | @filled _ o c mid _ _ size n hd ho hs hc _ hn =>
    obtain ⟨part, rfl, hpart⟩ := typeText_of_gives hd
    obtain ⟨us, hus, hs⟩ := ha.expression hs
    obtain ⟨vs, hvs, hn⟩ := derivable_of_initList ha hn
    have hsize := (hus.append (hvs.cons (.other c))).cons (.other o)
    exact ⟨_, ((Spans.other part _).append hsize).cons (.other t), .newFilled ht hpart ho hs hc hn⟩
  | @args _ o mid _ args hd ho hargs =>
    obtain ⟨part, rfl, hpart⟩ := typeText_of_gives hd
    obtain ⟨c, us, hus, hargs, hc⟩ := derivable_of_listed ha hargs
    have hlist := (hus.append (.one (.other c) _)).cons (.other o)
    exact ⟨_, ((Spans.other part _).append hlist).cons (.other t), .newArgs ht hpart ho hargs hc⟩

theorem derivable_of_deleteCall (hu : Derived unary (.joined [])) {t : Token}
    (ht : t.kind = .kwDelete) (h : DeleteRule unary ts e rest) :
    Derivable (t :: ts) (.joined [] e) rest := by
  cases h with
  | plain _ hx =>
    obtain ⟨us, hus, hx⟩ := hu hx
    exact ⟨_, hus.cons (.other t), .delete ht hx⟩
  | @array o c _ _ _ ho hc hx =>
    obtain ⟨us, hus, hx⟩ := hu hx
    exact ⟨_, ((hus.cons (.other c)).cons (.other o)).cons (.other t), .deleteArray ht ho hc hx⟩

theorem derivable_of_sizeofCall (ha : Derived assign .value) (hu : Derived unary (.joined []))
    {t : Token} (ht : t.kind = .kwSizeof) (h : SizeofRule assign unary ts e rest) :
    Derivable (t :: ts) (.joined [] e) rest := by
  cases h with
  | @type o c _ _ _ ho _ hd hc =>
    obtain ⟨part, rfl, hpart⟩ := typeText_of_gives hd
    have htype := (Spans.other part _).append (.one (.other c) rest)
    exact ⟨_, (htype.cons (.other o)).cons (.other t), .sizeofType ht ho hpart hc⟩
  | @paren o c _ _ _ ho _ hx hc =>
    obtain ⟨us, hus, hx⟩ := ha.expression hx
    have hgroup := (hus.append (.one (.other c) rest)).cons (.other o)
    exact ⟨_, hgroup.cons (.other t), .sizeof ht (.unary (.group ho hx hc))⟩
  | operand _ hx =>
    obtain ⟨us, hus, hx⟩ := hu hx
    exact ⟨_, hus.cons (.other t), .sizeof ht hx⟩

theorem derivable_of_parenthesized (ha : Derived assign .value) (hu : Derived unary (.joined []))
    {o : Token} (ho : o.kind = .lparen) (h : ParenRule assign unary ts e rest) :
    Derivable (o :: ts) (.joined [] e) rest := by
  cases h with
  | @cast c _ _ _ _ _ hd hc he =>
    obtain ⟨part, rfl, hpart⟩ := typeText_of_gives hd
    obtain ⟨us, hus, he⟩ := hu he
    have hrest := (Spans.other part _).append (hus.cons (.other c))
    exact ⟨_, hrest.cons (.other o), .cast ho hpart hc he⟩
  | @group c mid _ x _ _ hx hc hr =>
    obtain ⟨us, hus, hx⟩ := ha.expression hx
    have hgroup : Derivable (o :: ts) (.operand x) mid :=
      ⟨_, (hus.append (.one (.other c) _)).cons (.other o), .group ho hx hc⟩
    obtain ⟨vs, hvs, he⟩ := derivable_of_postfixRounds ha hgroup hr
    exact ⟨vs, hvs, .unary he⟩

theorem Derived.unaryForm {scopes : Scopes} (ha : Derived assign .value)
    (hu : Derived unary (.joined [])) : Derived (unaryForm scopes assign unary) (.joined []) := by
  intro ts e rest h
  cases gives_unaryForm.1 h with
  | @signed t _ _ f x hf hx =>
    obtain ⟨us, hus, hx⟩ := hu hx
    exact ⟨_, hus.cons (.other t), .signed hf hx⟩
  | @stepped t _ _ op x ht hx hassign =>
    obtain ⟨us, hus, hx⟩ := hu hx
    exact ⟨_, hus.cons (.other t), .stepBefore ht hx hassign⟩
  | new ht hn => exact derivable_of_newCall ha ht hn
  | delete ht hd => exact derivable_of_deleteCall hu ht hd
  | sizeof ht hs => exact derivable_of_sizeofCall ha hu ht hs
  | paren ht hp => exact derivable_of_parenthesized ha hu ht hp
  | operand hx hr =>
    obtain ⟨us, hus, he⟩ := derivable_of_postfixRounds ha (derivable_of_primary hx) hr
    exact ⟨us, hus, .unary he⟩

/-- What the expression productions give is derived from the tokens they take, whatever the scopes
and however many levels are left. -/
theorem derived (scopes : Scopes) (d : Nat) :
    Derived (Grammar.assign scopes d) .value ∧ Derived (Grammar.unary scopes d) (.joined []) := by
  induction d with
  | zero =>
    exact ⟨fun _ _ _ h => (not_gives_assign_zero h).elim,
      fun _ _ _ h => (not_gives_unary_zero h).elim⟩
  | succ d ih =>
    constructor
    · intro ts e rest h
      rw [Grammar.assign] at h
      exact ih.2.assignment ih.1 h
    · intro ts e rest h
      rw [Grammar.unary] at h
      exact ih.1.unaryForm ih.2 h

end MemLint.Grammar
