import Mathlib.Algebra.Order.BigOperators.Group.List
import MemLint.Proofs.Grammar.Compound
import MemLint.Proofs.Grammar.Growth
import MemLint.Proofs.Grammar.IntegerTokens
import MemLint.Proofs.Numeral.Bases
import MemLint.Proofs.Token.Cover

/-! The literals of a tree fit a signed word of 64 bits, with the lowest word left out, so that a
sign in front of a literal can be folded into it in words. What does not fit is refused where it is
read. -/

namespace MemLint

/-- No literal is further from zero than the bound. -/
def NodeRule.literalsWithin (bound : Nat) : NodeRule where
  expr
    | .intLit v => v.natAbs ≤ bound
    | _ => True

/-! ### Sizes of texts -/

namespace Token

/-- The number of bytes of a text. -/
def byteSize (text : List Char) : Nat := (String.ofList text).utf8ByteSize

theorem byteSize_cons (c : Char) (text : List Char) :
    byteSize (c :: text) = c.utf8Size + byteSize text := by
  rw [byteSize, String.ofList_cons, String.utf8ByteSize_append, String.utf8ByteSize_singleton]
  rfl

theorem byteSize_append (text more : List Char) :
    byteSize (text ++ more) = byteSize text + byteSize more := by
  rw [byteSize, String.ofList_append, String.utf8ByteSize_append]
  rfl

theorem byteSize_seen (text : List Char) : byteSize (seen text) ≤ byteSize text := by
  obtain ⟨more, hmore⟩ := List.takeWhile_prefix (l := text) (· ≠ Char.ofNat 0)
  have hsize := byteSize_append (seen text) more
  rw [seen, hmore] at hsize
  exact hsize ▸ Nat.le_add_right _ _

theorem utf8Size_escaped (c : Char) : (escaped c).utf8Size ≤ c.utf8Size := by
  unfold escaped
  split
  case h_4 => exact Nat.le_refl _
  all_goals decide

/-- What the inside of a literal stands for is no longer than the inside. -/
theorem Inside.byteSize_le {quote : Char} {text meant : List Char} (h : Inside quote text meant) :
    byteSize meant ≤ byteSize text := by
  induction h with
  | nil => exact Nat.le_refl _
  | escape c _ ih =>
    have hc := utf8Size_escaped c
    simp only [byteSize_cons]
    omega
  | plain _ _ _ _ ih =>
    simp only [byteSize_cons]
    omega

/-- What a token counts for in the initialiser of an array: one, and a string its bytes as well. -/
def weight (t : Token) : Nat := if t.kind = .string then t.lex.utf8ByteSize + 1 else 1

theorem weight_pos (t : Token) : 1 ≤ t.weight := by
  unfold weight
  split <;> omega

theorem Stands.weight_le {t : Token} {text rest : List Char} (h : Stands t text rest)
    (hne : text ≠ []) : t.weight ≤ byteSize text := by
  unfold weight
  split
  next hk =>
    simp only [Stands, hk] at h
    obtain ⟨inside, final, rfl, hin, -⟩ := h
    have hsize := hin.byteSize_le
    have hquote : Char.utf8Size '"' = 1 := by decide
    have hlex : byteSize t.lex.toList = t.lex.utf8ByteSize := by rw [byteSize, String.ofList_toList]
    rw [byteSize_cons, byteSize_append]
    omega
  next =>
    obtain ⟨c, cs, rfl⟩ := List.exists_cons_of_ne_nil hne
    have hpos := c.utf8Size_pos
    rw [byteSize_cons]
    omega

theorem Covered.weight_le {before text : List Char} {ts : List Token}
    (h : Covered before text ts) : (ts.map weight).sum ≤ byteSize text := by
  induction h with
  | done => exact Nat.le_refl _
  | skip _ _ ih =>
    rw [byteSize_append]
    omega
  | token hne hs _ _ ih =>
    have hw := hs.weight_le hne
    rw [byteSize_append, List.map_cons, List.sum_cons]
    omega

/-- The tokens of a text weigh no more than its bytes. -/
theorem weight_scan_le (text : List Char) :
    ((scan text).tokens.map weight).sum ≤ byteSize text := by
  have hp : Pos.start = Pos.start.after [] := rfl
  have hf : true = freshAfter true [] := rfl
  obtain ⟨ts, hts, -, hcov⟩ := scanFrom_covers [] hp hf (seen text)
  rw [scan_seen, hts]
  exact Nat.le_trans hcov.weight_le (byteSize_seen text)

end Token

namespace Grammar

open Numeral (maxInt64)

variable {b : Nat} {all ts : List Token} {us vs : List Mark} {t : Token}

/-! ### Tokens of a text -/

/-- The marks are on some of the tokens, in their order. -/
def MarksOf (all : List Token) (us : List Mark) : Prop := (us.map Mark.token).Sublist all

namespace MarksOf

theorem tail {m : Mark} (h : MarksOf all (m :: us)) : MarksOf all us :=
  List.Sublist.trans (List.sublist_cons_self _ _) h

theorem left (h : MarksOf all (us ++ vs)) : MarksOf all us := by
  unfold MarksOf at *
  rw [List.map_append] at h
  exact (List.sublist_append_left _ _).trans h

theorem right (h : MarksOf all (us ++ vs)) : MarksOf all vs := by
  unfold MarksOf at *
  rw [List.map_append] at h
  exact (List.sublist_append_right _ _).trans h

theorem of_spans {rest : List Token} (h : Spans ts us rest) : MarksOf ts us := by
  unfold MarksOf
  rw [h]
  exact List.sublist_append_left _ _

theorem weight_le (h : MarksOf all us) :
    ((us.map Mark.token).map Token.weight).sum ≤ (all.map Token.weight).sum :=
  (h.map Token.weight).sum_le_sum fun _ _ => Nat.zero_le _

end MarksOf

/-- No number on the tokens is further from zero than the bound. -/
def NumbersWithin (b : Nat) (all : List Token) : Prop :=
  ∀ t ∈ all, ∀ v, literal? t = some v → v.natAbs ≤ b

/-! ### Expressions -/

section Expressions

variable {e x v : Expr}

theorem within_of_name {n : String} (h : e.name? = some n) : e.Every (.literalsWithin b) := by
  unfold Expr.name? at h
  split at h <;> cases h <;> trivial

theorem within_prefixOp (hb : 1 ≤ b) {k : Token.Kind} {f : Expr → Expr} (hf : prefixOp? k = some f)
    (hx : x.Every (.literalsWithin b)) : (f x).Every (.literalsWithin b) := by
  unfold prefixOp? at hf
  split at hf <;> cases hf
  case h_1 => exact ⟨trivial, hx⟩
  case h_2 =>
    unfold addressOf
    split
    · trivial
    · exact hx
  case h_3 =>
    unfold negate
    split
    next v =>
      show (-v).natAbs ≤ b
      rw [Int.natAbs_neg]
      exact hx
    next => exact ⟨trivial, Nat.zero_le b, hx⟩
  case h_4 => exact hx
  case h_5 => exact ⟨trivial, hx, Nat.zero_le b⟩
  case h_6 => exact ⟨trivial, hb, hx⟩

theorem within_assignWith {op? : Option BinOp} (hx : x.Every (.literalsWithin b))
    (hv : v.Every (.literalsWithin b)) : (assignWith op? x v).Every (.literalsWithin b) := by
  cases op? with
  | none => exact ⟨trivial, hx, hv⟩
  | some op => exact ⟨trivial, hx, trivial, hx, hv⟩

theorem within_call {f : String} {args : List Expr}
    (h : ∀ a ∈ args, a.Every (.literalsWithin b)) : (Expr.call f args).Every (.literalsWithin b) :=
  ⟨trivial, Expr.everyOf_iff.2 h⟩

end Expressions

def Phrase.Within (b : Nat) : Phrase → Prop
  | .operand e | .joined _ e | .value e | .expr e => e.Every (.literalsWithin b)
  | .items es => ∀ e ∈ es, e.Every (.literalsWithin b)
  | .init _ => True

/-- The literals of what is derived are numbers on its tokens, up to their signs, or come with an
operator. -/
theorem Derives.within {ph : Phrase} (h : Derives us ph) (hb : 1 ≤ b) (hall : NumbersWithin b all)
    (hus : MarksOf all us) : ph.Within b := by
  induction h with
  | name _ he => exact within_of_name he
  | @number t v hv => exact hall t (List.singleton_sublist.1 hus) v hv
  | string _ _ | null _ | stringInit _ | braces _ _ _ _ => trivial
  | group _ _ _ ih => exact ih hus.tail.left
  | call _ _ _ _ _ _ ih => exact within_call (ih hus.right.tail.left)
  | index _ _ _ _ _ _ ih => exact ⟨trivial, ih hus.right.tail.left⟩
  | stepAfter _ _ _ ih => exact within_assignWith (ih hus.left) hb
  | unary _ ih | tighter _ ih | plain _ ih | single _ ih => exact ih hus
  | stepBefore _ _ _ ih => exact within_assignWith (ih hus.tail) hb
  | signed ht _ ih => exact within_prefixOp hb ht (ih hus.tail)
  | cast _ _ _ _ ih => exact ih hus.tail.right.tail
  | new _ _ | sizeofType _ _ _ _ => exact within_call nofun
  | newSized _ _ _ _ _ ih | newFilled _ _ _ _ _ _ ih _ =>
    exact within_call (List.forall_mem_singleton.2 (ih hus.tail.right.tail.left))
  | newArgs _ _ _ _ _ ih => exact within_call (ih hus.tail.right.tail.left)
  | delete _ _ ih | sizeof _ _ ih => exact within_call (List.forall_mem_singleton.2 (ih hus.tail))
  | deleteArray _ _ _ _ ih =>
    exact within_call (List.forall_mem_singleton.2 (ih hus.tail.tail.tail))
  | binary _ _ _ ihl ihr => exact ⟨trivial, ihl hus.left, ihr hus.right.tail⟩
  | assign _ _ _ _ ihx ihv => exact within_assignWith (ihx hus.left) (ihv hus.right.tail)
  | comma _ _ _ _ ih => exact ih hus.right.tail
  | noItem => exact nofun
  | lastItem _ ih => exact List.forall_mem_singleton.2 (ih hus)
  | nextItem _ _ _ ihx ihxs => exact List.forall_mem_cons.2 ⟨ihx hus.left, ihxs hus.right.tail⟩

/-! ### Initialisers -/

theorem Derives.length_pos {e : Expr} (h : Derives us (.value e)) : 0 < us.length := by
  have hroom : e.nodes + 1 ≤ 2 ^ (e.copies + 1) * us.length := h.fits
  refine Nat.pos_of_ne_zero fun hzero => ?_
  rw [hzero, Nat.mul_zero] at hroom
  omega

/-- There are no more items than tokens. -/
theorem Derives.length_items_le {es : List Expr} (h : Derives us (.items es)) :
    es.length ≤ us.length := by
  generalize hph : Phrase.items es = ph at h
  induction h generalizing es with
  | noItem =>
    cases hph
    exact Nat.le_refl 0
  | lastItem h =>
    cases hph
    exact h.length_pos
  | nextItem hx _ _ _ ih =>
    cases hph
    have hfirst := hx.length_pos
    have hrest := ih rfl
    simp only [List.length_append, List.length_cons]
    omega
  | _ => cases hph

theorem length_le_weight (ts : List Token) : ts.length ≤ (ts.map Token.weight).sum := by
  induction ts with
  | nil => exact Nat.le_refl 0
  | cons t ts ih =>
    have hpos := t.weight_pos
    rw [List.map_cons, List.sum_cons, List.length_cons]
    omega

/-- An initialiser makes an array no longer than its tokens weigh. -/
theorem Derives.init_le {n : Nat} (h : Derives us (.init n)) :
    n ≤ ((us.map Mark.token).map Token.weight).sum := by
  cases h with
  | @stringInit t ht => simp [Token.weight, Mark.other, ht]
  | @braces o c us xs _ hxs _ =>
    have hlength := length_le_weight (us.map Mark.token)
    have hitems := hxs.length_items_le
    simp only [List.map_cons, List.map_append, Mark.tokens_drop, List.sum_cons, List.sum_append]
    rw [List.length_map] at hlength
    omega

/-! ### Statements and files -/

theorem within_joined {ss : List Stmt} (h : ∀ s ∈ ss, s.Every (.literalsWithin b)) :
    (joined ss).Every (.literalsWithin b) := by
  unfold joined
  split
  next s => exact h s (List.mem_singleton_self s)
  next => exact ⟨trivial, Stmt.everyOf_iff.2 h⟩

theorem within_ofStmt {s : Stmt} (h : s.Every (.literalsWithin b)) :
    (Decl.ofStmt s).Every (.literalsWithin b) := by
  unfold Decl.ofStmt
  split
  next => exact ⟨trivial, h.2⟩
  next => exact ⟨trivial, h⟩

def StmtPhrase.Within (b : Nat) : StmtPhrase → Prop
  | .stmt s => s.Every (.literalsWithin b)
  | .stmts ss => ∀ s ∈ ss, s.Every (.literalsWithin b)
  | .first s => s = .absent ∨ s.Every (.literalsWithin b)

section Trees

variable (hb : 1 ≤ b) (hall : NumbersWithin b all) (hsize : (all.map Token.weight).sum ≤ b)

include hb hall

theorem DerivesMaybe.within {e : Expr} (h : DerivesMaybe us e) (hus : MarksOf all us) :
    e.EveryIf (.literalsWithin b) := by
  cases h with
  | none => exact .inl rfl
  | some h => exact .inr (h.within hb hall hus)

include hsize

theorem DeclaresName.within {s : Stmt} (h : DeclaresName us s) (hus : MarksOf all us) :
    s.Every (.literalsWithin b) := by
  cases h with
  | plain _ => exact ⟨trivial, .inl rfl⟩
  | init _ _ he => exact ⟨trivial, .inr (he.within hb hall hus.tail.tail)⟩
  | array _ _ hs _ | filled _ _ hs _ _ _ =>
    exact ⟨trivial, trivial, hs.within hb hall hus.tail.tail.left⟩
  | counted _ _ _ _ hk =>
    have hweight := hus.tail.tail.tail.tail.weight_le
    exact ⟨trivial, trivial, Nat.le_trans hk.init_le (Nat.le_trans hweight hsize)⟩

theorem DeclaresNames.within {base : DeclType.Base} {ss : List Stmt}
    (h : DeclaresNames base us ss) (hus : MarksOf all us) :
    ∀ s ∈ ss, s.Every (.literalsWithin b) := by
  induction h with
  | one h => exact List.forall_mem_singleton.2 (h.within hb hall hsize hus)
  | more _ _ _ hs ih =>
    refine List.forall_mem_append.2 ⟨ih hus.left, List.forall_mem_singleton.2 ?_⟩
    exact hs.within hb hall hsize hus.right.tail.right

theorem DerivesStmt.within {ph : StmtPhrase} (h : DerivesStmt us ph) (hus : MarksOf all us) :
    ph.Within b := by
  induction h with
  | noStmt => exact nofun
  | nextStmt _ _ ihss ihs =>
    exact List.forall_mem_append.2 ⟨ihss hus.left, List.forall_mem_singleton.2 (ihs hus.right)⟩
  | block _ _ _ ih => exact ⟨trivial, Stmt.everyOf_iff.2 (ih hus.tail.left)⟩
  | empty _ => exact ⟨trivial, trivial⟩
  | ret _ hx _ => exact ⟨trivial, hx.within hb hall hus.tail.left⟩
  | cond _ _ htest _ _ ih =>
    exact ⟨trivial, htest.within hb hall hus.tail.tail.left, ih hus.tail.tail.right.tail, .inl rfl⟩
  | condElse _ _ htest _ _ _ _ ihyes ihno =>
    have hbranches := hus.tail.tail.right.tail
    exact ⟨trivial, htest.within hb hall hus.tail.tail.left, ihyes hbranches.left,
      .inr (ihno hbranches.right.tail)⟩
  | whileLoop _ _ htest _ _ ih =>
    exact ⟨trivial, .inl rfl, .inr (htest.within hb hall hus.tail.tail.left), .inl rfl,
      ih hus.tail.tail.right.tail⟩
  | doLoop _ _ _ _ htest _ _ ih =>
    exact ⟨trivial, .inl rfl, .inr (htest.within hb hall hus.tail.right.tail.tail.left), .inl rfl,
      ih hus.tail.left⟩
  | noFirst _ => exact .inl rfl
  | someFirst _ ih => exact .inr (ih hus)
  | forLoop _ _ _ htest _ hpost _ _ ihinit ihbody =>
    have hrest := hus.tail.tail.right.right.tail
    exact ⟨trivial, ihinit hus.tail.tail.left, htest.within hb hall hus.tail.tail.right.left,
      hpost.within hb hall hrest.left, ihbody hrest.right.tail⟩
  | jump _ _ => trivial
  | decl _ hss _ => exact within_joined (hss.within hb hall hsize hus.right.left)
  | expr hx _ => exact ⟨trivial, hx.within hb hall hus.left⟩

theorem DerivesDecl.within {ds : List Decl} (h : DerivesDecl us ds) (hus : MarksOf all us) :
    ∀ d ∈ ds, d.Every (.literalsWithin b) := by
  cases h with
  | prototype _ _ _ _ _ _ => exact List.forall_mem_singleton.2 ⟨trivial, .inl rfl⟩
  | func _ _ _ _ _ _ hss _ =>
    have hss := hss.within hb hall hsize hus.right.left
    exact List.forall_mem_singleton.2 ⟨trivial, .inr ⟨trivial, Stmt.everyOf_iff.2 hss⟩⟩
  | vars _ hss _ =>
    have hss := hss.within hb hall hsize hus.right.left
    intro d hd
    obtain ⟨s, hs, rfl⟩ := List.mem_map.1 hd
    exact within_ofStmt (hss s hs)
  | stmt hs => exact List.forall_mem_singleton.2 ⟨trivial, hs.within hb hall hsize hus⟩

theorem DerivesFile.within {ds : List Decl} (h : DerivesFile us ds) (hus : MarksOf all us) :
    ∀ d ∈ ds, d.Every (.literalsWithin b) := by
  induction h with
  | nil => exact nofun
  | next _ hd ih =>
    exact List.forall_mem_append.2 ⟨ih hus.left, hd.within hb hall hsize hus.right⟩

end Trees

/-! ### Words -/

/-- The floating literals have values that a signed word can hold. -/
def FloatsFit (ts : List Token) : Prop :=
  ∀ t ∈ ts, t.kind = .float → ∀ v, Numeral.floating? t.lex = some v → v ≤ maxInt64

theorem floatsFit_of_kinds (h : (ts.map Token.kind).contains .float = false) : FloatsFit ts := by
  intro t ht hk
  rw [List.contains_eq_mem, decide_eq_false_iff_not] at h
  exact (h (hk ▸ List.mem_map_of_mem ht)).elim

theorem charCode_le (s : String) : (charCode s).natAbs ≤ maxInt64 := by
  unfold charCode
  split
  next c _ _ =>
    have hc : c.toNat < 1114112 := by
      have hvalid := c.valid
      unfold UInt32.isValidChar Nat.isValidChar at hvalid
      have hval : c.toNat = c.val.toNat := rfl
      omega
    have hmax : maxInt64 = 9223372036854775807 := rfl
    rw [Int.natAbs_natCast]
    omega
  next => exact Nat.zero_le _

theorem numbersWithin_word (h : FloatsFit all) : NumbersWithin maxInt64 all := by
  intro t ht v hv
  unfold literal? at hv
  split at hv
  next => exact Numeral.integer?_range hv
  next hk =>
    have hle := h t ht hk v hv
    obtain ⟨n, -, rfl⟩ := Option.map_eq_some_iff.1 hv
    exact Int.ofNat_le.1 hle
  next =>
    cases hv
    exact charCode_le t.lex
  next => cases hv; decide
  next => cases hv; decide
  next => cases hv

theorem literal_spelled {n : Nat} (hk : t.kind = .int)
    (h : Numeral.SpellsInteger t.lex.toList n) :
    literal? t = if n ≤ maxInt64 then some (n : Int) else none := by
  have hvalue := Numeral.integer?_spelled h
  rw [String.ofList_toList] at hvalue
  simp only [literal?, hk, hvalue]

/-- A number that is not the lowest of the words, as a word. -/
theorem toInt_ofInt {v : Int} (h : v.natAbs ≤ maxInt64) : (Int64.ofInt v).toInt = v := by
  have hmax : maxInt64 = 9223372036854775807 := rfl
  apply Int64.toInt_ofInt_of_le <;> omega

/-- The negation of such a word does not overflow. -/
theorem toInt_neg_ofInt {v : Int} (h : v.natAbs ≤ maxInt64) : (-Int64.ofInt v).toInt = -v := by
  rw [← Int64.ofInt_neg]
  exact toInt_ofInt (by rwa [Int.natAbs_neg])

/-- A number with signs, parentheses and casts around it, and its value as it is computed in
words. -/
inductive Signs : List Token → Int64 → Prop where
  | number {t : Token} {v : Int} (hv : literal? t = some v) : Signs [t] (.ofInt v)
  | plus {t : Token} {ts : List Token} {w : Int64} (ht : t.kind = .plus) (h : Signs ts w) :
    Signs (t :: ts) w
  | minus {t : Token} {ts : List Token} {w : Int64} (ht : t.kind = .minus) (h : Signs ts w) :
    Signs (t :: ts) (-w)
  | group {o c : Token} {ts : List Token} {w : Int64} (ho : o.kind = .lparen) (h : Signs ts w)
    (hc : c.kind = .rparen) : Signs (inParens o c ts) w
  | cast {o c : Token} {words ts : List Token} {type : DeclType} {w : Int64}
    (ho : o.kind = .lparen) (hwords : Gives (declType words) type []) (hc : c.kind = .rparen)
    (h : Signs ts w) : Signs (o :: (words ++ c :: ts)) w

theorem startsType_of_declType {rest : List Token} {type : DeclType}
    (h : Gives (declType ts) type rest) : (peek ts).startsType = true := by
  obtain ⟨t, mid, base, -, hq, hbase, -⟩ := gives_declType.1 h
  cases ts with
  | nil => cases hq
  | cons first ts =>
    rw [peek_cons]
    cases hqual : first.kind.isQualifier with
    | true => simp [Token.Kind.startsType, hqual]
    | false =>
      simp only [absorb, qualifier, hqual] at hq
      cases hq
      revert hbase
      cases t.kind <;> simp [DeclType.Base.ofKind?, Token.Kind.startsType, Token.Kind.isType]

section Readings

variable {scopes : Scopes} {x : Expr} {n : Nat}

theorem readsAs_number {v : Int} (hv : literal? t = some v) :
    ReadsAs (unary scopes) 1 [t] (.intLit v) := by
  intro D rest hD hrest
  obtain ⟨D, rfl⟩ := Nat.exists_eq_add_one.2 hD
  exact gives_unary_succ.2 (.operand (.number hv) (.stop (postfixRound_of_closers hrest)))

theorem ReadsAs.signed {f : Expr → Expr} (ht : prefixOp? t.kind = some f)
    (h : ReadsAs (unary scopes) n ts x) : ReadsAs (unary scopes) (n + 1) (t :: ts) (f x) := by
  intro D rest hD hrest
  obtain ⟨D, rfl⟩ := Nat.exists_eq_add_one.2 (Nat.lt_of_lt_of_le n.succ_pos hD)
  exact gives_unary_succ.2 (.signed ht (h (Nat.le_of_succ_le_succ hD) hrest))

theorem ReadsAs.group {o c : Token} (ho : o.kind = .lparen) (hc : c.kind = .rparen)
    (h : ReadsAs (unary scopes) n ts x) : ReadsAs (unary scopes) (n + 2) (inParens o c ts) x := by
  have hx := h.assign (Nat.le_refl _) (show peek [] ∈ closers by decide)
  rw [List.append_nil] at hx
  have hexpr : Gives (expression (Grammar.assign scopes (n + 1)) ts) x [] :=
    gives_expression.2 ⟨x, [], hx, .stop (commaRound_eq_none.2 (by decide))⟩
  exact readsAs_group ho hc hexpr

theorem ReadsAs.cast {o c : Token} {words : List Token} {type : DeclType} (ho : o.kind = .lparen)
    (hwords : Gives (declType words) type []) (hc : c.kind = .rparen)
    (h : ReadsAs (unary scopes) n ts x) :
    ReadsAs (unary scopes) (n + 1) (o :: (words ++ c :: ts)) x := by
  intro D rest hD hrest
  obtain ⟨D, rfl⟩ := Nat.exists_eq_add_one.2 (Nat.lt_of_lt_of_le n.succ_pos hD)
  have hclose : peek (c :: (ts ++ rest)) ∈ closers := by
    rw [peek_cons, hc]
    decide
  have htype : Gives (declType (words ++ c :: (ts ++ rest))) type (c :: (ts ++ rest)) :=
    declType_closed hclose hwords
  have hx := h (Nat.le_of_succ_le_succ hD) hrest
  rw [List.cons_append, List.append_assoc, List.cons_append]
  exact gives_unary_succ.2 (.paren ho (.cast (startsType_of_declType htype) htype hc hx))

/-- The parser computes what words do, with a level for every token at most. -/
theorem Signs.readsAs {w : Int64} (h : Signs ts w) (hall : NumbersWithin maxInt64 ts) :
    w.toInt.natAbs ≤ maxInt64 ∧ ReadsAs (unary scopes) ts.length ts (.intLit w.toInt) := by
  induction h with
  | @number t v hv =>
    have hle := hall t (List.mem_singleton_self t) v hv
    rw [toInt_ofInt hle]
    exact ⟨hle, readsAs_number hv⟩
  | plus ht _ ih =>
    obtain ⟨hle, ih⟩ := ih fun t hmem => hall t (List.mem_cons_of_mem _ hmem)
    exact ⟨hle, ih.signed (f := id) (by rw [ht]; rfl)⟩
  | @minus t ts w ht _ ih =>
    obtain ⟨hle, ih⟩ := ih fun t hmem => hall t (List.mem_cons_of_mem _ hmem)
    have hneg : (-w).toInt = -w.toInt := by
      have h := toInt_neg_ofInt hle
      rwa [Int64.ofInt_toInt] at h
    rw [hneg, Int.natAbs_neg]
    exact ⟨hle, ih.signed (f := negate) (by rw [ht]; rfl)⟩
  | @group o c ts w ho _ hc ih =>
    obtain ⟨hle, ih⟩ := ih fun t hmem => hall t (by simp [inParens, hmem])
    have hlength : (inParens o c ts).length = ts.length + 2 := by simp [inParens]
    rw [hlength]
    exact ⟨hle, ih.group ho hc⟩
  | @cast o c words ts type w ho hwords hc _ ih =>
    obtain ⟨hle, ih⟩ := ih fun t hmem => hall t (by simp [hmem])
    refine ⟨hle, (ih.cast ho hwords hc).mono ?_⟩
    simp only [List.length_cons, List.length_append]
    omega

end Readings

/-- Folding signs into literals is exact in words of 64 bits. In the tree of a text whose floating
literals fit, no literal is further from zero than the largest word; the size of an array that is
counted out may be as large as the text, which takes no more bytes than a word can say wherever it
is held. So the negation of a literal does not overflow, and what the parser makes of a number with
signs, parentheses and casts around it is what words make of it. An integer literal in an
expression that is larger than the largest word makes the text fail. -/
theorem literal_folding_exact (limit : Nat) (source : List Char)
    (hfloats : FloatsFit (Token.scan source).tokens) :
    (∀ ds, parse limit source = .ok ds →
      (∀ d ∈ ds, d.Every (.literalsWithin (max maxInt64 (Token.byteSize source)))) ∧
      (Token.byteSize source ≤ maxInt64 → ∀ d ∈ ds, d.Every (.literalsWithin maxInt64))) ∧
    (∀ scopes d ts v rest, ts <:+ (Token.scan source).tokens →
      Gives (unary scopes d ts) (.intLit v) rest →
      (Int64.ofInt v).toInt = v ∧ negate (.intLit v) = .intLit (-Int64.ofInt v).toInt) ∧
    (∀ scopes ts w, ts <:+: (Token.scan source).tokens → Signs ts w →
      ReadsAs (unary scopes) ts.length ts (.intLit w.toInt)) ∧
    (∀ scopes t rest n, t.kind = .int → Numeral.SpellsInteger t.lex.toList n →
      (n ≤ maxInt64 → Gives (primary scopes (t :: rest)) (.intLit n) rest) ∧
      (maxInt64 < n →
        primary scopes (t :: rest) = .error (faultAt (t :: rest) (.badInteger t.lex)))) ∧
    ∀ before t after n, (Token.scan source).tokens = before ++ t :: after → t.kind = .int →
      Numeral.SpellsInteger t.lex.toList n → maxInt64 < n → ¬ InHead before t after →
      ∃ e, parse limit source = .error e := by
  have hall := numbersWithin_word hfloats
  have htree (ds : List Decl) (h : parse limit source = .ok ds) :
      ∀ d ∈ ds, d.Every (.literalsWithin (max maxInt64 (Token.byteSize source))) := by
    obtain ⟨us, hus, hds⟩ := exists_derivesFile h
    have hmarks : MarksOf (Token.scan source).tokens us := by rw [MarksOf, hus]
    refine hds.within ?_ ?_ ?_ hmarks
    · exact Nat.le_trans (by decide) (Nat.le_max_left _ _)
    · exact fun t ht v hv => Nat.le_trans (hall t ht v hv) (Nat.le_max_left _ _)
    · exact Nat.le_trans (Token.weight_scan_le source) (Nat.le_max_right _ _)
  refine ⟨fun ds h => ⟨htree ds h, fun hsize => ?_⟩, ?_, ?_, ?_, ?_⟩
  · have hds := htree ds h
    rwa [Nat.max_eq_left hsize] at hds
  · intro scopes d ts v rest hts h
    obtain ⟨us, hus, hx⟩ := (derived scopes d).2 h
    have hmem : NumbersWithin maxInt64 ts := fun t ht => hall t (hts.subset ht)
    have hv : v.natAbs ≤ maxInt64 := hx.within (by decide) hmem (.of_spans hus)
    rw [toInt_neg_ofInt hv]
    exact ⟨toInt_ofInt hv, rfl⟩
  · exact fun scopes ts w hts h => (h.readsAs fun t ht => hall t (hts.subset ht)).2
  · intro scopes t rest n hk hspell
    have hvalue := literal_spelled hk hspell
    refine ⟨fun hn => gives_primary.2 (.number (by rw [hvalue, if_pos hn])), fun hn => ?_⟩
    rw [if_neg (Nat.not_le.2 hn), literal?, hk] at hvalue
    simp only [primary, hk, hvalue]
  · intro before t after n hts hk hspell hn hin
    refine error_of_unreadable hts (fun hread => ?_) hin
    have hsome := hread hk
    rw [literal_spelled hk hspell, if_neg (Nat.not_le.2 hn)] at hsome
    cases hsome

/-- The largest literal with signs, parentheses and a cast around it, and the next one. -/
theorem literal_folding_exact_at_largest :
    let fits := "-(-(int)0x7fffffffffffffffL);"
    let large := "-0x8000000000000000u;"
    (∃ ds, parse 9 fits.toList = .ok ds ∧ ∀ d ∈ ds, d.Every (.literalsWithin maxInt64)) ∧
      ∃ e, parse 9 large.toList = .error e := by
  intro fits large
  have htree : parse 9 fits.toList = .ok [.stmt (.expr (.intLit 9223372036854775807))] := by
    dsimp only [fits]
    with_unfolding_all rfl
  have hsize : Token.byteSize fits.toList = 29 := by decide +kernel
  have hfits : ((Token.scan fits.toList).tokens.map Token.kind).contains .float = false := by
    decide +kernel
  have htokens : (Token.scan large.toList).tokens = [⟨.minus, "-", ⟨1, 1⟩⟩,
      ⟨.int, "0x8000000000000000u", ⟨1, 2⟩⟩, ⟨.semi, ";", ⟨1, 21⟩⟩] := by
    decide +kernel
  have hspell : Numeral.SpellsInteger "0x8000000000000000u".toList 9223372036854775808 := by
    have hdigits : List.Forall₂ (Numeral.IsDigit 16) ('8' :: List.replicate 15 '0')
        (8 :: List.replicate 15 0) := by
      simp only [List.replicate, List.forall₂_cons, Numeral.IsDigit, List.Forall₂.nil]
      decide
    exact ⟨"0x8000000000000000".toList, ['u'], rfl,
      .named (.hex (.inl rfl)) ⟨_, hdigits, by simp [Nat.ofDigits_cons]⟩, by simp⟩
  constructor
  · obtain ⟨hliterals, -⟩ := literal_folding_exact 9 fits.toList (floatsFit_of_kinds hfits)
    exact ⟨_, htree, (hliterals _ htree).2 (by rw [hsize]; decide)⟩
  · have hfloats : FloatsFit (Token.scan large.toList).tokens :=
      floatsFit_of_kinds (by rw [htokens]; rfl)
    obtain ⟨-, -, -, -, hrefused⟩ := literal_folding_exact 9 large.toList hfloats
    refine hrefused [⟨.minus, "-", ⟨1, 1⟩⟩] _ _ _ htokens rfl hspell (by decide) ?_
    rintro ⟨n, o, h, h', c, ps, -, -, -, hbefore, -⟩
    exact absurd hbefore.length_le (by simp)

end Grammar

end MemLint
