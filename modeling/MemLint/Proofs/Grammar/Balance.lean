import Mathlib.Data.Option.Basic
import MemLint.Proofs.Grammar.FileDerivation

/-! Brackets in a text that is accepted. Whatever the grammar derives closes every bracket that it
opens, in the reverse order, and uses no token that has no meaning in the language. -/

namespace MemLint.Grammar

/-! ### Brackets -/

/-- The token that closes what a token opens. -/
def closer? : Token.Kind → Option Token.Kind
  | .lparen => some .rparen
  | .lbrack => some .rbrack
  | .lbrace => some .rbrace
  | _ => none

/-- The closing tokens that are due after a token, the next one first. -/
def due (pending : List Token.Kind) (k : Token.Kind) : Option (List Token.Kind) :=
  match closer? k with
  | some c => some (c :: pending)
  | none =>
    if k ∈ [.rparen, .rbrack, .rbrace] then
      match pending with
      | c :: pending => if c = k then some pending else none
      | [] => none
    else some pending

/-- Every bracket is closed by one of its own shape, and the one opened last is closed first. -/
def Nested (ts : List Token) : Prop := (ts.map Token.kind).foldlM due [] = some []

instance (ts : List Token) : Decidable (Nested ts) :=
  inferInstanceAs (Decidable ((ts.map Token.kind).foldlM due [] = some []))

/-- The tokens that have no meaning. -/
def unused : List Token.Kind := [.illegal, .dot, .arrow, .scope, .colon]

/-- The brackets, and the tokens that have no meaning. -/
def special : List Token.Kind := [.lparen, .rparen, .lbrack, .rbrack, .lbrace, .rbrace] ++ unused

theorem due_of_not_special {k : Token.Kind} (hk : k ∉ special) (pending : List Token.Kind) :
    due pending k = some pending := by
  simp only [special, List.mem_append, List.mem_cons, List.not_mem_nil, or_false, not_or] at hk
  have hopen : closer? k = none := by
    unfold closer?
    split <;> simp_all
  unfold due
  rw [hopen]
  exact if_neg (by simp [hk])

/-! ### Balanced parts -/

/-- The marks open no bracket that they leave open and close none that was open before, and they are
on no token without a meaning. -/
structure Balanced (us : List Mark) : Prop where
  closes : ∀ pending, (us.map (·.token.kind)).foldlM due pending = some pending
  used : ∀ m ∈ us, m.token.kind ∉ unused

namespace Balanced

variable {us vs : List Mark} {t o c : Token}

theorem nil : Balanced [] := ⟨fun _ => rfl, fun _ hm => (List.not_mem_nil hm).elim⟩

theorem append (hus : Balanced us) (hvs : Balanced vs) : Balanced (us ++ vs) := by
  constructor
  · intro pending
    rw [List.map_append, List.foldlM_append, hus.closes]
    exact hvs.closes pending
  · intro m hm
    rcases List.mem_append.1 hm with hm | hm
    · exact hus.used m hm
    · exact hvs.used m hm

/-- A token that is no bracket. -/
theorem cons {u : Use} (ht : t.kind ∉ special) (h : Balanced us) : Balanced (⟨t, u⟩ :: us) := by
  constructor
  · intro pending
    rw [List.map_cons, List.foldlM_cons, due_of_not_special ht]
    exact h.closes pending
  · intro m hm
    rcases List.mem_cons.1 hm with rfl | hm
    · exact fun hu => ht (List.mem_append_right _ hu)
    · exact h.used m hm

theorem one {u : Use} (ht : t.kind ∉ special) : Balanced [⟨t, u⟩] := nil.cons ht

/-- Brackets of one shape around a part, and what follows. -/
theorem wrap (h : closer? o.kind = some c.kind) (hus : Balanced us) (hvs : Balanced vs) :
    Balanced (.other o :: (us ++ .other c :: vs)) := by
  have hshape : (o.kind = .lparen ∧ c.kind = .rparen) ∨ (o.kind = .lbrack ∧ c.kind = .rbrack) ∨
      (o.kind = .lbrace ∧ c.kind = .rbrace) := by
    unfold closer? at h
    split at h <;> simp_all
  have hopen (pending : List Token.Kind) : due pending o.kind = some (c.kind :: pending) := by
    unfold due
    rw [h]
  have hclose (pending : List Token.Kind) : due (c.kind :: pending) c.kind = some pending := by
    rcases hshape with ⟨-, hc⟩ | ⟨-, hc⟩ | ⟨-, hc⟩ <;> simp [due, closer?, hc]
  constructor
  · intro pending
    simp only [List.map_cons, List.map_append, List.foldlM_cons, List.foldlM_append, Mark.other,
      Option.bind_eq_bind, Option.bind_some, hopen, hus.closes, hclose, hvs.closes]
  · intro m hm
    rcases List.mem_cons.1 hm with rfl | hm
    · rcases hshape with ⟨ho, -⟩ | ⟨ho, -⟩ | ⟨ho, -⟩ <;> simp [Mark.other, ho, unused]
    rcases List.mem_append.1 hm with hm | hm
    · exact hus.used m hm
    rcases List.mem_cons.1 hm with rfl | hm
    · rcases hshape with ⟨-, hc⟩ | ⟨-, hc⟩ | ⟨-, hc⟩ <;> simp [Mark.other, hc, unused]
    · exact hvs.used m hm

theorem parens (ho : o.kind = .lparen) (hus : Balanced us) (hc : c.kind = .rparen)
    (hvs : Balanced vs) : Balanced (.other o :: (us ++ .other c :: vs)) :=
  wrap (by rw [ho, hc]; rfl) hus hvs

theorem bracks (ho : o.kind = .lbrack) (hus : Balanced us) (hc : c.kind = .rbrack)
    (hvs : Balanced vs) : Balanced (.other o :: (us ++ .other c :: vs)) :=
  wrap (by rw [ho, hc]; rfl) hus hvs

theorem braces (ho : o.kind = .lbrace) (hus : Balanced us) (hc : c.kind = .rbrace)
    (hvs : Balanced vs) : Balanced (.other o :: (us ++ .other c :: vs)) :=
  wrap (by rw [ho, hc]; rfl) hus hvs

/-- A token of a kind that is no bracket. -/
theorem token {k : Token.Kind} (ht : t.kind = k) (hk : special.contains k = false)
    (h : Balanced us) : Balanced (.other t :: us) := by
  refine h.cons ?_
  rw [ht]
  simpa using hk

theorem drop (h : Balanced us) : Balanced (us.map .drop) := by
  constructor
  · intro pending
    have hkinds : (us.map Mark.drop).map (·.token.kind) = us.map (·.token.kind) := by
      rw [List.map_map]
      exact List.map_congr_left fun m _ => congrArg Token.kind m.token_drop
    rw [hkinds]
    exact h.closes pending
  · intro m hm
    obtain ⟨n, hn, rfl⟩ := List.mem_map.1 hm
    rw [n.token_drop]
    exact h.used n hn

end Balanced

/-! ### Tokens that are no brackets -/

section Tables

variable {α β : Type}

/-- What is in a table without an entry for the special tokens is none of them. -/
theorem not_special {f : Token.Kind → Option β} (hf : ∀ k ∈ special, (f k).isNone) {k : Token.Kind}
    {b : β} (h : f k = some b) : k ∉ special := by
  intro hk
  have hnone := hf k hk
  rw [h] at hnone
  cases hnone

theorem level_not_special {level : Level} (hl : level ∈ levels) {k : Token.Kind} {op : BinOp}
    (h : level k = some op) : k ∉ special := by
  have hlevels : ∀ level ∈ levels, ∀ k ∈ special, (level k).isNone := by decide
  exact not_special (hlevels level hl) h

theorem literal_not_special {t : Token} {v : Int} (h : literal? t = some v) : t.kind ∉ special := by
  unfold literal? at h
  split at h
  next ht => rw [ht]; decide
  next ht => rw [ht]; decide
  next ht => rw [ht]; decide
  next ht => rw [ht]; decide
  next ht => rw [ht]; decide
  next => cases h

/-- Tokens that are absorbed one by one, where no special token is. -/
theorem balanced_absorbed {step : α → Token → Option α}
    (hstep : ∀ a t, t.kind ∈ special → step a t = none) {ts : List Token} {a b : α}
    (h : ts.foldlM step a = some b) : Balanced (ts.map .other) := by
  induction ts generalizing a with
  | nil => exact .nil
  | cons t ts ih =>
    rw [List.foldlM_cons] at h
    obtain ⟨a', ha, h⟩ := Option.bind_eq_some_iff.1 h
    refine (ih h).cons ?_
    intro ht
    rw [hstep a t ht] at ha
    cases ha

theorem star_of_special (type : DeclType) (t : Token) (h : t.kind ∈ special) :
    star type t = none := by
  have hstar : ∀ k ∈ special, k ≠ .star ∧ k ≠ .kwConst := by decide
  obtain ⟨hs, hc⟩ := hstar t.kind h
  unfold star
  split <;> simp_all

theorem qualifier_of_special (u : Unit) (t : Token) (h : t.kind ∈ special) :
    qualifier u t = none := by
  have hq : ∀ k ∈ special, k.isQualifier = false := by decide
  rw [qualifier, hq t.kind h]
  rfl

theorem specifier_of_special (b : DeclType.Base) (t : Token) (h : t.kind ∈ special) :
    specifier b t = none := by
  have hs : ∀ k ∈ special, k.startsType = false := by decide
  rw [specifier, hs t.kind h]
  rfl

theorem stringPart_of_special (s : String) (t : Token) (h : t.kind ∈ special) :
    stringPart s t = none := by
  have hs : ∀ k ∈ special, k ≠ .string := by decide
  exact if_neg (hs t.kind h)

end Tables

variable {us : List Mark} {ts : List Token}

theorem TypeText.balanced {type : DeclType} (h : TypeText ts type) : Balanced (ts.map .other) := by
  obtain ⟨qs, t, ws, ss, b, b', rfl, hq, ht, hw, hs⟩ := h
  have hwords := balanced_absorbed specifier_of_special hw
  have hstars := balanced_absorbed star_of_special hs
  have hfirst := (hwords.append hstars).cons (u := .other) (not_special (by decide) ht)
  have hall := (balanced_absorbed qualifier_of_special hq).append hfirst
  simpa [Mark.other] using hall

/-! ### Expressions -/

/-- The operators that join a phrase are those of the language. -/
def Phrase.Standard : Phrase → Prop
  | .joined ls _ => ls ⊆ levels
  | _ => True

theorem Derives.balanced {ph : Phrase} (h : Derives us ph) (hph : ph.Standard) : Balanced us := by
  -- a level of one's own could take a bracket for an operator, hence `Standard`
  induction h with
  | name ht _ => exact .one (by rw [ht]; decide)
  | number hv => exact .one (literal_not_special hv)
  | string ht hs => exact (balanced_absorbed stringPart_of_special hs).token ht rfl
  | null ht => exact Balanced.nil.token ht rfl
  | group ho _ hc ihe => exact (ihe trivial).parens ho hc .nil
  | call _ _ ho _ hc ihx ihargs => exact (ihx trivial).append ((ihargs trivial).parens ho hc .nil)
  | index _ _ ho _ hc ihx ihi => exact (ihx trivial).append ((ihi trivial).bracks ho hc .nil)
  | stepAfter _ ht _ ihx => exact (ihx trivial).append (.one (not_special (by decide) ht))
  | unary _ ih => exact ih trivial
  | stepBefore ht _ _ ihx => exact (ihx hph).cons (not_special (by decide) ht)
  | signed ht _ ihx => exact (ihx hph).cons (not_special (by decide) ht)
  | cast ho ht hc _ ihx => exact ht.balanced.parens ho hc (ihx hph)
  | new ht hts => exact hts.balanced.token ht rfl
  | newSized ht hts ho _ hc ihs =>
    exact (hts.balanced.append ((ihs trivial).bracks ho hc .nil)).token ht rfl
  | newFilled ht hts ho _ hc _ ihs ihn =>
    exact (hts.balanced.append ((ihs trivial).bracks ho hc (ihn trivial))).token ht rfl
  | newArgs ht hts ho _ hc ihargs =>
    exact (hts.balanced.append ((ihargs trivial).parens ho hc .nil)).token ht rfl
  | delete ht _ ihx => exact (ihx hph).token ht rfl
  | deleteArray ht ho hc _ ihx => exact (Balanced.nil.bracks ho hc (ihx hph)).token ht rfl
  | sizeof ht _ ihx => exact (ihx hph).token ht rfl
  | sizeofType ht ho hts hc => exact (hts.balanced.parens ho hc .nil).token ht rfl
  | tighter _ ih => exact ih (List.cons_subset.1 hph).2
  | binary _ ht _ ihl ihr =>
    obtain ⟨hlevel, htighter⟩ := List.cons_subset.1 hph
    exact (ihl hph).append ((ihr htighter).cons (level_not_special hlevel ht))
  | plain _ ih => exact ih (List.Subset.refl _)
  | assign _ _ ht _ ihx ihv =>
    exact (ihx (List.Subset.refl _)).append ((ihv trivial).cons (not_special (by decide) ht))
  | single _ ih => exact ih trivial
  | comma _ ht _ ihx ihe => exact (ihx trivial).drop.append ((ihe trivial).token ht rfl)
  | noItem => exact .nil
  | lastItem _ ih => exact ih trivial
  | nextItem _ ht _ ihx ihxs => exact (ihx trivial).append ((ihxs trivial).token ht rfl)
  | stringInit ht => exact Balanced.nil.token ht rfl
  | braces ho _ hc ihxs => exact (ihxs trivial).drop.braces ho hc .nil

/-! ### Statements -/

theorem DerivesMaybe.balanced {e : Expr} (h : DerivesMaybe us e) : Balanced us := by
  cases h with
  | none => exact .nil
  | some h => exact h.balanced trivial

theorem DeclaresName.balanced {s : Stmt} (h : DeclaresName us s) : Balanced us := by
  cases h with
  | plain hn => exact Balanced.nil.token hn rfl
  | init hn ha he => exact ((he.balanced trivial).token ha rfl).token hn rfl
  | array hn ho hs hc => exact ((hs.balanced trivial).bracks ho hc .nil).token hn rfl
  | filled hn ho hs hc ha hk =>
    exact ((hs.balanced trivial).bracks ho hc ((hk.balanced trivial).token ha rfl)).token hn rfl
  | counted hn ho hc ha hk =>
    exact (Balanced.nil.bracks ho hc ((hk.balanced trivial).token ha rfl)).token hn rfl

theorem DeclaresNames.balanced {base : DeclType.Base} {ss : List Stmt}
    (h : DeclaresNames base us ss) : Balanced us := by
  induction h with
  | one h => exact h.balanced
  | more _ ht hstars hs ih =>
    exact ih.append (((balanced_absorbed star_of_special hstars).append hs.balanced).token ht rfl)

theorem DerivesStmt.balanced {ph : StmtPhrase} (h : DerivesStmt us ph) : Balanced us := by
  induction h with
  | noStmt => exact .nil
  | nextStmt _ _ ihss ihs => exact ihss.append ihs
  | block ho _ hc ihss => exact ihss.braces ho hc .nil
  | empty ht => exact Balanced.nil.token ht rfl
  | ret ht hx hc => exact (hx.balanced.append (Balanced.nil.token hc rfl)).token ht rfl
  | cond ht ho htest hc _ ihyes => exact ((htest.balanced trivial).parens ho hc ihyes).token ht rfl
  | condElse ht ho htest hc _ hu _ ihyes ihno =>
    exact ((htest.balanced trivial).parens ho hc (ihyes.append (ihno.token hu rfl))).token ht rfl
  | whileLoop ht ho htest hc _ ihbody =>
    exact ((htest.balanced trivial).parens ho hc ihbody).token ht rfl
  | doLoop ht _ hu ho htest hc hc' ihbody =>
    have hend := (htest.balanced trivial).parens ho hc (Balanced.nil.token hc' rfl)
    exact (ihbody.append (hend.token hu rfl)).token ht rfl
  | noFirst ht => exact Balanced.nil.token ht rfl
  | someFirst _ ih => exact ih
  | @forLoop t o c c' us vs ws xs _ _ _ _ ht ho _ htest hc hpost hc' _ ihinit ihbody =>
    have hhead : Balanced (us ++ (vs ++ .other c :: ws)) :=
      ihinit.append (htest.balanced.append (hpost.balanced.token hc rfl))
    have hloop := (hhead.parens ho hc' ihbody).token ht rfl
    simpa using hloop
  | jump ht hc => exact (Balanced.nil.token hc rfl).cons (not_special (by decide) ht)
  | decl ht hss hc => exact ht.balanced.append (hss.balanced.append (Balanced.nil.token hc rfl))
  | expr hx hc => exact (hx.balanced trivial).append (Balanced.nil.token hc rfl)

/-! ### Files -/

theorem MaybeToken.balanced {k : Token.Kind} (h : MaybeToken k ts)
    (hk : special.contains k = false) : Balanced (ts.map .other) := by
  cases h with
  | none => exact .nil
  | some ht => exact Balanced.nil.token ht hk

theorem ParamText.balanced {p : Param} (h : ParamText ts p) : Balanced (ts.map .other) := by
  cases h with
  | plain ht ha hn =>
    have hname := (ha.balanced rfl).append (hn.balanced rfl)
    simpa using ht.balanced.append hname
  | array ht ha hn ho hs hc =>
    have hsize := (hs.balanced rfl).bracks ho hc .nil
    have hname := (ha.balanced rfl).append ((hn.balanced rfl).append hsize)
    simpa using ht.balanced.append hname

theorem ParamsText.balanced {ps : List Param} (h : ParamsText ts ps) :
    Balanced (ts.map .other) := by
  induction h with
  | one h => exact h.balanced
  | more _ ht hp ih => simpa using ih.append (hp.balanced.token ht rfl)

theorem HeadText.balanced {ps : List Param} (h : HeadText ts ps) : Balanced (ts.map .other) := by
  cases h with
  | none => exact .nil
  | void ht => exact Balanced.nil.token ht rfl
  | some h => exact h.balanced

theorem DerivesDecl.balanced {ds : List Decl} (h : DerivesDecl us ds) : Balanced us := by
  cases h with
  | prototype ht hn ho hp hc he =>
    have hhead := (hp.balanced.parens ho hc (Balanced.nil.token he rfl)).token hn rfl
    simpa using ht.balanced.append hhead
  | func ht hn ho hp hc ho' hss hc' =>
    have hbody := hss.balanced.braces ho' hc' .nil
    have hhead := (hp.balanced.parens ho hc hbody).token hn rfl
    simpa using ht.balanced.append hhead
  | vars ht hss hc => exact ht.balanced.append (hss.balanced.append (Balanced.nil.token hc rfl))
  | stmt h => exact h.balanced

theorem DerivesFile.balanced {ds : List Decl} (h : DerivesFile us ds) : Balanced us := by
  induction h with
  | nil => exact .nil
  | next _ hd ih => exact ih.append hd.balanced

/-- A text that is accepted is derived from all of its tokens, its brackets are properly nested and
all its tokens have a meaning. Any other text is refused. -/
theorem accepted_text_balanced (limit : Nat) (source : List Char) :
    (∀ ds, parse limit source = .ok ds →
      (∃ us, us.map Mark.token = (Token.scan source).tokens ∧ DerivesFile us ds) ∧
      Nested (Token.scan source).tokens ∧ ∀ t ∈ (Token.scan source).tokens, t.kind ∉ unused) ∧
    (¬ Nested (Token.scan source).tokens ∨ (∃ t ∈ (Token.scan source).tokens, t.kind ∈ unused) →
      ∃ e, parse limit source = .error e) := by
  have hok (ds : List Decl) (h : parse limit source = .ok ds) :
      Nested (Token.scan source).tokens ∧ ∀ t ∈ (Token.scan source).tokens, t.kind ∉ unused := by
    obtain ⟨us, hus, hds⟩ := exists_derivesFile h
    have hbalanced := hds.balanced
    rw [← hus]
    constructor
    · show ((us.map Mark.token).map Token.kind).foldlM due [] = some []
      rw [List.map_map]
      exact hbalanced.closes []
    · intro t ht
      obtain ⟨m, hm, rfl⟩ := List.mem_map.1 ht
      exact hbalanced.used m hm
  constructor
  · exact fun ds h => ⟨exists_derivesFile h, hok ds h⟩
  · intro hbad
    cases h : parse limit source with
    | error e => exact ⟨e, rfl⟩
    | ok ds =>
      obtain ⟨hnested, hused⟩ := hok ds h
      rcases hbad with hnot | ⟨t, ht, hu⟩
      · exact (hnot hnested).elim
      · exact (hused t ht hu).elim

theorem accepted_text_balanced_at_crossing :
    Nested (Token.scan "\x7b a[f()]; \x7d".toList).tokens ∧
    (∃ e, parse 9 "f(a[0)];".toList = .error e) ∧ ∃ e, parse 9 "a->b;".toList = .error e := by
  have htree : parse 9 "\x7b a[f()]; \x7d".toList = .ok
      [.stmt (.block [.expr (.index "a" (.call "f" []))])] := by
    with_unfolding_all rfl
  have hcrossing :
      ((Token.scan "f(a[0)];".toList).tokens.map Token.kind).foldlM due [] = none := by
    with_unfolding_all rfl
  have hkinds : (Token.scan "a->b;".toList).tokens.map Token.kind =
      [.ident, .arrow, .ident, .semi] := by
    with_unfolding_all rfl
  have harrow : .arrow ∈ (Token.scan "a->b;".toList).tokens.map Token.kind := by
    rw [hkinds]
    decide
  obtain ⟨t, ht, hk⟩ := List.mem_map.1 harrow
  refine ⟨((accepted_text_balanced 9 _).1 _ htree).2.1, ?_, ?_⟩
  · apply (accepted_text_balanced 9 _).2
    left
    intro h
    cases hcrossing.symm.trans h
  · apply (accepted_text_balanced 9 _).2
    right
    exact ⟨t, ht, by rw [hk]; decide⟩

end MemLint.Grammar
