import MemLint.Proofs.Grammar.References

/-! Productions in a longer text. What a production gives it gives in front of any further tokens,
if at least one token stands before them to stop at. The names that are in scope decide only how
the references in the tree look. -/

namespace MemLint.Grammar

variable {α : Type} {v : String → Bool} {more ts mid rest : List Token}

/-! ### Guards -/

/-- What ends before `rest` does not see `more` behind it: a token stands between them, or nothing
follows. -/
inductive Guarded (more : List Token) : List Token → Prop where
  | token (t : Token) (ts : List Token) : Guarded more (t :: ts)
  | last (h : more = []) : Guarded more []

theorem Guarded.peek (h : Guarded more rest) : peek (rest ++ more) = peek rest := by
  cases h with
  | token t ts => rfl
  | last h => rw [h, List.append_nil]

/-- A production has a token to start with. -/
theorem Guarded.of_gives {x : Except Fault (Parsed α ts)} {a : α} (h : Gives x a rest) :
    Guarded more ts := by
  cases ts with
  | nil => exact (not_gives_nil h).elim
  | cons t ts => exact .token t ts

theorem peek_of_gives {x : Except Fault (Parsed α ts)} {a : α} (h : Gives x a rest)
    (more : List Token) : peek (ts ++ more) = peek ts := (Guarded.of_gives h).peek

theorem Guarded.of_rounds {round : Round α} {a b : α} (h : Rounds round a ts b rest)
    (hr : Guarded more rest) : Guarded more ts := by
  cases h with
  | stop => exact hr
  | next hs _ =>
    obtain ⟨x, -, hx⟩ := hs
    exact .of_gives hx

theorem Guarded.of_absorb {step : α → Token → Option α} {a : α}
    (h : Guarded more (absorb step a ts).2) : Guarded more ts := by
  cases ts with
  | nil => exact h
  | cons t ts => exact .token t ts

theorem absorb_append {step : α → Token → Option α} {a : α}
    (h : Guarded more (absorb step a ts).2) :
    absorb step a (ts ++ more) = ((absorb step a ts).1, (absorb step a ts).2 ++ more) := by
  induction ts generalizing a with
  | nil =>
    cases h with
    | last h =>
      rw [h]
      rfl
  | cons t ts ih =>
    simp only [absorb, List.cons_append] at h ⊢
    cases hs : step a t with
    | none => rfl
    | some b =>
      rw [hs] at h
      exact ih h

theorem declType_append {type : DeclType} (h : Gives (declType ts) type rest)
    (hr : Guarded more rest) : Gives (declType (ts ++ more)) type (rest ++ more) := by
  obtain ⟨t, mid, b, words, hq, hb, rfl, hs⟩ := gives_declType.1 h
  have hstars : Guarded more
      (absorb star (.base (absorb specifier b mid).1) (absorb specifier b mid).2).2 := by
    rw [hs]
    exact hr
  have hquals : Guarded more (absorb qualifier () ts).2 := by
    rw [hq]
    exact .token t mid
  refine gives_declType.2 ⟨t, mid ++ more, b, _, ?_, hb, absorb_append hstars.of_absorb, ?_⟩
  · rw [absorb_append hquals, hq]
    rfl
  · rw [absorb_append hstars, hs]

/-! ### Values in a longer text -/

/-- What the first production gives the second gives in front of `more`, but for what references
say about the names in `v`. -/
def Carries (more : List Token) (v : String → Bool) (p q : Parser Expr) : Prop :=
  ∀ ⦃ts e rest⦄, Gives (p ts) e rest → Guarded more rest →
    ∃ e', Gives (q (ts ++ more)) e' (rest ++ more) ∧ e.Alike v e'

/-- Each round of the first loop is one of the second in front of `more`, up to `R`, and where the
first is over the second is. -/
structure CarriesRound (more : List Token) (R : α → α → Prop) (f g : Round α) : Prop where
  step : ∀ ⦃a a' ts b rest⦄, R a a' → Step f a ts b rest → Guarded more rest →
    ∃ b', Step g a' (ts ++ more) b' (rest ++ more) ∧ R b b'
  stop : ∀ ⦃a a' ts⦄, f a ts = none → Guarded more ts → g a' (ts ++ more) = none

theorem CarriesRound.rounds {R : α → α → Prop} {f g : Round α} (h : CarriesRound more R f g)
    {a a' b : α} (hrounds : Rounds f a ts b rest) (ha : R a a') (hr : Guarded more rest) :
    ∃ b', Rounds g a' (ts ++ more) b' (rest ++ more) ∧ R b b' := by
  induction hrounds generalizing a' with
  | stop hstop => exact ⟨a', .stop (h.stop hstop hr), ha⟩
  | next hs tail ih =>
    -- the rounds that follow leave a token behind this one, or nothing follows at all
    obtain ⟨b', hs', hb⟩ := h.step ha hs (.of_rounds tail hr)
    obtain ⟨c', hc', hc⟩ := ih hb hr
    exact ⟨c', .next hs' hc', hc⟩

section Expressions

variable {assign assign' unary unary' : Parser Expr} {e x x' : Expr} {scopes scopes' : Scopes}

theorem Carries.binaryRound (hu : Carries more v unary unary') (level : Level) :
    CarriesRound more (Expr.Alike v) (binaryRound level unary) (binaryRound level unary') where
  step a a' ts b rest ha hs hr := by
    obtain ⟨t, mid, op, right, rfl, hop, hright, rfl⟩ := step_binaryRound.1 hs
    obtain ⟨right', hright', hal⟩ := hu hright hr
    exact ⟨_, step_binaryRound.2 ⟨t, mid ++ more, op, right', rfl, hop, hright', rfl⟩,
      ha.binary hal op⟩
  stop a a' ts hs hg := by
    cases hg with
    | token t ts =>
      simp only [Grammar.binaryRound, List.cons_append] at hs ⊢
      cases hk : level t.kind with
      | none => rfl
      | some op =>
        rw [hk] at hs
        cases hs
    | last h =>
      rw [h]
      rfl

theorem Carries.binary (hu : Carries more v unary unary') (ls : List Level) :
    Carries more v (binary unary ls) (binary unary' ls) := by
  induction ls with
  | nil => exact hu
  | cons level ls ih =>
    intro ts e rest h hr
    obtain ⟨left, mid, hleft, hrounds⟩ := gives_binary_cons.1 h
    obtain ⟨left', hleft', hl⟩ := ih hleft (.of_rounds hrounds hr)
    obtain ⟨e', hrounds', he⟩ := (ih.binaryRound level).rounds hrounds hl hr
    exact ⟨e', gives_binary_cons.2 ⟨left', mid ++ more, hleft', hrounds'⟩, he⟩

theorem Carries.assignment (hu : Carries more v unary unary')
    (ha : Carries more v assign assign') :
    Carries more v (assignment unary assign) (assignment unary' assign') := by
  intro ts e rest h hr
  cases gives_assignment.1 h with
  | plain he ho =>
    obtain ⟨e', he', hal⟩ := hu.binary levels he hr
    exact ⟨e', gives_assignment.2 (.plain he' (by rw [hr.peek, ho])), hal⟩
  | @assign left value t mid _ op? hl ho hassign hv =>
    obtain ⟨left', hl', hal⟩ := hu.binary levels hl (.token t mid)
    obtain ⟨value', hv', hav⟩ := ha hv hr
    have hassign' : left'.assignable := hal.assignable.trans hassign
    exact ⟨_, gives_assignment.2 (.assign hl' ho hassign' hv'), alike_assignWith op? hal hav⟩

theorem Carries.commaRound (ha : Carries more v assign assign') :
    CarriesRound more (Expr.Alike v) (commaRound assign) (commaRound assign') where
  step a a' ts b rest _ hs hr := by
    obtain ⟨t, mid, rfl, ht, hx⟩ := step_commaRound.1 hs
    obtain ⟨b', hb', hal⟩ := ha hx hr
    exact ⟨b', step_commaRound.2 ⟨t, mid ++ more, rfl, ht, hb'⟩, hal⟩
  stop a a' ts hs hg := by
    rw [commaRound_eq_none] at hs ⊢
    rwa [hg.peek]

theorem Carries.expression (ha : Carries more v assign assign') :
    Carries more v (expression assign) (expression assign') := by
  intro ts e rest h hr
  obtain ⟨first, mid, hfirst, hrounds⟩ := gives_expression.1 h
  obtain ⟨first', hfirst', hal⟩ := ha hfirst (.of_rounds hrounds hr)
  obtain ⟨e', hrounds', he⟩ := ha.commaRound.rounds hrounds hal hr
  exact ⟨e', gives_expression.2 ⟨first', mid ++ more, hfirst', hrounds'⟩, he⟩

/-- Lists of expressions that are alike. -/
def AlikeAll (v : String → Bool) (xs xs' : List Expr) : Prop :=
  xs.map (Expr.blur v) = xs'.map (Expr.blur v)

theorem Carries.itemRound (ha : Carries more v assign assign') (close : Token.Kind) :
    CarriesRound more (AlikeAll v) (itemRound close assign) (itemRound close assign') where
  step done done' ts next rest hd hs hr := by
    obtain ⟨hclose, hitem⟩ := step_itemRound.1 hs
    cases hitem with
    | @comma x t _ hx ht =>
      obtain ⟨x', hx', hal⟩ := ha hx (.token t rest)
      have hclose' : peek (ts ++ more) ≠ close := by rwa [peek_of_gives hx]
      have hall : AlikeAll v (x :: done) (x' :: done') := List.cons_eq_cons.2 ⟨hal, hd⟩
      exact ⟨x' :: done', step_itemRound.2 ⟨hclose', .comma hx' ht⟩, hall⟩
    | @last x _ hx ht hc =>
      obtain ⟨x', hx', hal⟩ := ha hx hr
      have hclose' : peek (ts ++ more) ≠ close := by rwa [peek_of_gives hx]
      have hall : AlikeAll v (x :: done) (x' :: done') := List.cons_eq_cons.2 ⟨hal, hd⟩
      exact ⟨x' :: done', step_itemRound.2 ⟨hclose', .last hx' (hr.peek.trans ht) hc⟩, hall⟩
  stop a a' ts hs hg := by
    rw [itemRound_eq_none] at hs ⊢
    rw [hg.peek, hs]

/-- A list brings its own closing token. -/
theorem Carries.listed (ha : Carries more v assign assign') {close : Token.Kind}
    {xs : List Expr} (h : Listed close assign ts xs rest) :
    ∃ xs', Listed close assign' (ts ++ more) xs' (rest ++ more) ∧ AlikeAll v xs xs' := by
  obtain ⟨done, t, hrounds, ht, rfl⟩ := h
  have hstart : AlikeAll v [] [] := rfl
  obtain ⟨done', hrounds', hal⟩ := (ha.itemRound close).rounds hrounds hstart (.token t rest)
  refine ⟨done'.reverse, ⟨done', t, hrounds', ht, rfl⟩, ?_⟩
  rw [AlikeAll, List.map_reverse, List.map_reverse, hal]

theorem Carries.initList (ha : Carries more v assign assign') {n : Nat}
    (h : Gives (initList assign ts) n rest) :
    Gives (Grammar.initList assign' (ts ++ more)) n (rest ++ more) := by
  cases gives_initList.1 h with
  | string ht => exact gives_initList.2 (.string ht)
  | @braces t ts _ xs ht hxs =>
    obtain ⟨xs', hxs', hal⟩ := ha.listed hxs
    have hlen : xs.length = xs'.length := by simpa [AlikeAll] using congrArg List.length hal
    rw [hlen]
    exact gives_initList.2 (.braces ht hxs')

theorem primary_append (hs : scopes.Agree v scopes') (h : PrimaryRule scopes ts e rest)
    (hr : Guarded more rest) :
    ∃ e', PrimaryRule scopes' (ts ++ more) e' (rest ++ more) ∧ e.Alike v e' := by
  cases h with
  | @name t _ ht => exact ⟨_, .name ht, hs.ref t.lex⟩
  | number hv => exact ⟨_, .number hv, rfl⟩
  | @string t ts ht =>
    have hstring : PrimaryRule scopes' (t :: (ts ++ more)) _ _ := .string ht
    rw [absorb_append hr] at hstring
    exact ⟨_, hstring, rfl⟩
  | null ht => exact ⟨_, .null ht, rfl⟩

theorem Carries.postfixRound (ha : Carries more v assign assign') :
    CarriesRound more (Expr.Alike v) (postfixRound assign) (postfixRound assign') where
  step a a' ts b rest hal hs hr := by
    cases step_postfixRound.1 hs with
    | @call _ _ _ name _ ht hn hargs =>
      obtain ⟨args', hargs', hal'⟩ := ha.listed hargs
      have hn' : a'.name? = some name := hal.name?.trans hn
      exact ⟨_, step_postfixRound.2 (.call ht hn' hargs'), .call hal' name⟩
    | @index _ c _ _ name i ht hn hi hc =>
      obtain ⟨i', hi', hal'⟩ := ha.expression hi (.token c rest)
      have hn' : a'.name? = some name := hal.name?.trans hn
      exact ⟨_, step_postfixRound.2 (.index ht hn' hi' hc), hal'.index name⟩
    | @step _ _ op ht hassign =>
      have hassign' : a'.assignable := hal.assignable.trans hassign
      exact ⟨_, step_postfixRound.2 (.step ht hassign'), alike_stepped op hal⟩
  stop a a' ts hs hg := by
    rw [postfixRound_eq_none] at hs ⊢
    rwa [hg.peek]

theorem Carries.newRule (ha : Carries more v assign assign')
    (h : NewRule assign ts e rest) (hr : Guarded more rest) :
    ∃ e', NewRule assign' (ts ++ more) e' (rest ++ more) ∧ e.Alike v e' := by
  cases h with
  | bare ht hb hp =>
    have hb' : peek (rest ++ more) ≠ .lbrack := by rwa [hr.peek]
    have hp' : peek (rest ++ more) ≠ .lparen := by rwa [hr.peek]
    exact ⟨_, .bare (declType_append ht hr) hb' hp', rfl⟩
  | @sized _ b c mid _ size ht hb hs hc hl =>
    obtain ⟨size', hs', hal⟩ := ha.expression hs (.token c rest)
    have hl' : peek (rest ++ more) ≠ .lbrace := by rwa [hr.peek]
    exact ⟨_, .sized (declType_append ht (.token b mid)) hb hs' hc hl', hal.call_one "new"⟩
  | @filled _ b c mid rest' _ size n ht hb hs hc hl hn =>
    obtain ⟨size', hs', hal⟩ := ha.expression hs (.token c rest')
    have hl' : peek (rest' ++ more) = .lbrace := by rw [peek_of_gives hn, hl]
    exact ⟨_, .filled (declType_append ht (.token b mid)) hb hs' hc hl' (ha.initList hn),
      hal.call_one "new"⟩
  | @args _ b mid _ args ht hb hargs =>
    obtain ⟨args', hargs', hal⟩ := ha.listed hargs
    exact ⟨_, .args (declType_append ht (.token b mid)) hb hargs', .call hal "new"⟩

theorem Carries.deleteRule (hu : Carries more v unary unary')
    (h : DeleteRule unary ts e rest) (hr : Guarded more rest) :
    ∃ e', DeleteRule unary' (ts ++ more) e' (rest ++ more) ∧ e.Alike v e' := by
  cases h with
  | plain hb hx =>
    obtain ⟨x', hx', hal⟩ := hu hx hr
    have hb' : peek (ts ++ more) ≠ .lbrack := by rwa [peek_of_gives hx]
    exact ⟨_, .plain hb' hx', hal.call_one "delete"⟩
  | array hb hc hx =>
    obtain ⟨x', hx', hal⟩ := hu hx hr
    exact ⟨_, .array hb hc hx', hal.call_one "delete"⟩

theorem Carries.sizeofRule (ha : Carries more v assign assign')
    (hu : Carries more v unary unary') (h : SizeofRule assign unary ts e rest)
    (hr : Guarded more rest) :
    ∃ e', SizeofRule assign' unary' (ts ++ more) e' (rest ++ more) ∧ e.Alike v e' := by
  cases h with
  | @type t c ts _ _ ht hs hd hc =>
    have hs' : (peek (ts ++ more)).startsType := by rw [peek_of_gives hd, hs]
    exact ⟨_, .type ht hs' (declType_append hd (.token c rest)) hc, rfl⟩
  | @paren t c ts _ x ht hs hx hc =>
    obtain ⟨x', hx', hal⟩ := ha.expression hx (.token c rest)
    have hs' : (peek (ts ++ more)).startsType = false := by rw [peek_of_gives hx, hs]
    exact ⟨_, .paren ht hs' hx' hc, hal.call_one "sizeof"⟩
  | operand hp hx =>
    obtain ⟨x', hx', hal⟩ := hu hx hr
    have hp' : peek (ts ++ more) ≠ .lparen := by rwa [peek_of_gives hx]
    exact ⟨_, .operand hp' hx', hal.call_one "sizeof"⟩

theorem Carries.parenRule (ha : Carries more v assign assign')
    (hu : Carries more v unary unary') (h : ParenRule assign unary ts e rest)
    (hr : Guarded more rest) :
    ∃ e', ParenRule assign' unary' (ts ++ more) e' (rest ++ more) ∧ e.Alike v e' := by
  cases h with
  | @cast c mid _ _ _ hs hd hc he =>
    obtain ⟨e', he', hal⟩ := hu he hr
    have hs' : (peek (ts ++ more)).startsType := by rw [peek_of_gives hd, hs]
    exact ⟨e', .cast hs' (declType_append hd (.token c mid)) hc he', hal⟩
  | @group c mid _ x _ hs hx hc hrounds =>
    obtain ⟨x', hx', hal⟩ := ha.expression hx (.token c mid)
    obtain ⟨e', hrounds', hal'⟩ := ha.postfixRound.rounds hrounds hal hr
    have hs' : (peek (ts ++ more)).startsType = false := by rw [peek_of_gives hx, hs]
    exact ⟨e', .group hs' hx' hc hrounds', hal'⟩

theorem Carries.unaryForm (hs : scopes.Agree v scopes')
    (ha : Carries more v assign assign')
    (hu : Carries more v unary unary') :
    Carries more v (unaryForm scopes assign unary)
      (unaryForm scopes' assign' unary') := by
  intro ts e rest h hr
  cases gives_unaryForm.1 h with
  | signed ht hx =>
    obtain ⟨x', hx', hal⟩ := hu hx hr
    exact ⟨_, gives_unaryForm.2 (.signed ht hx'), alike_prefixOp ht hal⟩
  | @stepped _ _ _ op _ ht hx hassign =>
    obtain ⟨x', hx', hal⟩ := hu hx hr
    have hassign' : x'.assignable := hal.assignable.trans hassign
    exact ⟨_, gives_unaryForm.2 (.stepped ht hx' hassign'), alike_stepped op hal⟩
  | new ht hn =>
    obtain ⟨e', hn', hal⟩ := ha.newRule hn hr
    exact ⟨e', gives_unaryForm.2 (.new ht hn'), hal⟩
  | delete ht hd =>
    obtain ⟨e', hd', hal⟩ := hu.deleteRule hd hr
    exact ⟨e', gives_unaryForm.2 (.delete ht hd'), hal⟩
  | sizeof ht hz =>
    obtain ⟨e', hz', hal⟩ := ha.sizeofRule hu hz hr
    exact ⟨e', gives_unaryForm.2 (.sizeof ht hz'), hal⟩
  | paren ht hp =>
    obtain ⟨e', hp', hal⟩ := ha.parenRule hu hp hr
    exact ⟨e', gives_unaryForm.2 (.paren ht hp'), hal⟩
  | operand hx hrounds =>
    obtain ⟨x', hx', hal⟩ := primary_append hs hx (.of_rounds hrounds hr)
    obtain ⟨e', hrounds', hal'⟩ := ha.postfixRound.rounds hrounds hal hr
    exact ⟨e', gives_unaryForm.2 (.operand hx' hrounds'), hal'⟩

/-- Every expression. -/
theorem carries_expr (more : List Token) (hs : scopes.Agree v scopes') (d : Nat) :
    Carries more v (Grammar.assign scopes d) (Grammar.assign scopes' d) ∧
      Carries more v (Grammar.unary scopes d) (Grammar.unary scopes' d) := by
  induction d with
  | zero =>
    exact ⟨fun _ _ _ h => (not_gives_assign_zero h).elim,
      fun _ _ _ h => (not_gives_unary_zero h).elim⟩
  | succ d ih =>
    obtain ⟨ha, hu⟩ := ih
    constructor
    · intro ts e rest h hr
      obtain ⟨e', he', hal⟩ := hu.assignment ha (gives_assignment.2 (gives_assign_succ.1 h)) hr
      exact ⟨e', gives_assign_succ.2 (gives_assignment.1 he'), hal⟩
    · intro ts e rest h hr
      have hform := gives_unaryForm.2 (gives_unary_succ.1 h)
      obtain ⟨e', he', hal⟩ := Carries.unaryForm hs ha hu hform hr
      exact ⟨e', gives_unary_succ.2 (gives_unaryForm.1 he'), hal⟩

end Expressions

end MemLint.Grammar
