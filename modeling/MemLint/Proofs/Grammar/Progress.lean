import MemLint.Proofs.Grammar.DepthLimit
import MemLint.Proofs.Token.Cover

/-! Why parsing ends. Every production that gives something has taken a token, none goes back, and
every round of a loop takes a token or is the last one. The levels that a text can use up are
bounded by its tokens, so the limit ends a parse only if it is low for their number. -/

namespace MemLint.Grammar

variable {α β : Type} {text ts src : List Token}

/-! ### What it is to take tokens -/

/-- What stands in front of `rest` is one token or more, and none of them is the end. -/
def Taken (ts rest : List Token) : Prop :=
  ∃ t part, ts = t :: (part ++ rest) ∧ ∀ u ∈ t :: part, u.kind ≠ .eof

/-- Wherever in the text the production starts, what it gives has taken tokens. -/
def Advances (text : List Token) (p : Parser α) : Prop :=
  ∀ ⦃ts⦄, ts <:+ text → ∀ r, p ts = .ok r → Taken ts r.rest

/-- A round of the loop takes tokens, unless it is the last one. -/
def RoundAdvances (text : List Token) (round : Round α) : Prop :=
  ∀ a ⦃ts⦄, ts <:+ text → ∀ r, round a ts = some (.ok r) → Taken ts r.rest

/-- What goes on from `here` does not go back. -/
def GoesOn (here : Parsed α src) (x : Except Fault (Parsed β src)) : Prop :=
  ∀ r, x = .ok r → r.rest <:+ here.rest

/-- The loop over single tokens takes one a round as long as its step accepts it, and stops in front
of the first that it does not. -/
def TakesEach (text : List Token) (step : α → Token → Option α) : Prop :=
  ∀ a ⦃ts⦄, ts <:+ text → ∃ part b rest, absorb step a ts = (b, rest) ∧ ts = part ++ rest ∧
    part.foldlM step a = some b ∧ (∀ t ∈ part, t.kind ≠ .eof) ∧ ∀ t ∈ rest.head?, step b t = none

/-- The productions that start at a token of their own. -/
structure ProductionsAdvance (text : List Token) (scopes : Scopes) (d : Nat) : Prop where
  token : ∀ k, Advances text (expect k)
  declType : Advances text declType
  decl : Advances text (decl d scopes)
  stmt : Advances text (stmt d scopes)
  block : Advances text (block (Grammar.stmt d) scopes)
  localDecl : Advances text (localDecl (assign · d) scopes)
  condition : Advances text (condition (assign scopes d))
  exprStmt : Advances text (exprStmt (assign scopes d))
  expression : Advances text (expression (assign scopes d))
  assign : Advances text (Grammar.assign scopes d)
  binary : ∀ ls, Advances text (binary (unary scopes d) ls)
  unary : Advances text (Grammar.unary scopes d)
  primary : Advances text (primary scopes)
  initList : Advances text (initList (Grammar.assign scopes d))

/-- The productions that go on from where another one ended, some of which may take nothing. -/
structure ProductionsGoOn (scopes : Scopes) (d : Nat) (here : Parsed Token src) : Prop where
  param : ∀ type, GoesOn here (param (here.set type))
  paramsFrom : ∀ type, GoesOn here (paramsFrom (here.set type))
  params : GoesOn here (params here)
  func : ∀ type, GoesOn here (func (stmt d) type scopes here)
  arrayDeclarator : ∀ name, GoesOn here (arrayDeclarator (assign scopes d) name scopes (here.set ()))
  declarator : ∀ type name, GoesOn here (declarator (assign · d) type name scopes (here.set ()))
  declarators : ∀ type, GoesOn here (declarators (assign · d) type scopes here)
  items : ∀ close, GoesOn here (items close (assign scopes d) here)
  increment : ∀ op e, GoesOn here (increment op (here.set e))
  newCall : GoesOn here (newCall (assign scopes d) here)
  deleteCall : GoesOn here (deleteCall (unary scopes d) here)
  sizeofCall : GoesOn here (sizeofCall (assign scopes d) (unary scopes d) here)
  parenthesized : GoesOn here (parenthesized (assign scopes d) (unary scopes d) here)
  optional : ∀ stop, GoesOn here (optional stop (assign scopes d) here)
  ifStmt : GoesOn here (ifStmt (assign · d) (stmt d) scopes here)
  whileStmt : GoesOn here (whileStmt (assign · d) (stmt d) scopes here)
  doStmt : GoesOn here (doStmt (assign · d) (stmt d) scopes here)
  forStmt : GoesOn here (forStmt (assign · d) (stmt d) scopes here)
  returnStmt : GoesOn here (returnStmt (assign scopes d) here)
  jumpStmt : ∀ kind, GoesOn here (jumpStmt kind here)

/-- The loops. -/
structure LoopsAdvance (text : List Token) (scopes : Scopes) (d : Nat) : Prop where
  declarations : RoundAdvances text (fileRound d)
  statements : RoundAdvances text (blockRound (stmt d))
  declarators : ∀ base, RoundAdvances text (declaratorRound (assign · d) base)
  parameters : RoundAdvances text paramRound
  arguments : RoundAdvances text (itemRound .rparen (assign scopes d))
  initializers : RoundAdvances text (itemRound .rbrace (assign scopes d))
  commas : RoundAdvances text (commaRound (assign scopes d))
  operators : ∀ level ls, RoundAdvances text (binaryRound level (binary (unary scopes d) ls))
  postfixes : RoundAdvances text (postfixRound (assign scopes d))
  qualifiers : TakesEach text qualifier
  specifiers : TakesEach text specifier
  stars : TakesEach text star
  stringParts : TakesEach text stringPart

/-! ### From runs that are compared with themselves -/

/-- What does not go back and leaves fewer tokens has taken some. -/
theorem taken_of_suffix (htext : ∀ t ∈ text, t.kind ≠ .eof) (hts : ts <:+ text) {rest : List Token}
    (h : rest <:+ ts) (hlt : rest.length < ts.length) : Taken ts rest := by
  obtain ⟨part, rfl⟩ := h
  cases part with
  | nil => simp at hlt
  | cons t part =>
    refine ⟨t, part, rfl, fun u hu => htext u (hts.subset ?_)⟩
    exact List.mem_append_left rest hu

theorem Raised.suffix {short : Prop} {x y : Except Fault (Parsed α src)}
    (h : Raised short ts x y) {r : Parsed α src} (hr : x = .ok r) : r.rest <:+ ts := by
  subst hr
  cases h with
  | ok hr => exact hr

theorem Raises.advances {p : Parser α} (htext : ∀ t ∈ text, t.kind ≠ .eof)
    (h : ∀ n, Raises True n p p) : Advances text p := fun ts hts r hr =>
  taken_of_suffix htext hts ((h _ ts (Nat.lt_succ_self _)).suffix hr) r.shorter

theorem RaisesRound.advances {short : Nat → Prop} {round : Round α}
    (htext : ∀ t ∈ text, t.kind ≠ .eof) (h : ∀ n, RaisesRound (short n) (n + 1) round round) :
    RoundAdvances text round := by
  intro a ts hts r hr
  have hrel := h _ a ts (Nat.lt_succ_self _)
  rw [hr] at hrel
  cases hrel with
  | some hx => exact taken_of_suffix htext hts (hx.suffix rfl) r.shorter

theorem absorb_stops (step : α → Token → Option α) (a : α) (ts : List Token) :
    ∀ t ∈ (absorb step a ts).2.head?, step (absorb step a ts).1 t = none := by
  induction ts generalizing a with
  | nil => simp [absorb]
  | cons t ts ih =>
    rw [absorb]
    cases hs : step a t with
    | none => simp [hs]
    | some b => exact ih b

theorem takesEach (htext : ∀ t ∈ text, t.kind ≠ .eof) (step : α → Token → Option α) :
    TakesEach text step := by
  intro a ts hts
  obtain ⟨part, hpart, hfold⟩ := absorb_eq step a ts
  refine ⟨part, _, _, rfl, hpart, hfold, fun t ht => htext t (hts.subset ?_), absorb_stops step a ts⟩
  rw [hpart]
  exact List.mem_append_left _ ht

/-! ### The grammar -/

section Depth

variable (scopes : Scopes) (d n : Nat)

theorem raises_assign : Raises True n (assign scopes d) (assign scopes d) := fun ts _ =>
  (raised_expr scopes (Nat.le_refl d) ts).1.mono fun _ => trivial

theorem raises_unary : Raises True n (unary scopes d) (unary scopes d) := fun ts _ =>
  (raised_expr scopes (Nat.le_refl d) ts).2.mono fun _ => trivial

theorem raisesAll_assign : RaisesAll True n (assign · d) (assign · d) := fun scopes =>
  raises_assign scopes d n

theorem raisesAll_stmt : RaisesAll True n (stmt d) (stmt d) := fun scopes ts _ =>
  (raised_stmt (Nat.le_refl d) scopes ts).mono fun _ => trivial

end Depth

theorem productions_advance (htext : ∀ t ∈ text, t.kind ≠ .eof) (scopes : Scopes) (d : Nat) :
    ProductionsAdvance text scopes d where
  token k := Raises.advances htext fun _ ts _ => raised_expect k ts
  declType := Raises.advances htext fun _ ts _ => raised_declType ts
  decl := Raises.advances htext fun _ ts _ =>
    (raised_decl (Nat.le_refl d) scopes ts).mono fun _ => trivial
  stmt := Raises.advances htext fun n => raisesAll_stmt d n scopes
  block := Raises.advances htext fun n _ hts => (raisesAll_stmt d n).block scopes (Nat.le_of_lt hts)
  localDecl := Raises.advances htext fun n _ hts =>
    (raisesAll_assign d n).localDecl scopes (Nat.le_of_lt hts)
  condition := Raises.advances htext fun n => (raises_assign scopes d n).condition
  exprStmt := Raises.advances htext fun n => (raises_assign scopes d n).exprStmt
  expression := Raises.advances htext fun n => (raises_assign scopes d n).expression
  assign := Raises.advances htext fun n => raises_assign scopes d n
  binary ls := Raises.advances htext fun n => (raises_unary scopes d n).binary ls
  unary := Raises.advances htext fun n => raises_unary scopes d n
  primary := Raises.advances htext fun _ ts _ => raised_primary scopes ts
  initList := Raises.advances htext fun n => (raises_assign scopes d n).initList

theorem productions_go_on (scopes : Scopes) (d : Nat) (here : Parsed Token src) :
    ProductionsGoOn scopes d here := by
  have h : here.rest <:+ here.rest := List.suffix_refl _
  have hsrc : src.length ≤ src.length := Nat.le_refl _
  have ha := raises_assign scopes d src.length
  have hu := raises_unary scopes d src.length
  have hv := raisesAll_assign d src.length
  have hs := raisesAll_stmt d src.length
  have hgoes {γ : Type} {x : Except Fault (Parsed γ src)} (hx : Raised True here.rest x x) :
      GoesOn here x := fun _ hr => hx.suffix hr
  exact {
    param := fun type => hgoes (x := param (here.set type)) (raised_param h)
    paramsFrom := fun type => hgoes (raised_paramsFrom h)
    params := hgoes (raised_params h)
    func := fun type => hgoes (hs.func h hsrc type scopes)
    arrayDeclarator := fun name => hgoes (ha.arrayDeclarator _ h hsrc name scopes)
    declarator := fun type name => hgoes (hv.declarator _ h hsrc name scopes type)
    declarators := fun type => hgoes (hv.declarators h hsrc type scopes)
    items := fun close => hgoes (ha.items close h hsrc)
    increment := fun op e => hgoes (raised_increment op h)
    newCall := hgoes (ha.newCall h hsrc)
    deleteCall := hgoes (hu.deleteCall h hsrc)
    sizeofCall := hgoes (ha.sizeofCall h hsrc hu)
    parenthesized := hgoes (ha.parenthesized h hsrc hu)
    optional := fun stop => hgoes (ha.optional stop h hsrc)
    ifStmt := hgoes (raised_ifStmt hv hs scopes h hsrc)
    whileStmt := hgoes (raised_whileStmt hv hs scopes h hsrc)
    doStmt := hgoes (raised_doStmt hv hs scopes h hsrc)
    forStmt := hgoes (raised_forStmt hv hs scopes h hsrc)
    returnStmt := hgoes (ha.returnStmt h hsrc)
    jumpStmt := fun kind => hgoes (raised_jumpStmt kind h) }

theorem loops_advance (htext : ∀ t ∈ text, t.kind ≠ .eof) (scopes : Scopes) (d : Nat) :
    LoopsAdvance text scopes d where
  declarations := RaisesRound.advances htext (raises_fileRound (Nat.le_refl d))
  statements := RaisesRound.advances htext fun _ => (raisesAll_stmt d _).blockRound
  declarators base := RaisesRound.advances htext fun _ => (raisesAll_assign d _).declaratorRound base
  parameters := RaisesRound.advances htext fun n =>
    (raises_paramRound : RaisesRound True (n + 1) paramRound paramRound)
  arguments := RaisesRound.advances htext fun _ => (raises_assign scopes d _).itemRound .rparen
  initializers := RaisesRound.advances htext fun _ => (raises_assign scopes d _).itemRound .rbrace
  commas := RaisesRound.advances htext fun _ => (raises_assign scopes d _).commaRound
  operators level ls := RaisesRound.advances htext fun _ =>
    ((raises_unary scopes d _).binary ls).binaryRound level
  postfixes := RaisesRound.advances htext fun _ => (raises_assign scopes d _).postfixRound
  qualifiers := takesEach htext _
  specifiers := takesEach htext _
  stars := takesEach htext _
  stringParts := takesEach htext _

/-! ### Texts -/

/-- No token of a text marks its end, also if the text breaks off at a NUL. -/
theorem kind_ne_eof (source : List Char) : ∀ t ∈ (Token.scan source).tokens, t.kind ≠ .eof := by
  have hp : Pos.start = Pos.start.after [] := rfl
  have hf : true = Token.freshAfter true [] := rfl
  obtain ⟨ts, hts, hkind, -⟩ := Token.scanFrom_covers [] hp hf (Token.seen source)
  rw [Token.scan_seen, hts]
  exact hkind

/-- A text comes to one end, whatever the limit, unless it is too deep for a limit that is low for
the number of its tokens. -/
theorem parse_limitless (source : List Char) :
    ∃ outcome : Except Fault (List Decl), (∀ f, outcome = .error f → f.cause ≠ .tooDeep) ∧
      ∀ limit, parse limit source =
          outcome.mapError (fun f => ⟨f.at?.getD (Token.scan source).endPos, limit, f.cause⟩) ∨
        limit < 2 * (Token.scan source).tokens.length + 3 ∧
          ∃ pos, parse limit source = .error ⟨pos, limit, .tooDeep⟩ := by
  set text := Token.scan source with htext
  set enough := 2 * text.tokens.length + 3 with henough
  have hfile (limit : Nat) : file limit text = file enough text ∨
      limit < enough ∧ ∃ f, file limit text = .error f ∧ f.cause = .tooDeep := by
    rcases Nat.le_total limit enough with h | h
    · rcases raised_file h text with hlow | ⟨hsame, -⟩
      · exact .inr hlow
      · exact .inl hsame
    · rcases raised_file h text with ⟨hlow, -⟩ | ⟨hsame, -⟩
      · exact absurd hlow (Nat.lt_irrefl _)
      · exact .inl hsame.symm
  refine ⟨file enough text, ?_, fun limit => ?_⟩
  · rcases raised_file (Nat.le_refl enough) text with ⟨hlow, -⟩ | ⟨-, hother⟩
    · exact absurd hlow (Nat.lt_irrefl _)
    · exact hother
  · rcases hfile limit with hsame | ⟨hlow, f, hf, hdeep⟩
    · left
      rw [← hsame]
      rfl
    · refine .inr ⟨hlow, f.at?.getD text.endPos, ?_⟩
      rw [parse, ← htext, ← hdeep, hf]
      rfl

/-- Parsing ends on every text: its productions take tokens and never go back, its loops take
tokens in every round but the last, and what comes out is due to the limit only if that is low for
the number of tokens. -/
theorem parsing_ends (source : List Char) :
    let text := (Token.scan source).tokens
    (∀ scopes d, ProductionsAdvance text scopes d) ∧
    (∀ scopes d src (here : Parsed Token src), ProductionsGoOn scopes d here) ∧
    (∀ scopes d, LoopsAdvance text scopes d) ∧
    ∃ outcome : Except Fault (List Decl), (∀ f, outcome = .error f → f.cause ≠ .tooDeep) ∧
      ∀ limit, parse limit source =
          outcome.mapError (fun f => ⟨f.at?.getD (Token.scan source).endPos, limit, f.cause⟩) ∨
        limit < 2 * text.length + 3 ∧
          ∃ pos, parse limit source = .error ⟨pos, limit, .tooDeep⟩ := by
  have htext := kind_ne_eof source
  exact ⟨productions_advance htext, fun scopes d _ => productions_go_on scopes d,
    loops_advance htext, parse_limitless source⟩

end MemLint.Grammar
