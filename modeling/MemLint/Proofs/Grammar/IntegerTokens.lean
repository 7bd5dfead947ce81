import MemLint.Proofs.Grammar.Balance

/-! Integer literals in an accepted text. Each of them is read as a number, also where nothing of it
is kept; only the size of a parameter that is an array is skipped. -/

namespace MemLint.Grammar

variable {us vs : List Mark} {ts : List Token} {t : Token}

/-! ### Tokens that can be read -/

/-- If the token is an integer literal, it is one that stands for a number. -/
def Readable (t : Token) : Prop := t.kind = .int → (literal? t).isSome

/-- All the tokens are readable. -/
def AllReadable (us : List Mark) : Prop := ∀ m ∈ us, Readable m.token

/-- What is in a table without an entry for integer literals is none. -/
theorem readable_of_table {β : Type} {f : Token.Kind → Option β} (hf : f .int = none) {y : β}
    (h : f t.kind = some y) : Readable t := by
  intro hk
  rw [hk, hf] at h
  cases h

theorem readable_of_kind {k : Token.Kind} (ht : t.kind = k) (hk : decide (k = .int) = false) :
    Readable t := fun hint => absurd (ht.symm.trans hint) (of_decide_eq_false hk)

namespace AllReadable

theorem nil : AllReadable [] := nofun

theorem cons (ht : Readable t) (h : AllReadable us) : AllReadable (.other t :: us) :=
  List.forall_mem_cons.2 ⟨ht, h⟩

theorem append (h : AllReadable us) (h' : AllReadable vs) : AllReadable (us ++ vs) :=
  List.forall_mem_append.2 ⟨h, h'⟩

theorem drop (h : AllReadable us) : AllReadable (us.map .drop) := by
  intro m hm
  obtain ⟨n, hn, rfl⟩ := List.mem_map.1 hm
  rw [n.token_drop]
  exact h n hn

/-- A token of another kind. -/
theorem token {k : Token.Kind} (ht : t.kind = k) (hk : decide (k = .int) = false)
    (h : AllReadable us) : AllReadable (.other t :: us) := h.cons (readable_of_kind ht hk)

/-- Tokens that are absorbed one by one, where no integer literal is. -/
theorem absorbed {α : Type} {step : α → Token → Option α}
    (hstep : ∀ a t, t.kind = .int → step a t = none) {a a' : α}
    (h : ts.foldlM step a = some a') : AllReadable (ts.map .other) := by
  induction ts generalizing a with
  | nil => exact nil
  | cons t ts ih =>
    rw [List.foldlM_cons] at h
    obtain ⟨a₁, ha, h⟩ := Option.bind_eq_some_iff.1 h
    refine (ih h).cons fun hk => ?_
    rw [hstep a t hk] at ha
    cases ha

end AllReadable

theorem star_of_int (type : DeclType) (t : Token) (h : t.kind = .int) : star type t = none := by
  simp only [star, h]

theorem qualifier_of_int (u : Unit) (t : Token) (h : t.kind = .int) : qualifier u t = none := by
  rw [qualifier, h]
  rfl

theorem specifier_of_int (b : DeclType.Base) (t : Token) (h : t.kind = .int) :
    specifier b t = none := by
  rw [specifier, h]
  rfl

theorem stringPart_of_int (s : String) (t : Token) (h : t.kind = .int) : stringPart s t = none := by
  rw [stringPart, h]
  rfl

theorem TypeText.readable {type : DeclType} (h : TypeText ts type) :
    AllReadable (ts.map .other) := by
  obtain ⟨qs, t, ws, ss, b, b', rfl, hq, ht, hw, hs⟩ := h
  have hquals := AllReadable.absorbed qualifier_of_int hq
  have hwords := AllReadable.absorbed specifier_of_int hw
  have hstars := AllReadable.absorbed star_of_int hs
  have hall := hquals.append ((hwords.append hstars).cons (readable_of_table rfl ht))
  simpa using hall

/-! ### Expressions and statements -/

/-- Every integer literal among the tokens of an expression is read, be it kept or not. -/
theorem Derives.readable {ph : Phrase} (h : Derives us ph) (hph : ph.Standard) :
    AllReadable us := by
  induction h with
  | name ht _ => exact List.forall_mem_singleton.2 (readable_of_kind ht rfl)
  | number hv => exact AllReadable.nil.cons fun _ => by rw [hv]; rfl
  | string ht hs => exact (AllReadable.absorbed stringPart_of_int hs).token ht rfl
  | null ht | stringInit ht => exact AllReadable.nil.token ht rfl
  | group ho _ hc ih => exact ((ih trivial).append (AllReadable.nil.token hc rfl)).token ho rfl
  | call _ _ ho _ hc ihx ih | index _ _ ho _ hc ihx ih =>
    exact (ihx trivial).append (((ih trivial).append (AllReadable.nil.token hc rfl)).token ho rfl)
  | stepAfter _ ht _ ih =>
    exact (ih trivial).append (AllReadable.nil.cons (readable_of_table rfl ht))
  | unary _ ih | single _ ih | lastItem _ ih => exact ih trivial
  | stepBefore ht _ _ ih => exact (ih hph).cons (readable_of_table rfl ht)
  | signed ht _ ih => exact (ih hph).cons (readable_of_table rfl ht)
  | cast ho ht hc _ ih => exact (ht.readable.append ((ih hph).token hc rfl)).token ho rfl
  | new ht hts => exact hts.readable.token ht rfl
  | newSized ht hts ho _ hc ih | newArgs ht hts ho _ hc ih =>
    have hsize := ((ih trivial).append (AllReadable.nil.token hc rfl)).token ho rfl
    exact (hts.readable.append hsize).token ht rfl
  | newFilled ht hts ho _ hc _ ihs ihn =>
    have hsize := ((ihs trivial).append ((ihn trivial).token hc rfl)).token ho rfl
    exact (hts.readable.append hsize).token ht rfl
  | delete ht _ ih | sizeof ht _ ih => exact (ih hph).token ht rfl
  | deleteArray ht ho hc _ ih => exact (((ih hph).token hc rfl).token ho rfl).token ht rfl
  | sizeofType ht ho hts hc =>
    exact ((hts.readable.append (AllReadable.nil.token hc rfl)).token ho rfl).token ht rfl
  | tighter _ ih => exact ih (List.cons_subset.1 hph).2
  | binary _ ht _ ihl ihr =>
    obtain ⟨hlevel, htighter⟩ := List.cons_subset.1 hph
    have hlevels : ∀ level ∈ levels, level .int = none := by decide
    exact (ihl hph).append ((ihr htighter).cons (readable_of_table (hlevels _ hlevel) ht))
  | plain _ ih => exact ih (List.Subset.refl _)
  | assign _ _ ht _ ihx ihv =>
    exact (ihx (List.Subset.refl _)).append ((ihv trivial).cons (readable_of_table rfl ht))
  | comma _ ht _ ihx ihe => exact (ihx trivial).drop.append ((ihe trivial).token ht rfl)
  | noItem => exact .nil
  | nextItem _ ht _ ihx ihxs => exact (ihx trivial).append ((ihxs trivial).token ht rfl)
  | braces ho _ hc ih =>
    exact ((ih trivial).drop.append (AllReadable.nil.token hc rfl)).token ho rfl

theorem DerivesMaybe.readable {e : Expr} (h : DerivesMaybe us e) : AllReadable us := by
  cases h with
  | none => exact .nil
  | some h => exact h.readable trivial

theorem DeclaresName.readable {s : Stmt} (h : DeclaresName us s) : AllReadable us := by
  cases h with
  | plain hn => exact AllReadable.nil.token hn rfl
  | init hn ha he => exact ((he.readable trivial).token ha rfl).token hn rfl
  | array hn ho hs hc =>
    have hsize := (hs.readable trivial).append (AllReadable.nil.token hc rfl)
    exact (hsize.token ho rfl).token hn rfl
  | filled hn ho hs hc ha hk =>
    have hinit := ((hk.readable trivial).token ha rfl).token hc rfl
    exact (((hs.readable trivial).append hinit).token ho rfl).token hn rfl
  | counted hn ho hc ha hk =>
    have hinit := ((hk.readable trivial).token ha rfl).token hc rfl
    exact (hinit.token ho rfl).token hn rfl

theorem DeclaresNames.readable {base : DeclType.Base} {ss : List Stmt}
    (h : DeclaresNames base us ss) : AllReadable us := by
  induction h with
  | one h => exact h.readable
  | more _ ht hstars hs ih =>
    exact ih.append (((AllReadable.absorbed star_of_int hstars).append hs.readable).token ht rfl)

theorem DerivesStmt.readable {ph : StmtPhrase} (h : DerivesStmt us ph) : AllReadable us := by
  induction h with
  | noStmt => exact .nil
  | nextStmt _ _ ihss ihs => exact ihss.append ihs
  | block ho _ hc ih => exact (ih.append (AllReadable.nil.token hc rfl)).token ho rfl
  | empty ht | noFirst ht => exact AllReadable.nil.token ht rfl
  | ret ht hx hc => exact (hx.readable.append (AllReadable.nil.token hc rfl)).token ht rfl
  | cond ht ho htest hc _ ih | whileLoop ht ho htest hc _ ih =>
    exact (((htest.readable trivial).append (ih.token hc rfl)).token ho rfl).token ht rfl
  | condElse ht ho htest hc _ hu _ ihyes ihno =>
    have hbranches := (ihyes.append (ihno.token hu rfl)).token hc rfl
    exact (((htest.readable trivial).append hbranches).token ho rfl).token ht rfl
  | doLoop ht _ hu ho htest hc hc' ih =>
    have hend := (AllReadable.nil.token hc' rfl).token hc rfl
    have htest := ((htest.readable trivial).append hend).token ho rfl
    exact (ih.append (htest.token hu rfl)).token ht rfl
  | someFirst _ ih => exact ih
  | forLoop ht ho _ htest hc hpost hc' _ ihinit ihbody =>
    have hend := (hpost.readable.append (ihbody.token hc' rfl)).token hc rfl
    exact ((ihinit.append (htest.readable.append hend)).token ho rfl).token ht rfl
  | jump ht hc => exact (AllReadable.nil.token hc rfl).cons (readable_of_table rfl ht)
  | decl ht hss hc => exact ht.readable.append (hss.readable.append (AllReadable.nil.token hc rfl))
  | expr hx hc => exact (hx.readable trivial).append (AllReadable.nil.token hc rfl)

/-! ### Files -/

/-- Between `before` and `after` the token stands in the head of a function. -/
def InHead (before : List Token) (t : Token) (after : List Token) : Prop :=
  ∃ n o h h' c ps, n.kind = .ident ∧ o.kind = .lparen ∧ c.kind = .rparen ∧
    n :: o :: h <:+ before ∧ h' ++ [c] <+: after ∧ HeadText (h ++ t :: h') ps

theorem InHead.extend {before after : List Token} (h : InHead before t after)
    (pre post : List Token) : InHead (pre ++ before) t (after ++ post) := by
  obtain ⟨n, o, h, h', c, ps, hn, ho, hc, hb, ha, hh⟩ := h
  exact ⟨n, o, h, h', c, ps, hn, ho, hc, hb.trans (List.suffix_append _ _),
    ha.trans (List.prefix_append _ _), hh⟩

/-- Every token is readable or stands in the head of a function. -/
def Placed (ts : List Token) : Prop :=
  ∀ ⦃before t after⦄, ts = before ++ t :: after → Readable t ∨ InHead before t after

theorem AllReadable.placed (h : AllReadable us) : Placed (us.map Mark.token) := by
  intro before t after hts
  have ht : t ∈ us.map Mark.token := by simp [hts]
  obtain ⟨m, hm, rfl⟩ := List.mem_map.1 ht
  exact .inl (h m hm)

theorem Placed.append {ts' : List Token} (h : Placed ts) (h' : Placed ts') :
    Placed (ts ++ ts') := by
  intro before t after hts
  rcases List.append_eq_append_iff.1 hts with ⟨mid, rfl, hmid⟩ | ⟨mid, hmid, hafter⟩
  · refine (h' hmid).imp_right fun hin => ?_
    simpa using hin.extend ts []
  · cases mid with
    | nil =>
      have hts' : ts' = [] ++ t :: after := hafter.symm
      refine (h' hts').imp_right fun hin => ?_
      simpa using hin.extend before []
    | cons t' mid =>
      obtain ⟨rfl, rfl⟩ := List.cons.inj hafter
      exact (h hmid).imp_right fun hin => hin.extend [] ts'

theorem placed_head {n o c : Token} {hs : List Token} {ps : List Param} (hn : n.kind = .ident)
    (ho : o.kind = .lparen) (hp : HeadText hs ps) (hc : c.kind = .rparen) :
    Placed (n :: o :: (hs ++ [c])) := by
  intro before t after hts
  match before with
  | [] =>
    cases hts
    exact .inl (readable_of_kind hn rfl)
  | [_] =>
    cases hts
    exact .inl (readable_of_kind ho rfl)
  | n' :: o' :: h =>
    simp only [List.cons_append, List.cons.injEq] at hts
    obtain ⟨rfl, rfl, hts⟩ := hts
    rcases List.append_eq_append_iff.1 hts with ⟨mid, rfl, hmid⟩ | ⟨mid, rfl, hmid⟩
    · -- behind the head only the closing parenthesis is left
      have ht : t ∈ [c] := by simp [hmid]
      rw [List.mem_singleton.1 ht]
      exact .inl (readable_of_kind hc rfl)
    · cases mid with
      | nil =>
        cases hmid
        exact .inl (readable_of_kind hc rfl)
      | cons t' mid =>
        obtain ⟨rfl, rfl⟩ := List.cons.inj hmid
        exact .inr ⟨n, o, h, mid, c, ps, hn, ho, hc, List.suffix_rfl, List.prefix_rfl, hp⟩

theorem DerivesDecl.placed {ds : List Decl} (h : DerivesDecl us ds) :
    Placed (us.map Mark.token) := by
  cases h with
  | prototype ht hn ho hp hc he =>
    have htype := ht.readable.placed
    have hend := (AllReadable.nil.token he rfl).placed
    have hall := htype.append ((placed_head hn ho hp hc).append hend)
    rw [Mark.tokens_other] at hall ⊢
    simpa [Mark.other] using hall
  | func ht hn ho hp hc ho' hss hc' =>
    have htype := ht.readable.placed
    have hbody := ((hss.readable.append (AllReadable.nil.token hc' rfl)).token ho' rfl).placed
    have hall := htype.append ((placed_head hn ho hp hc).append hbody)
    rw [Mark.tokens_other] at hall
    rw [List.map_append, Mark.tokens_other]
    simpa [Mark.other] using hall
  | vars ht hss hc =>
    exact (ht.readable.append (hss.readable.append (AllReadable.nil.token hc rfl))).placed
  | stmt h => exact h.readable.placed

theorem DerivesFile.placed {ds : List Decl} (h : DerivesFile us ds) :
    Placed (us.map Mark.token) := by
  induction h with
  | nil => exact AllReadable.nil.placed
  | next _ hd ih =>
    rw [List.map_append]
    exact ih.append hd.placed

/-- An integer literal that stands for no number makes a text fail, unless it is in the head of a
function, where no expression stands. -/
theorem error_of_unreadable {limit : Nat} {source : List Char} {before after : List Token}
    (hts : (Token.scan source).tokens = before ++ t :: after) (ht : ¬ Readable t)
    (hin : ¬ InHead before t after) : ∃ e, parse limit source = .error e := by
  cases h : parse limit source with
  | error e => exact ⟨e, rfl⟩
  | ok ds =>
    obtain ⟨us, hus, hds⟩ := exists_derivesFile h
    rcases hds.placed (hus.trans hts) with hread | hhead
    · exact (ht hread).elim
    · exact (hin hhead).elim

end MemLint.Grammar
