import Mathlib.Logic.Relation
import MemLint.Proofs.Grammar.Progress
import MemLint.Proofs.Token.Boundary

/-! Types, written and read. The three loops that read a type are one loop with two stages, words
and stars. A qualifier leaves each stage as it is where it may stand, so that further qualifiers
never change the type; and a type that is written out is read back. -/

namespace MemLint

namespace DeclType

/-- The bases that are written as a word. -/
def Base.named : List Base := [.int, .char, .bool, .short, .long, .float, .double, .void, .auto]

theorem Base.ofKind?_ofWord_name : ∀ b ∈ Base.named, ofKind? (.ofWord b.name) = some b := by decide

theorem Base.isWord_name : ∀ b ∈ Base.named, Token.IsWord b.name := by decide +kernel

theorem Base.ne_pointer : ∀ b ∈ Base.named, b ≠ .pointer := by decide

variable (b : Base) (n : Nat)

theorem depth_wrap : ((base b).wrap n).depth = n := by
  induction n with
  | zero => rfl
  | succ n ih => exact congrArg (· + 1) ih

theorem root_wrap : ((base b).wrap n).root = b := by
  induction n with
  | zero => rfl
  | succ n ih => exact ih

theorem isPointer_wrap {b : Base} (hb : b ≠ .pointer) :
    ((base b).wrap n).isPointer = true ↔ 0 < n := by
  cases n with
  | zero => simpa [wrap, isPointer] using hb
  | succ n => simp [wrap, isPointer]

theorem toList_text_wrap :
    ((base b).wrap n).text.toList = b.name.toList ++ List.replicate n '*' := by
  induction n with
  | zero => exact (List.append_nil _).symm
  | succ n ih =>
    have htext : ((base b).wrap (n + 1)).text = ((base b).wrap n).text ++ "*" := rfl
    rw [htext, String.toList_append, ih, List.append_assoc, List.replicate_succ']
    rfl

theorem wrap_pointer (t : DeclType) : t.pointer.wrap n = t.wrap (n + 1) := by
  induction n with
  | zero => rfl
  | succ n ih => exact congrArg pointer ih

end DeclType

namespace Token

/-! ### Words and stars in a text -/

theorem laidOut_word {w : String} (h : IsWord w) {before tail : List Char} {ls : List Lexeme}
    (ht : ∀ c ∈ tail.head?, isWordChar c = false) (hr : LaidOut (before ++ w.toList) tail ls) :
    LaidOut before (w.toList ++ tail) (.word w :: ls) := by
  obtain ⟨c, cs, hw, hc, hcs⟩ := h
  have hword : (cs ++ tail).takeWhile isWordChar = cs := by
    rw [List.takeWhile_append_of_pos hcs]
    cases tail with
    | nil => simp
    | cons x tail => simp [ht x rfl]
  have hpiece : piece c (cs ++ tail) = ⟨.ofWord w, w.toList, cs.length⟩ := by
    rw [piece_word hc, hword, ← hw, String.ofList_toList]
  rw [hw] at hr ⊢
  have hlaid := LaidOut.lexeme c cs (skipped_word hc _ _) hpiece hr
  rw [String.ofList_toList] at hlaid
  exact hlaid

theorem laidOut_stars (n : Nat) {before tail : List Char} {ls : List Lexeme}
    (hr : LaidOut (before ++ List.replicate n '*') (' ' :: tail) ls) :
    LaidOut before (List.replicate n '*' ++ ' ' :: tail) (List.replicate n ⟨.star, "*"⟩ ++ ls) := by
  induction n generalizing before with
  | zero =>
    rw [List.replicate_zero, List.append_nil] at hr
    exact hr
  | succ n ih =>
    have hpiece : piece '*' (List.replicate n '*' ++ ' ' :: tail) = ⟨.star, ['*'], 0⟩ := by
      cases n <;> rfl
    have hskip : skipped? (freshAfter true before) '*' (List.replicate n '*' ++ ' ' :: tail) =
        none :=
      skipped_eq_none_iff.2 ⟨by decide, fun h => absurd h (by decide), fun h => absurd h (by decide)⟩
    rw [List.replicate_succ, List.append_cons] at hr
    exact .lexeme '*' [] hskip hpiece (ih hr)

/-- A word with stars behind it, and a blank behind them. -/
theorem scan_word_stars {w : String} (h : IsWord w) (n : Nat) (more : List Char) :
    let text := w.toList ++ List.replicate n '*'
    ∃ words rest, (scan (text ++ ' ' :: more)).tokens = words ++ rest ∧
      words.map lexeme = .word w :: List.replicate n ⟨.star, "*"⟩ ∧
      LaidOut text (seen (' ' :: more)) (rest.map lexeme) := by
  intro text
  have hnul : Char.ofNat 0 ∉ text := by
    obtain ⟨c, -, htext, hword, -⟩ := legible_word h
    rw [text_word] at hword
    simp [text, hword]
  have hseen : seen (text ++ ' ' :: more) = text ++ ' ' :: seen more := by
    rw [seen_append hnul]
    rfl
  obtain ⟨ts, -, hrest⟩ := laidOut_scanFrom [] .start (rfl : freshAfter true text = _)
    (seen (' ' :: more))
  have hhead : ∀ c ∈ (List.replicate n '*' ++ ' ' :: seen more).head?, isWordChar c = false := by
    intro c hc
    cases n <;> cases hc <;> decide
  have hlaid : LaidOut [] (seen (text ++ ' ' :: more))
      (.word w :: List.replicate n ⟨.star, "*"⟩ ++ ts.map lexeme) := by
    rw [hseen, List.append_assoc, List.cons_append]
    exact laidOut_word h hhead (laidOut_stars n hrest)
  obtain ⟨words, rest, htokens, hwords, hmore⟩ := List.map_eq_append_iff.1 hlaid.scan
  exact ⟨words, rest, htokens, hwords, hmore ▸ hrest⟩

end Token

namespace Grammar

open DeclType (Base)

variable {ts rest : List Token} {type : DeclType}

/-! ### One loop for a type -/

/-- How far a type has been read. -/
inductive Reading where
  /-- Among words and qualifiers; the words say the base, if there are any yet. -/
  | words (base : Option Base)
  /-- Behind a star. -/
  | stars (type : DeclType)

namespace Reading

/-- The base with one more word. -/
def word : Option Base → Token.Kind → Option Base
  | none, k => Base.ofKind? k
  | some b, k => some (refine b k)

/-- Takes one more token of a type. -/
def next : Reading → Token → Option Reading
  | words b, t =>
    if t.kind.startsType then some (words (word b t.kind))
    else if t.kind = .star then b.map fun b => stars (.pointer (.base b))
    else none
  | stars type, t => (star type t).map stars

/-- The type, if there has been a word. -/
def type? : Reading → Option DeclType
  | words b => b.map .base
  | stars type => some type

theorem next_of_startsType {t : Token} (h : t.kind.startsType = true) (b : Option Base) :
    (words b).next t = some (words (word b t.kind)) := if_pos h

theorem next_of_star {t : Token} (h : t.kind = .star) (b : Base) :
    (words (some b)).next t = some (stars (.pointer (.base b))) := by
  simp [next, h, Token.Kind.startsType, Token.Kind.isType, Token.Kind.isQualifier]

theorem star_of_ne {t : Token} (hs : t.kind.startsType = false) (hstar : t.kind ≠ .star)
    (type : DeclType) : star type t = none := by
  have hconst : t.kind ≠ .kwConst := by
    intro h
    rw [h] at hs
    cases hs
  unfold star
  split
  next h => exact (hstar h).elim
  next h => exact (hconst h).elim
  next => rfl

/-- A token that is neither a word, a qualifier nor a star ends the type. -/
theorem next_of_ne {t : Token} (hs : t.kind.startsType = false) (hstar : t.kind ≠ .star)
    (r : Reading) : r.next t = none := by
  cases r with
  | words b => simp [next, hs, hstar]
  | stars type => simp [next, star_of_ne hs hstar]

/-! ### The loop is that of the grammar -/

theorem absorb_stars (type : DeclType) (ts : List Token) :
    absorb next (stars type) ts = (stars (absorb star type ts).1, (absorb star type ts).2) := by
  induction ts generalizing type with
  | nil => rfl
  | cons t ts ih =>
    simp only [absorb, next]
    cases star type t with
    | none => rfl
    | some type' => exact ih type'

/-- Behind the first word: the further words, then the stars. -/
theorem absorb_words (b : Base) (ts : List Token) :
    (absorb next (words (some b)) ts).1.type? =
      some (absorb star (.base (absorb specifier b ts).1) (absorb specifier b ts).2).1 ∧
    (absorb next (words (some b)) ts).2 =
      (absorb star (.base (absorb specifier b ts).1) (absorb specifier b ts).2).2 := by
  induction ts generalizing b with
  | nil => exact ⟨rfl, rfl⟩
  | cons t ts ih =>
    cases hs : t.kind.startsType with
    | true => simpa [absorb, next_of_startsType hs, specifier, hs, word] using ih (refine b t.kind)
    | false =>
      have hnone : specifier b t = none := by simp [specifier, hs]
      by_cases hstar : t.kind = .star
      · have hmore : star (.base b) t = some (.pointer (.base b)) := by simp [star, hstar]
        simp [absorb, next_of_star hstar, hnone, hmore, absorb_stars, type?]
      · simp [absorb, next_of_ne hs hstar, hnone, star_of_ne hs hstar, type?]

end Reading

open Reading

theorem isSome_ofKind? (k : Token.Kind) : (Base.ofKind? k).isSome = k.isType := by
  cases k <;> rfl

theorem startsType_of_ofKind? {k : Token.Kind} {b : Base} (h : Base.ofKind? k = some b) :
    k.startsType = true := by
  rw [Token.Kind.startsType, ← isSome_ofKind?, h]
  rfl

theorem startsType_of_isQualifier {k : Token.Kind} (h : k.isQualifier = true) :
    k.startsType = true := by rw [Token.Kind.startsType, h, Bool.or_true]

theorem ofKind?_of_isQualifier {k : Token.Kind} (h : k.isQualifier = true) :
    Base.ofKind? k = none := by
  cases k with
  | kwConst | kwStatic => rfl
  | _ => cases h

theorem gives_declType_iff_absorb :
    Gives (declType ts) type rest ↔
      ∃ r, absorb next (words none) ts = (r, rest) ∧ r.type? = some type := by
  rw [gives_declType]
  induction ts with
  | nil => simp [absorb, type?]
  | cons t ts ih =>
    cases hq : t.kind.isQualifier with
    | true =>
      have hword : (words none).next t = some (words none) := by
        rw [next_of_startsType (startsType_of_isQualifier hq), word, ofKind?_of_isQualifier hq]
      simp only [absorb, qualifier, hq, if_true, hword]
      exact ih
    | false =>
      simp only [absorb, qualifier, hq, Bool.false_eq_true, if_false, List.cons.injEq]
      cases hb : Base.ofKind? t.kind with
      | none =>
        have hs : (words none).next t = none := by
          simp [next, Token.Kind.startsType, ← isSome_ofKind?, hb, hq]
        constructor
        · rintro ⟨t', mid, b, ws, ⟨rfl, rfl⟩, hb', -⟩
          cases hb.symm.trans hb'
        · rintro ⟨r, hr, htype⟩
          rw [hs] at hr
          cases hr
          cases htype
      | some b =>
        have hs : (words none).next t = some (words (some b)) := by
          rw [next_of_startsType (startsType_of_ofKind? hb), word, hb]
        obtain ⟨htype, hrest⟩ := absorb_words b ts
        rw [hs]
        constructor
        · rintro ⟨t', mid, b', ws, ⟨rfl, rfl⟩, hb', rfl, hstars⟩
          cases hb.symm.trans hb'
          rw [hstars] at htype hrest
          exact ⟨_, Prod.ext rfl hrest, htype⟩
        · rintro ⟨r, hr, hr'⟩
          simp only [hr] at htype hrest
          refine ⟨t, ts, b, _, ⟨rfl, rfl⟩, hb, rfl, Prod.ext ?_ hrest.symm⟩
          exact Option.some.inj (htype.symm.trans hr')

/-- What is absorbed is a part that the steps take as a whole, up to where a step stops. -/
theorem absorb_eq_iff {α : Type} {step : α → Token → Option α} {a b : α} :
    absorb step a ts = (b, rest) ↔
      ∃ part, ts = part ++ rest ∧ part.foldlM step a = some b ∧
        ∀ t ∈ rest.head?, step b t = none := by
  constructor
  · intro h
    obtain ⟨part, hpart, hfold⟩ := absorb_eq step a ts
    have hstops := absorb_stops step a ts
    rw [h] at hpart hfold hstops
    exact ⟨part, hpart, hfold, hstops⟩
  · rintro ⟨part, rfl, hfold, hstops⟩
    induction part generalizing a with
    | nil =>
      cases hfold
      exact absorb_of_none fun t ts ht => hstops t (List.head?_eq_some_iff.2 ⟨ts, ht⟩)
    | cons t part ih =>
      rw [List.foldlM_cons] at hfold
      obtain ⟨a', ha, hfold⟩ := Option.bind_eq_some_iff.1 hfold
      simp only [List.cons_append, absorb, ha]
      exact ih hfold

/-- The tokens `head` are read as a type in front of `rest`. -/
theorem gives_declType_append {head : List Token} :
    Gives (declType (head ++ rest)) type rest ↔
      ∃ r, head.foldlM next (words none) = some r ∧ r.type? = some type ∧
        ∀ t ∈ rest.head?, r.next t = none := by
  rw [gives_declType_iff_absorb]
  constructor
  · rintro ⟨r, hr, htype⟩
    obtain ⟨part, hpart, hfold, hstops⟩ := absorb_eq_iff.1 hr
    cases List.append_cancel_right hpart
    exact ⟨r, hfold, htype, hstops⟩
  · rintro ⟨r, hfold, htype, hstops⟩
    exact ⟨r, absorb_eq_iff.2 ⟨head, rfl, hfold, hstops⟩, htype⟩

/-! ### Qualifiers -/

/-- One more qualifier among the tokens of a type: `const` anywhere, `static` where no star stands
before it. -/
inductive Qualifies : List Token → List Token → Prop where
  | const (before after : List Token) {q : Token} (hq : q.kind = .kwConst) :
    Qualifies (before ++ after) (before ++ q :: after)
  | static (before after : List Token) {q : Token} (hq : q.kind = .kwStatic)
    (hb : ∀ t ∈ before, t.kind ≠ .star) : Qualifies (before ++ after) (before ++ q :: after)

theorem next_qualifier {q : Token} (hq : q.kind.isQualifier = true) (b : Option Base) :
    (words b).next q = some (words b) := by
  have hword : word b q.kind = b := by
    cases b with
    | none => exact ofKind?_of_isQualifier hq
    | some b => simp [word, refine, ofKind?_of_isQualifier hq]
  rw [next_of_startsType (startsType_of_isQualifier hq), hword]

theorem next_const {q : Token} (hq : q.kind = .kwConst) (r : Reading) : r.next q = some r := by
  cases r with
  | words b => exact next_qualifier (by rw [hq]; rfl) b
  | stars type => simp [next, star, hq]

/-- Without a star the words go on. -/
theorem words_of_foldlM {b : Option Base} {r : Reading} (h : ts.foldlM next (words b) = some r)
    (hts : ∀ t ∈ ts, t.kind ≠ .star) : ∃ b', r = words b' := by
  induction ts generalizing b with
  | nil =>
    cases h
    exact ⟨b, rfl⟩
  | cons t ts ih =>
    rw [List.foldlM_cons] at h
    obtain ⟨r', ht, h⟩ := Option.bind_eq_some_iff.1 h
    obtain ⟨hstar, hts⟩ := List.forall_mem_cons.1 hts
    cases hs : t.kind.startsType with
    | true =>
      rw [next_of_startsType hs] at ht
      cases ht
      exact ih h hts
    | false =>
      rw [next_of_ne hs hstar] at ht
      cases ht

theorem Qualifies.foldlM {head head' : List Token} (h : Qualifies head head') {r : Reading}
    (hr : head.foldlM next (words none) = some r) : head'.foldlM next (words none) = some r := by
  have hinsert {before after : List Token} {q : Token}
      (hq : ∀ r', before.foldlM next (words none) = some r' → r'.next q = some r')
      (hr : (before ++ after).foldlM next (words none) = some r) :
      (before ++ q :: after).foldlM next (words none) = some r := by
    rw [List.foldlM_append] at hr ⊢
    obtain ⟨r', hbefore, hafter⟩ := Option.bind_eq_some_iff.1 hr
    refine Option.bind_eq_some_iff.2 ⟨r', hbefore, ?_⟩
    rw [List.foldlM_cons, hq r' hbefore]
    exact hafter
  cases h with
  | const before after hq => exact hinsert (fun r' _ => next_const hq r') hr
  | static before after hq hb =>
    refine hinsert (fun r' hbefore => ?_) hr
    obtain ⟨b, rfl⟩ := words_of_foldlM hbefore hb
    exact next_qualifier (by rw [hq]; rfl) b

/-- Further qualifiers leave the type as it is. -/
theorem gives_declType_of_qualified {head head' : List Token}
    (h : Relation.ReflTransGen Qualifies head head')
    (hread : Gives (declType (head ++ rest)) type rest) :
    Gives (declType (head' ++ rest)) type rest := by
  induction h with
  | refl => exact hread
  | tail _ hq ih =>
    obtain ⟨r, hfold, htype⟩ := gives_declType_append.1 ih
    exact gives_declType_append.2 ⟨r, hq.foldlM hfold, htype⟩

/-! ### Types that are written out -/

theorem foldlM_stars {ss : List Token} (h : ∀ t ∈ ss, t.kind = .star) (type : DeclType) :
    ss.foldlM next (stars type) = some (stars (type.wrap ss.length)) := by
  induction ss generalizing type with
  | nil => rfl
  | cons t ss ih =>
    obtain ⟨ht, hss⟩ := List.forall_mem_cons.1 h
    have hnext : (stars type).next t = some (stars type.pointer) := by simp [next, star, ht]
    rw [List.foldlM_cons, hnext, List.length_cons, ← DeclType.wrap_pointer]
    exact ih hss _

/-- A word and stars are read as the base under so many pointers. -/
theorem gives_declType_written {t : Token} {ss : List Token} {b : Base}
    (ht : Base.ofKind? t.kind = some b) (hss : ∀ t ∈ ss, t.kind = .star)
    (hs : (peek rest).startsType = false) (hstar : peek rest ≠ .star) :
    Gives (declType (t :: ss ++ rest)) ((DeclType.base b).wrap ss.length) rest := by
  have hstops (r : Reading) : ∀ u ∈ rest.head?, r.next u = none := by
    intro u hu
    obtain ⟨us, rfl⟩ := List.head?_eq_some_iff.1 hu
    exact next_of_ne hs hstar r
  have hword : (words none).next t = some (words (some b)) := by
    rw [next_of_startsType (startsType_of_ofKind? ht), word, ht]
  refine gives_declType_append.2 ?_
  rw [List.foldlM_cons, hword]
  cases ss with
  | nil => exact ⟨_, rfl, rfl, hstops _⟩
  | cons s ss =>
    obtain ⟨hfirst, hss⟩ := List.forall_mem_cons.1 hss
    refine ⟨stars ((DeclType.base b).wrap (ss.length + 1)), ?_, rfl, hstops _⟩
    have hfold := foldlM_stars hss (.pointer (.base b))
    rw [DeclType.wrap_pointer] at hfold
    exact (congrArg (· >>= _) (next_of_star hfirst b)).trans hfold

/-- A type that is written out, with a blank behind it, is read as the type it is, whatever token
follows that does not go on with it: it has as many levels as stars were written, and its base. And
what is read as a type is read as the same type with further qualifiers, `const` anywhere and
`static` in front of the stars. -/
theorem written_types_read_back :
    (∀ b ∈ Base.named, ∀ n more,
      let type := (DeclType.base b).wrap n
      type.depth = n ∧ type.root = b ∧ (type.isPointer = true ↔ 0 < n) ∧
      ∃ words rest, (Token.scan (type.text.toList ++ ' ' :: more)).tokens = words ++ rest ∧
        words.map Token.lexeme = .word b.name :: List.replicate n ⟨.star, "*"⟩ ∧
        Token.LaidOut type.text.toList (Token.seen (' ' :: more)) (rest.map Token.lexeme) ∧
        ((peek rest).startsType = false → peek rest ≠ .star →
          Gives (declType (words ++ rest)) type rest)) ∧
    ∀ head rest type, Gives (declType (head ++ rest)) type rest →
      ∀ head', Relation.ReflTransGen Qualifies head head' →
        Gives (declType (head' ++ rest)) type rest := by
  refine ⟨fun b hb n more => ?_, fun head rest type hread head' h =>
    gives_declType_of_qualified h hread⟩
  refine ⟨DeclType.depth_wrap b n, DeclType.root_wrap b n,
    DeclType.isPointer_wrap n (Base.ne_pointer b hb), ?_⟩
  rw [DeclType.toList_text_wrap]
  obtain ⟨words, rest, htokens, hwords, hrest⟩ :=
    Token.scan_word_stars (Base.isWord_name b hb) n more
  refine ⟨words, rest, htokens, hwords, hrest, fun hs hstar => ?_⟩
  obtain ⟨t, ss, rfl, ht, hss⟩ := List.map_eq_cons_iff.1 hwords
  have hkind : t.kind = .ofWord b.name := congrArg Token.Lexeme.kind ht
  have hstars : ∀ u ∈ ss, u.kind = .star := by
    intro u hu
    have hmem : u.lexeme ∈ ss.map Token.lexeme := List.mem_map_of_mem hu
    rw [hss] at hmem
    exact congrArg Token.Lexeme.kind (List.eq_of_mem_replicate hmem)
  have hlength : ss.length = n := by
    rw [← List.length_map (f := Token.lexeme), hss, List.length_replicate]
  have hbase : Base.ofKind? t.kind = some b := by rw [hkind, Base.ofKind?_ofWord_name b hb]
  rw [← hlength]
  exact gives_declType_written hbase hstars hs hstar

/-- Two stars behind a word, with `static` in front of the word and `const` between the stars. -/
theorem written_types_read_back_at_const :
    let token (k : Token.Kind) (lex : String) (col : Nat) : Token := ⟨k, lex, ⟨1, col⟩⟩
    let type := (DeclType.base .char).wrap 2
    let x := token .ident "x" 8
    type.text = "char**" ∧ Gives (declType (Token.scan "char** x".toList).tokens) type [x] ∧
      Gives (declType [token .kwStatic "static" 0, token .kwChar "char" 1, token .star "*" 5,
        token .kwConst "const" 0, token .star "*" 6, x]) type [x] := by
  intro token type x
  let head := [token .kwChar "char" 1, token .star "*" 5, token .star "*" 6]
  have htokens : (Token.scan "char** x".toList).tokens = head ++ [x] := by with_unfolding_all rfl
  obtain ⟨hwritten, hqualified⟩ := written_types_read_back
  obtain ⟨-, -, -, words, rest, hscan, hwords, -, hread⟩ := hwritten .char (by decide) 2 ['x']
  -- the lexemes say that the words are the first three tokens
  have hlength : words.length = head.length := by
    rw [← List.length_map (f := Token.lexeme), hwords]
    rfl
  obtain ⟨rfl, rfl⟩ := List.append_inj (hscan.symm.trans htokens) hlength
  have hplain : Gives (declType (head ++ [x])) type [x] := hread rfl Token.Kind.noConfusion
  refine ⟨rfl, htokens ▸ hplain, ?_⟩
  have hstatic := Qualifies.static [] head (q := token .kwStatic "static" 0) rfl
    (List.forall_mem_nil _)
  have hconst := Qualifies.const [token .kwStatic "static" 0, token .kwChar "char" 1,
    token .star "*" 5] [token .star "*" 6] (q := token .kwConst "const" 0) rfl
  exact hqualified head [x] type hplain _ (.tail (.single hstatic) hconst)

end Grammar

end MemLint
