import MemLint.Proofs.Report.Document

/-! A reader of JSON documents: the lexemes of a text, and the value of the lexemes. It gives every
document the value that it says, so a document says one thing only. -/

namespace MemLint.Report.Json

/-! ### Strings -/

/-- A character behind a backslash, and what is left of the text. Two codes of four digits may stand
for one character; neither of them stands for one alone. -/
def escaped? : List Char → Option (Char × List Char)
  | 'u' :: a :: b :: c :: d :: cs => do
    let n ← Numeral.digits? 16 [a, b, c, d]
    if n < 0xD800 ∨ 0xE000 ≤ n then some (Char.ofNat n, cs)
    else match cs with
      | '\\' :: 'u' :: a :: b :: c :: d :: cs => do
        let m ← Numeral.digits? 16 [a, b, c, d]
        if n < 0xDC00 ∧ 0xDC00 ≤ m ∧ m < 0xE000 then
          some (Char.ofNat (0x10000 + (n - 0xD800) * 0x400 + (m - 0xDC00)), cs)
        else none
      | _ => none
  | e :: cs => (escapes.lookup e).map (·, cs)
  | [] => none

theorem escaped?_shorter {cs rest : List Char} {c : Char} (h : escaped? cs = some (c, rest)) :
    rest.length < cs.length := by
  unfold escaped? at h
  split at h
  · obtain ⟨n, -, h⟩ := Option.bind_eq_some_iff.1 h
    split at h
    · obtain ⟨-, rfl⟩ := Prod.mk.inj (Option.some.inj h)
      simp only [List.length_cons]
      omega
    split at h
    · obtain ⟨m, -, h⟩ := Option.bind_eq_some_iff.1 h
      split at h
      · obtain ⟨-, rfl⟩ := Prod.mk.inj (Option.some.inj h)
        simp only [List.length_cons]
        omega
      · cases h
    · cases h
  · obtain ⟨e, -, h⟩ := Option.map_eq_some_iff.1 h
    cases h
    exact Nat.lt_succ_self _
  · cases h

/-- A text up to the quote at its end, and what is left behind the quote. -/
def text? : List Char → Option (List Char × List Char)
  | [] => none
  | c :: cs =>
    if c = '"' then some ([], cs)
    else if c = '\\' then
      match _h : escaped? cs with
      | none => none
      | some (e, rest) => (text? rest).map fun r => (e :: r.1, r.2)
    else if c.toNat < 0x20 then none
    else (text? cs).map fun r => (c :: r.1, r.2)
termination_by cs => cs.length
decreasing_by
  · have := escaped?_shorter _h
    simp only [List.length_cons]
    omega
  · simp only [List.length_cons]
    omega

theorem text?_shorter {cs s rest : List Char} (h : text? cs = some (s, rest)) :
    rest.length < cs.length := by
  fun_induction text? cs generalizing s with
  | case1 | case3 | case5 => cases h
  | case2 cs =>
    cases h
    exact Nat.lt_succ_self _
  | case4 cs _ e left hleft ih =>
    obtain ⟨r, hr, hs⟩ := Option.map_eq_some_iff.1 h
    obtain ⟨rfl, rfl⟩ := Prod.mk.inj hs
    exact Nat.lt_succ_of_lt (Nat.lt_trans (ih hr) (escaped?_shorter ‹_›))
  | case6 c cs _ _ _ ih =>
    obtain ⟨r, hr, hs⟩ := Option.map_eq_some_iff.1 h
    obtain ⟨rfl, rfl⟩ := Prod.mk.inj hs
    exact Nat.lt_succ_of_lt (ih hr)

/-! ### Numbers -/

/-- A run of digits, with its length and what is left of the text. -/
def digits? (cs : List Char) : Option (Nat × Nat × List Char) :=
  let ds := cs.takeWhile Char.isDigit
  if ds.isEmpty then none
  else (Numeral.digits? 10 ds).map (·, ds.length, cs.dropWhile Char.isDigit)

/-- Digits in front of a point. Only a zero that stands alone comes first. -/
def whole? (cs : List Char) : Option (Nat × List Char) :=
  match digits? cs with
  | none => none
  | some (n, len, rest) => if cs.head? = some '0' ∧ len ≠ 1 then none else some (n, rest)

/-- Digits behind a point, if there is one. -/
def fraction? : List Char → Option (Nat × Nat × List Char)
  | '.' :: cs => digits? cs
  | cs => some (0, 0, cs)

/-- A sign, as the factor that it stands for, and what is left of the text. -/
def sign : List Char → Int × List Char
  | '+' :: cs => (1, cs)
  | '-' :: cs => (-1, cs)
  | cs => (1, cs)

/-- An exponent, if there is one, with nothing behind it. -/
def exponent? : List Char → Option Int
  | [] => some 0
  | e :: cs =>
    if e = 'e' ∨ e = 'E' then
      match digits? (sign cs).2 with
      | some (n, _, []) => some ((sign cs).1 * n)
      | _ => none
    else none

/-- A number without a sign, as its digits and the place of its point. -/
def unsigned? (cs : List Char) : Option (Nat × Int) := do
  let (w, cs) ← whole? cs
  let (f, k, cs) ← fraction? cs
  let x ← exponent? cs
  return (w * Nat.pow 10 k + f, x - k)

/-- A number, perhaps with a minus in front of it. -/
def number? (cs : List Char) : Option Rat :=
  if cs.head? = some '-' then (unsigned? cs.tail).map fun r => scale (-r.1) r.2
  else (unsigned? cs).map fun r => scale r.1 r.2

/-! ### Lexemes -/

def word? (w : List Char) : Option Lexeme :=
  if w = ['n', 'u', 'l', 'l'] then some .null
  else if w = ['t', 'r', 'u', 'e'] then some (.bool true)
  else if w = ['f', 'a', 'l', 's', 'e'] then some (.bool false)
  else (number? w).map .number

def lexemes? : List Char → Option (List Lexeme)
  | [] => some []
  | c :: cs =>
    if isSpace c then lexemes? cs
    else if c ∈ marks then (lexemes? cs).map (.mark c :: ·)
    else if c = '"' then
      match _h : text? cs with
      | none => none
      | some (s, rest) => (lexemes? rest).map (.str (String.ofList s) :: ·)
    else if inWord c then
      match word? (c :: cs.takeWhile inWord) with
      | none => none
      | some l => (lexemes? (cs.dropWhile inWord)).map (l :: ·)
    else none
termination_by cs => cs.length
decreasing_by
  · simp
  · simp
  · have := text?_shorter _h
    simp only [List.length_cons]
    omega
  · have := cs.length_dropWhile_le inWord
    simp only [List.length_cons]
    omega

/-! ### Values -/

/-- A list or an object that is being read: what it holds so far, the last of it first. An object
waits for the value of a key. -/
inductive Frame where
  | list (items : List Value)
  | object (fields : List (String × Value)) (key : String)

mutual

/-- The value of lexemes that go on with a value, inside of lists and objects that are not closed
yet. -/
def value? : List Lexeme → List Frame → Option Value
  | .null :: ls, st => after? .null ls st
  | .bool b :: ls, st => after? (.bool b) ls st
  | .number q :: ls, st => after? (.number q) ls st
  | .str s :: ls, st => after? (.str s) ls st
  | .mark '[' :: .mark ']' :: ls, st => after? (.list []) ls st
  | .mark '[' :: ls, st => value? ls (.list [] :: st)
  | .mark '\x7b' :: .mark '\x7d' :: ls, st => after? (.object []) ls st
  | .mark '\x7b' :: .str key :: .mark ':' :: ls, st => value? ls (.object [] key :: st)
  | _, _ => none

/-- The same behind the value `v`. -/
def after? (v : Value) : List Lexeme → List Frame → Option Value
  | [], [] => some v
  | .mark ',' :: ls, .list vs :: st => value? ls (.list (v :: vs) :: st)
  | .mark ']' :: ls, .list vs :: st => after? (.list (v :: vs).reverse) ls st
  | .mark ',' :: .str key' :: .mark ':' :: ls, .object fs key :: st =>
    value? ls (.object ((key, v) :: fs) key' :: st)
  | .mark '\x7d' :: ls, .object fs key :: st => after? (.object ((key, v) :: fs).reverse) ls st
  | _, _ => none

end

/-- Reads a document. -/
def read? (text : List Char) : Option Value := (lexemes? text).bind (value? · [])

/-! ### Spelled strings are read -/

theorem SpellsCode.digits? {ds : List Char} {n : Nat} (h : SpellsCode ds n) :
    ∃ a b c d, ds = [a, b, c, d] ∧ Numeral.digits? 16 [a, b, c, d] = some n := by
  obtain ⟨hlen, hspells⟩ := h
  match ds, hlen with
  | [a, b, c, d], _ => exact ⟨a, b, c, d, rfl, hspells.digits? (by decide)⟩

theorem escaped?_code {c : Char} {ds : List Char} (h : SpellsCode ds c.toNat) (rest : List Char) :
    escaped? ('u' :: ds ++ rest) = some (c, rest) := by
  obtain ⟨x, y, z, w, rfl, hn⟩ := h.digits?
  have hvalid : c.toNat < 0xD800 ∨ 0xE000 ≤ c.toNat :=
    c.valid.imp_right fun h => Nat.succ_le_of_lt h.1
  simp [escaped?, hn, hvalid]

theorem escaped?_pair {c : Char} {ds ds' : List Char} {hi lo : Nat} (hhi : hi < 0x400)
    (hlo : lo < 0x400) (hds : SpellsCode ds (0xD800 + hi)) (hds' : SpellsCode ds' (0xDC00 + lo))
    (hc : c.toNat = 0x10000 + hi * 0x400 + lo) (rest : List Char) :
    escaped? ('u' :: ds ++ '\\' :: 'u' :: ds' ++ rest) = some (c, rest) := by
  obtain ⟨x, y, z, w, rfl, hn⟩ := hds.digits?
  obtain ⟨x', y', z', w', rfl, hm⟩ := hds'.digits?
  have hchar :
      Char.ofNat (0x10000 + (0xD800 + hi - 0xD800) * 0x400 + (0xDC00 + lo - 0xDC00)) = c := by
    rw [Nat.add_sub_cancel_left, Nat.add_sub_cancel_left, ← hc, Char.ofNat_toNat]
  have hrange : ¬ (0xD800 + hi < 0xD800 ∨ 0xE000 ≤ 0xD800 + hi) := by omega
  have hlow : 0xD800 + hi < 0xDC00 ∧ 0xDC00 ≤ 0xDC00 + lo ∧ 0xDC00 + lo < 0xE000 := by omega
  simp only [List.cons_append, List.nil_append, escaped?, hn, hm, Option.bind_eq_bind,
    Option.bind_some, if_neg hrange, if_pos hlow, hchar]

theorem escaped?_escape {e c : Char} (h : (e, c) ∈ escapes) (rest : List Char) :
    escaped? (e :: rest) = some (c, rest) := by
  simp only [escapes, List.mem_cons, Prod.mk.injEq, List.not_mem_nil, or_false] at h
  rcases h with ⟨rfl, rfl⟩ | ⟨rfl, rfl⟩ | ⟨rfl, rfl⟩ | ⟨rfl, rfl⟩ | ⟨rfl, rfl⟩ | ⟨rfl, rfl⟩ |
    ⟨rfl, rfl⟩ | ⟨rfl, rfl⟩ <;> rfl

theorem text?_backslash {cs rest : List Char} {c : Char} (h : escaped? cs = some (c, rest)) :
    text? ('\\' :: cs) = (text? rest).map fun r => (c :: r.1, r.2) := by
  rw [text?, if_neg (by decide), if_pos rfl]
  split
  next heq => cases heq.symm.trans h
  next e left heq =>
    obtain ⟨rfl, rfl⟩ := Prod.mk.inj (Option.some.inj (heq.symm.trans h))
    rfl

theorem SpellsChar.text? {c : Char} {t : List Char} (h : SpellsChar c t) (rest : List Char) :
    text? (t ++ rest) = (Json.text? rest).map fun r => (c :: r.1, r.2) := by
  cases h with
  | plain hcontrol hquote hslash =>
    rw [List.singleton_append, Json.text?, if_neg hquote, if_neg hslash, if_neg (by omega)]
  | escape h => exact text?_backslash (escaped?_escape h rest)
  | code h => exact text?_backslash (escaped?_code h rest)
  | pair hhi hlo hds hds' hc => exact text?_backslash (escaped?_pair hhi hlo hds hds' hc rest)

theorem SpellsText.text? {cs t : List Char} (h : SpellsText cs t) (rest : List Char) :
    text? (t ++ '"' :: rest) = some (cs, rest) := by
  obtain ⟨parts, hparts, rfl⟩ := h
  induction hparts with
  | nil => rw [List.flatten_nil, List.nil_append, Json.text?, if_pos rfl]
  | cons hc _ ih => rw [List.flatten_cons, List.append_assoc, hc.text?, ih, Option.map_some]

/-! ### Spelled numbers are read -/

/-- What holds of the digits of a base, in either case, holds of all that is spelled in it. -/
theorem forall_of_spells {base : Nat} {p : Char → Prop}
    (hp : ∀ v < base, p v.digitChar ∧ p v.digitChar.toUpper) {ds : List Char} {n : Nat}
    (h : Numeral.Spells base ds n) : ∀ c ∈ ds, p c := by
  obtain ⟨vs, hvs, -⟩ := h
  induction hvs with
  | nil => exact List.forall_mem_nil _
  | cons hc _ ih =>
    refine List.forall_mem_cons.2 ⟨?_, ih⟩
    obtain ⟨hv, rfl | rfl⟩ := hc
    · exact (hp _ hv).1
    · exact (hp _ hv).2

theorem isDigit_of_spells {ds : List Char} {n : Nat} (h : Numeral.Spells 10 ds n) :
    ∀ c ∈ ds, c.isDigit = true := forall_of_spells (by decide) h

/-- No digit goes on at the start of the text. -/
def EndsDigits (cs : List Char) : Prop := ∀ c ∈ cs.head?, c.isDigit = false

theorem takeWhile_of_head {p : Char → Bool} {cs rest : List Char} (hcs : ∀ c ∈ cs, p c = true)
    (hrest : ∀ c ∈ rest.head?, p c = false) :
    (cs ++ rest).takeWhile p = cs ∧ (cs ++ rest).dropWhile p = rest := by
  rw [List.takeWhile_append_of_pos hcs, List.dropWhile_append_of_pos hcs]
  cases rest with
  | nil => simp
  | cons c rest => simp [hrest c rfl]

theorem SpellsDigits.digits? {ds rest : List Char} {n : Nat} (h : SpellsDigits ds n)
    (hrest : EndsDigits rest) : digits? (ds ++ rest) = some (n, ds.length, rest) := by
  obtain ⟨hne, hspells⟩ := h
  obtain ⟨htake, hdrop⟩ := takeWhile_of_head (isDigit_of_spells hspells) hrest
  simp only [Json.digits?, htake, hdrop]
  rw [if_neg (by simpa using hne), hspells.digits? (by decide), Option.map_some]

theorem SpellsWhole.whole? {ds rest : List Char} {n : Nat} (h : SpellsWhole ds n)
    (hrest : EndsDigits rest) : whole? (ds ++ rest) = some (n, rest) := by
  obtain ⟨hds, hzero⟩ := h
  have hhead : (ds ++ rest).head? = ds.head? := by
    cases ds with
    | nil => exact (hds.1 rfl).elim
    | cons d ds => rfl
  rw [Json.whole?, hds.digits? hrest]
  refine if_neg fun hbad => hbad.2 ?_
  rw [hzero (hhead ▸ hbad.1)]
  rfl

theorem SpellsExponent.head {es : List Char} {x : Int} (h : SpellsExponent es x) :
    ∀ c ∈ es.head?, c = 'e' ∨ c = 'E' := by
  cases h with
  | none => exact fun c hc => nomatch hc
  | unsigned he h | plus he h | minus he h =>
    intro c hc
    cases hc
    exact he

theorem SpellsExponent.endsDigits {es : List Char} {x : Int} (h : SpellsExponent es x) :
    EndsDigits es := by
  intro c hc
  rcases h.head c hc with rfl | rfl <;> rfl

theorem sign_of_isDigit {d : Char} (hd : d.isDigit = true) (ds : List Char) :
    sign (d :: ds) = (1, d :: ds) := by
  unfold sign
  split
  next heq => cases heq; cases hd
  next heq => cases heq; cases hd
  next => rfl

theorem SpellsExponent.exponent? {es : List Char} {x : Int} (h : SpellsExponent es x) :
    exponent? es = some x := by
  have hread {ds : List Char} {n : Nat} (hds : SpellsDigits ds n) :
      digits? ds = some (n, ds.length, []) := by
    have hend : EndsDigits [] := fun c hc => nomatch hc
    have h := hds.digits? hend
    rwa [List.append_nil] at h
  cases h with
  | none => rfl
  | plus he h => simp [Json.exponent?, he, sign, hread h]
  | minus he h => simp [Json.exponent?, he, sign, hread h]
  | @unsigned e ds n he h =>
    obtain ⟨d, ds, rfl⟩ := List.exists_cons_of_ne_nil h.1
    have hd := isDigit_of_spells h.2 d List.mem_cons_self
    simp [Json.exponent?, he, sign_of_isDigit hd, hread h]

theorem SpellsFraction.fraction? {fs rest : List Char} {f k : Nat} (h : SpellsFraction fs f k)
    (hrest : ∀ c ∈ rest.head?, c = 'e' ∨ c = 'E') : fraction? (fs ++ rest) = some (f, k, rest) := by
  cases h with
  | digits h =>
    refine h.digits? fun c hc => ?_
    rcases hrest c hc with rfl | rfl <;> rfl
  | none =>
    cases rest with
    | nil => rfl
    | cons c rest => rcases hrest c rfl with rfl | rfl <;> rfl

theorem SpellsFraction.endsDigits {fs rest : List Char} {f k : Nat} (h : SpellsFraction fs f k)
    (hrest : ∀ c ∈ rest.head?, c = 'e' ∨ c = 'E') : EndsDigits (fs ++ rest) := by
  intro c hc
  cases h with
  | digits h => cases hc; rfl
  | none => rcases hrest c hc with rfl | rfl <;> rfl

theorem SpellsUnsigned.unsigned? {cs : List Char} {m : Nat} {e : Int} (h : SpellsUnsigned cs m e) :
    unsigned? cs = some (m, e) := by
  obtain ⟨ws, fs, es, w, f, k, x, rfl, hw, hf, hx, rfl, rfl⟩ := h
  have hwhole := hw.whole? (hf.endsDigits hx.head)
  have hfraction := hf.fraction? hx.head
  rw [List.append_assoc]
  simp [Json.unsigned?, hwhole, hfraction, hx.exponent?]

theorem SpellsUnsigned.head {cs : List Char} {m : Nat} {e : Int} (h : SpellsUnsigned cs m e) :
    ∃ d ds, cs = d :: ds ∧ d.isDigit = true := by
  obtain ⟨ws, fs, es, w, f, k, x, rfl, hw, -⟩ := h
  obtain ⟨d, ds, rfl⟩ := List.exists_cons_of_ne_nil hw.1.1
  exact ⟨d, ds ++ fs ++ es, by simp, isDigit_of_spells hw.1.2 d List.mem_cons_self⟩

theorem SpellsNumber.number? {cs : List Char} {q : Rat} (h : SpellsNumber cs q) :
    number? cs = some q := by
  cases h with
  | negative h => simp [Json.number?, h.unsigned?]
  | unsigned h =>
    have hne : cs.head? ≠ some '-' := by
      obtain ⟨d, ds, rfl, hd⟩ := h.head
      intro hminus
      cases hminus
      cases hd
    simp [Json.number?, hne, h.unsigned?]

/-! ### Written lexemes are read -/

theorem inWord_of_isDigit {c : Char} (h : c.isDigit = true) : inWord c = true := by
  simp [inWord, h]

theorem SpellsDigits.inWord {ds : List Char} {n : Nat} (h : SpellsDigits ds n) :
    ∀ c ∈ ds, inWord c = true := fun c hc => inWord_of_isDigit (isDigit_of_spells h.2 c hc)

theorem SpellsUnsigned.inWord {cs : List Char} {m : Nat} {e : Int} (h : SpellsUnsigned cs m e) :
    ∀ c ∈ cs, inWord c = true := by
  obtain ⟨ws, fs, es, w, f, k, x, rfl, hw, hf, hx, -⟩ := h
  have hfraction : ∀ c ∈ fs, Json.inWord c = true := by
    cases hf with
    | none => exact List.forall_mem_nil _
    | digits h => exact List.forall_mem_cons.2 ⟨rfl, h.inWord⟩
  have hmark {e : Char} (he : e = 'e' ∨ e = 'E') : Json.inWord e = true := by
    rcases he with rfl | rfl <;> rfl
  have hexponent : ∀ c ∈ es, Json.inWord c = true := by
    cases hx with
    | none => exact List.forall_mem_nil _
    | unsigned he h => exact List.forall_mem_cons.2 ⟨hmark he, h.inWord⟩
    | plus he h | minus he h =>
      exact List.forall_mem_cons.2 ⟨hmark he, List.forall_mem_cons.2 ⟨rfl, h.inWord⟩⟩
  exact List.forall_mem_append.2 ⟨List.forall_mem_append.2 ⟨hw.1.inWord, hfraction⟩, hexponent⟩

theorem SpellsNumber.inWord {cs : List Char} {q : Rat} (h : SpellsNumber cs q) :
    ∀ c ∈ cs, inWord c = true := by
  cases h with
  | unsigned h => exact h.inWord
  | negative h => exact List.forall_mem_cons.2 ⟨rfl, h.inWord⟩

/-- No number starts with a letter. -/
theorem SpellsNumber.head {cs : List Char} {q : Rat} (h : SpellsNumber cs q) :
    ∃ d ds, cs = d :: ds ∧ d ∉ ['n', 't', 'f'] := by
  cases h with
  | negative h => exact ⟨'-', _, rfl, by decide⟩
  | unsigned h =>
    obtain ⟨d, ds, rfl, hd⟩ := h.head
    refine ⟨d, ds, rfl, fun hmem => ?_⟩
    simp only [List.mem_cons, List.not_mem_nil, or_false] at hmem
    rcases hmem with rfl | rfl | rfl <;> cases hd

theorem SpellsWord.word? {l : Lexeme} {w : List Char} (h : SpellsWord l w) : word? w = some l := by
  cases h with
  | null | yes | no => rfl
  | number h =>
    obtain ⟨d, ds, rfl, hd⟩ := h.head
    simp only [List.mem_cons, List.not_mem_nil, or_false, not_or] at hd
    simp [Json.word?, hd, h.number?]

theorem SpellsWord.inWord {l : Lexeme} {w : List Char} (h : SpellsWord l w) :
    w ≠ [] ∧ ∀ c ∈ w, inWord c = true := by
  cases h with
  | null | yes | no => exact ⟨List.cons_ne_nil _ _, List.all_eq_true.1 (by decide)⟩
  | number h =>
    obtain ⟨d, ds, rfl, -⟩ := h.head
    exact ⟨List.cons_ne_nil d ds, h.inWord⟩

theorem not_mem_of_inWord {c : Char} (h : inWord c = true) {cs : List Char}
    (hcs : cs.all (fun d => !inWord d) = true) : c ∉ cs := by
  intro hc
  have hno := List.all_eq_true.1 hcs c hc
  rw [h] at hno
  cases hno

/-- The classes of characters that lexemes start with have nothing in common. -/
theorem inWord_spec {c : Char} (h : inWord c = true) : isSpace c = false ∧ c ∉ marks ∧ c ≠ '"' := by
  refine ⟨decide_eq_false (not_mem_of_inWord h (by decide)), not_mem_of_inWord h (by decide), ?_⟩
  exact fun hc => not_mem_of_inWord h (by decide) (List.mem_singleton.2 hc)

theorem marks_spec {c : Char} (h : c ∈ marks) : isSpace c = false := by
  simp only [marks, List.mem_cons, List.not_mem_nil, or_false] at h
  rcases h with rfl | rfl | rfl | rfl | rfl | rfl <;> rfl

theorem Written.lexemes? {ls : List Lexeme} {cs : List Char} (h : Written ls cs) :
    lexemes? cs = some ls := by
  induction h with
  | nil => rw [Json.lexemes?]
  | space hc _ ih => rw [Json.lexemes?, if_pos hc, ih]
  | mark hc _ ih =>
    rw [Json.lexemes?, if_neg (by simp [marks_spec hc]), if_pos hc, ih, Option.map_some]
  | @str s body ls cs hs _ ih =>
    rw [List.cons_append, Json.lexemes?, if_neg (by decide), if_neg (by decide), if_pos rfl]
    split
    next heq => cases heq.symm.trans (hs.text? cs)
    next s' rest heq =>
      obtain ⟨rfl, rfl⟩ := Prod.mk.inj (Option.some.inj (heq.symm.trans (hs.text? cs)))
      rw [ih, Option.map_some, String.ofList_toList]
  | @word l w ls cs hw hend _ ih =>
    obtain ⟨hne, hrun⟩ := hw.inWord
    obtain ⟨c, w, rfl⟩ := List.exists_cons_of_ne_nil hne
    obtain ⟨hc, hrun⟩ := List.forall_mem_cons.1 hrun
    obtain ⟨hspace, hmark, hquote⟩ := inWord_spec hc
    obtain ⟨htake, hdrop⟩ := takeWhile_of_head hrun hend
    rw [List.cons_append, Json.lexemes?, if_neg (by simp [hspace]), if_neg hmark, if_neg hquote,
      if_pos hc, htake, hdrop, hw.word?, ih]
    rfl

/-! ### The lexemes of a value are read -/

theorem Value.lexemes_head (v : Value) : ∃ l ls, v.lexemes = l :: ls ∧ l ≠ .mark ']' := by
  cases v with
  | null | bool | number | str => exact ⟨_, [], rfl, nofun⟩
  | list vs | object fs => exact ⟨_, _, rfl, by decide⟩

theorem value?_list {ls : List Lexeme} (h : ∀ ls', ls ≠ .mark ']' :: ls') (st : List Frame) :
    value? (.mark '[' :: ls) st = value? ls (.list [] :: st) := by
  rw [value?]
  exact h

theorem intercalate_cons {α : Type} (sep : α) (as : List α) (ass : List (List α)) :
    [sep].intercalate (as :: ass) = as ++ ass.flatMap (sep :: ·) := by
  induction ass generalizing as with
  | nil => simp
  | cons bs ass ih =>
    rw [List.intercalate_cons_cons, ih, List.flatMap_cons, List.append_assoc]
    rfl

mutual

theorem Value.value?_lexemes (v : Value) (ls : List Lexeme) (st : List Frame) :
    value? (v.lexemes ++ ls) st = after? v ls st := by
  match v with
  | .null | .bool b | .number q | .str s | .list [] | .object [] => rfl
  | .list (v :: vs) =>
    have hhead (ls ls' : List Lexeme) : v.lexemes ++ ls ≠ .mark ']' :: ls' := by
      obtain ⟨l, left, hv, hl⟩ := v.lexemes_head
      rw [hv]
      exact fun h => hl (List.cons.inj h).1
    simp only [lexemes, itemLexemes, intercalate_cons, List.cons_append, List.append_assoc,
      List.nil_append]
    rw [value?_list (hhead _), v.value?_lexemes, v.after?_items]
    rfl
  | .object ((key, v) :: fs) =>
    simp only [lexemes, fieldLexemes, intercalate_cons, List.cons_append, List.append_assoc,
      List.nil_append]
    rw [value?, v.value?_lexemes, v.after?_fields]
    rfl

theorem Value.after?_items (v : Value) (vs done : List Value) (ls : List Lexeme) (st : List Frame) :
    after? v ((itemLexemes vs).flatMap (.mark ',' :: ·) ++ .mark ']' :: ls) (.list done :: st) =
      after? (.list (done.reverse ++ v :: vs)) ls st := by
  match vs with
  | [] => rw [itemLexemes, List.flatMap_nil, List.nil_append, after?, List.reverse_cons]
  | w :: vs =>
    simp only [itemLexemes, List.flatMap_cons, List.cons_append, List.append_assoc]
    rw [after?, w.value?_lexemes, w.after?_items, List.reverse_cons, List.append_assoc]
    rfl

theorem Value.after?_fields (v : Value) (key : String) (fs done : List (String × Value))
    (ls : List Lexeme) (st : List Frame) :
    after? v ((fieldLexemes fs).flatMap (.mark ',' :: ·) ++ .mark '\x7d' :: ls)
        (.object done key :: st) =
      after? (.object (done.reverse ++ (key, v) :: fs)) ls st := by
  match fs with
  | [] => rw [fieldLexemes, List.flatMap_nil, List.nil_append, after?, List.reverse_cons]
  | (key', w) :: fs =>
    simp only [fieldLexemes, List.flatMap_cons, List.cons_append, List.append_assoc]
    rw [after?, w.value?_lexemes, w.after?_fields, List.reverse_cons, List.append_assoc]
    rfl

end

/-- Every document is read as what it says. -/
theorem Document.read? {v : Value} {text : List Char} (h : Document v text) :
    read? text = some v := by
  have hv := v.value?_lexemes [] []
  rw [List.append_nil] at hv
  rw [Json.read?, Written.lexemes? h, Option.bind_some, hv, after?]

end MemLint.Report.Json
