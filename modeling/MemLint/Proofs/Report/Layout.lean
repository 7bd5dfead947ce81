import MemLint.Proofs.Report.Writer

/-! How documents look. Every line starts with two spaces for each bracket that is open there, and
no character appears that means something in a page or in a script. -/

namespace MemLint.Report

open Json

namespace Json

/-- What holds of the text of every scalar, and of a block on some level if it holds of its items
one level further in. -/
structure HoldsOfParts (P : Nat → List Char → Prop) : Prop where
  text : ∀ n s t, Quoted s t → P n t
  word : ∀ n l w, SpellsWord l w → P n w
  block : ∀ n left right ts, (left, right) ∈ [('[', ']'), ('\x7b', '\x7d')] →
    (∀ t ∈ ts, P (n + 1) t) → P n (block n left right ts)
  field : ∀ n key k t, Quoted key k → P n t → P n (k ++ ':' :: ' ' :: t)

theorem HoldsOfParts.chars {P : Nat → List Char → Prop} (h : HoldsOfParts P) {e : Encoder}
    (he : e.Documented) (n : Nat) (v : Json) : P n (e.chars n v) := by
  cases v with
  | str s => exact h.text n _ _ (he.str n s)
  | int i => exact h.word n _ _ (.number (he.int n i))
  | bool b => exact h.word n _ _ (he.bool n b)
  | list vs =>
    rw [he.list]
    exact h.block n '[' ']' _ (by simp) (items (n + 1) vs)
  | object fs =>
    rw [he.object]
    exact h.block n '\x7b' '\x7d' _ (by simp) (fields (n + 1) fs)
where
  items (n : Nat) : (vs : List Json) → ∀ t ∈ vs.map (e.chars n), P n t
    | [] => List.forall_mem_nil _
    | v :: vs => List.forall_mem_cons.2 ⟨h.chars he n v, items n vs⟩
  fields (n : Nat) : (fs : List (String × Json)) →
      ∀ t ∈ fs.map (fun f => e.chars n (.str f.1) ++ ':' :: ' ' :: e.chars n f.2), P n t
    | [] => List.forall_mem_nil _
    | (key, v) :: fs =>
      List.forall_mem_cons.2 ⟨h.field n _ _ _ (he.str n key) (h.chars he n v), fields n fs⟩

/-! ### Characters with a meaning elsewhere -/

theorem safe_of_inWord {c : Char} (h : inWord c = true) : isUnsafe c = false := by
  have hcontrol : ∀ n < 0x20, inWord (Char.ofNat n) = false := by decide
  have hother : inWord (Char.ofNat 0x2028) = false ∧ inWord (Char.ofNat 0x2029) = false := by decide
  refine Bool.eq_false_iff.2 fun hc => ?_
  simp only [isUnsafe, Bool.or_eq_true, decide_eq_true_eq, List.mem_cons, List.not_mem_nil,
    or_false] at hc
  rw [← c.ofNat_toNat] at h
  rcases hc with ((hc | rfl | rfl | rfl) | hc) | hc
  · cases (hcontrol _ hc).symm.trans h
  · cases h
  · cases h
  · cases h
  · cases hother.1.symm.trans (hc ▸ h)
  · cases hother.2.symm.trans (hc ▸ h)

theorem Quoted.safe {s : String} {t : List Char} (h : Quoted s t) :
    ∀ c ∈ t, isUnsafe c = false := by
  obtain ⟨cs, rfl, -, hsafe⟩ := h
  refine List.forall_mem_cons.2 ⟨by decide, List.forall_mem_append.2 ⟨hsafe, ?_⟩⟩
  exact List.forall_mem_singleton.2 (by decide)

theorem newline_safe (level : Nat) : ∀ c ∈ newline level, c = '\n' ∨ isUnsafe c = false := by
  refine List.forall_mem_cons.2 ⟨.inl rfl, fun c hc => .inr ?_⟩
  rw [List.eq_of_mem_replicate hc]
  decide

theorem brackets_spec {left right : Char} (h : (left, right) ∈ [('[', ']'), ('\x7b', '\x7d')]) :
    (isUnsafe left = false ∧ isUnsafe right = false) ∧
      (left ∈ ['[', '\x7b'] ∧ left ≠ '\n' ∧ left ∉ [' ', ']', '\x7d']) ∧
      right ∈ [']', '\x7d'] ∧ right ∉ ['\n', '[', '\x7b'] ∧ right ≠ ' ' := by
  simp only [List.mem_cons, Prod.mk.injEq, List.not_mem_nil, or_false] at h
  rcases h with ⟨rfl, rfl⟩ | ⟨rfl, rfl⟩ <;> decide

theorem holds_safe : HoldsOfParts fun _ t => ∀ c ∈ t, c = '\n' ∨ isUnsafe c = false := by
  constructor
  · exact fun _ _ _ h c hc => .inr (h.safe c hc)
  · exact fun _ _ _ hw c hc => .inr (safe_of_inWord (hw.inWord.2 c hc))
  · intro n left right ts hmarks hts
    obtain ⟨⟨hleft, hright⟩, -⟩ := brackets_spec hmarks
    cases ts with
    | nil => simp [block, hleft, hright]
    | cons t ts =>
      obtain ⟨ht, hts⟩ := List.forall_mem_cons.1 hts
      have hitems : ∀ c ∈ ts.flatMap (fun t => ',' :: newline (n + 1) ++ t),
          c = '\n' ∨ isUnsafe c = false := by
        intro c hc
        obtain ⟨u, hu, hc⟩ := List.mem_flatMap.1 hc
        have hitem := List.forall_mem_append.2 ⟨newline_safe (n + 1), hts u hu⟩
        exact (List.forall_mem_cons.2 ⟨.inr (by decide), hitem⟩) c hc
      rw [block_cons]
      simp only [List.cons_append, List.forall_mem_cons, List.forall_mem_append]
      exact ⟨.inr hleft, ⟨⟨⟨newline_safe _, ht⟩, hitems⟩, newline_safe _⟩, .inr hright,
        List.forall_mem_nil _⟩
  · intro _ _ _ t hkey ht
    refine List.forall_mem_append.2 ⟨fun c hc => .inr (hkey.safe c hc), ?_⟩
    exact List.forall_mem_cons.2 ⟨.inr (by decide), List.forall_mem_cons.2 ⟨.inr (by decide), ht⟩⟩

/-! ### Indents -/

/-- The spaces that a text starts with. -/
def leadingSpaces (cs : List Char) : Nat := (cs.takeWhile (· = ' ')).length

/-- A closing bracket is the first thing on the line. -/
def closesFirst (cs : List Char) : Bool := (cs.dropWhile (· = ' ')).head?.any (· ∈ [']', '\x7d'])

/-- Each line that starts in the text starts with two spaces for each bracket that is open there,
where `level` brackets are open so far. A bracket counts from the line behind it, if it ends its
line, and up to the line in front of the bracket that closes it; `opened` says if one has just been
opened. -/
def Indented : (level : Nat) → (opened : Bool) → List Char → Prop
  | _, _, [] => True
  | level, opened, c :: cs =>
    if c = '\n' then
      let inner := (if opened then level + 1 else level) - if closesFirst cs then 1 else 0
      leadingSpaces cs = 2 * inner ∧ Indented inner false cs
    else Indented level (c ∈ ['[', '\x7b']) cs

/-- A text without a line break: only its last character tells if a bracket has been opened. -/
theorem Indented.inline {n : Nat} {rest : List Char} (h : Indented n false rest) {t : List Char}
    {c : Char} (ht : '\n' ∉ t) (hc : c ∉ ['\n', '[', '\x7b']) (opened : Bool) :
    Indented n opened (t ++ c :: rest) := by
  induction t generalizing opened with
  | nil =>
    simp only [List.mem_cons, List.not_mem_nil, or_false, not_or] at hc
    rw [List.nil_append, Indented, if_neg hc.1]
    simpa [hc.2.1, hc.2.2] using h
  | cons d t ih =>
    have hd : d ≠ '\n' := fun hd => ht (hd ▸ List.mem_cons_self)
    rw [List.cons_append, Indented, if_neg hd]
    exact ih (fun hmem => ht (List.mem_cons_of_mem d hmem)) _

/-- A line break and the indent of the line that starts with `c`. -/
theorem Indented.newline {n m : Nat} {opened : Bool} {c : Char} {cs : List Char}
    (h : Indented m false (c :: cs)) (hc : c ≠ ' ')
    (hm : m = (if opened then n + 1 else n) - if c ∈ [']', '\x7d'] then 1 else 0) :
    Indented n opened (newline m ++ c :: cs) := by
  have hline : (List.replicate (2 * m) ' ' ++ c :: cs).takeWhile (· = ' ') =
        List.replicate (2 * m) ' ' ∧
      (List.replicate (2 * m) ' ' ++ c :: cs).dropWhile (· = ' ') = c :: cs :=
    takeWhile_of_head (by simp) (by simpa using hc)
  have hleading : leadingSpaces (List.replicate (2 * m) ' ' ++ c :: cs) = 2 * m := by
    rw [leadingSpaces, hline.1, List.length_replicate]
  have hcloses : (closesFirst (List.replicate (2 * m) ' ' ++ c :: cs) = true) =
      (c ∈ [']', '\x7d']) := by
    rw [closesFirst, hline.2]
    exact decide_eq_true_eq
  have hspaces (k : Nat) : Indented m false (List.replicate k ' ' ++ c :: cs) := by
    induction k with
    | zero => exact h
    | succ k ih =>
      rw [List.replicate_succ, List.cons_append, Indented, if_neg (by decide)]
      exact ih
  rw [Json.newline, List.cons_append, Indented, if_pos rfl]
  simp only [hleading, hcloses, ← hm]
  exact ⟨trivial, hspaces _⟩

/-- The text of a value may stand anywhere on a line of its level. -/
def Fits (n : Nat) (t : List Char) : Prop :=
  (∃ c cs, t = c :: cs ∧ c ∉ [' ', ']', '\x7d']) ∧
    ∀ opened rest, Indented n false rest → Indented n opened (t ++ rest)

theorem fits_quoted {s : String} {t : List Char} (hquoted : Quoted s t) (n : Nat) : Fits n t := by
  have hsafe := hquoted.safe
  obtain ⟨cs, rfl, -⟩ := hquoted
  refine ⟨⟨'"', _, rfl, by decide⟩, fun opened rest h => ?_⟩
  have hline : '\n' ∉ '"' :: cs := fun hmem =>
    Bool.noConfusion (hsafe '\n' (List.mem_append_left ['"'] hmem))
  rw [List.append_assoc]
  exact h.inline hline (by decide) opened

theorem fits_word {l : Lexeme} {w : List Char} (hw : SpellsWord l w) (n : Nat) : Fits n w := by
  obtain ⟨hne, hrun⟩ := hw.inWord
  constructor
  · obtain ⟨c, cs, rfl⟩ := List.exists_cons_of_ne_nil hne
    exact ⟨c, cs, rfl, not_mem_of_inWord (hrun c List.mem_cons_self) (by decide)⟩
  · intro opened rest h
    rw [← List.dropLast_append_getLast hne, List.append_assoc]
    refine h.inline (fun hmem => ?_) ?_ opened
    · cases hrun _ (List.mem_of_mem_dropLast hmem)
    · exact not_mem_of_inWord (hrun _ (List.getLast_mem hne)) (by decide)

/-- A text on a line of its own. -/
theorem Fits.newline {n : Nat} {t : List Char} (ht : Fits n t) {m : Nat} {opened : Bool}
    (hm : n = if opened then m + 1 else m) {rest : List Char} (h : Indented n false rest) :
    Indented m opened (newline n ++ (t ++ rest)) := by
  obtain ⟨⟨c, cs, rfl, hc⟩, ht⟩ := ht
  have hspace : c ≠ ' ' := fun h => hc (h ▸ List.mem_cons_self)
  have hcloses : c ∉ [']', '\x7d'] := fun h => hc (List.mem_cons_of_mem _ h)
  refine Indented.newline (ht false rest h) hspace ?_
  rw [if_neg hcloses, Nat.sub_zero, hm]

theorem fits_items {n : Nat} {ts : List (List Char)} (hts : ∀ t ∈ ts, Fits n t) {rest : List Char}
    (h : Indented n false rest) :
    Indented n false (ts.flatMap (fun t => ',' :: newline n ++ t) ++ rest) := by
  induction ts with
  | nil => exact h
  | cons t ts ih =>
    obtain ⟨ht, hts⟩ := List.forall_mem_cons.1 hts
    simp only [List.flatMap_cons, List.cons_append, List.append_assoc]
    rw [Indented, if_neg (by decide)]
    exact ht.newline rfl (ih hts)

theorem fits_block {n : Nat} {left right : Char} {ts : List (List Char)}
    (hmarks : (left, right) ∈ [('[', ']'), ('\x7b', '\x7d')]) (hts : ∀ t ∈ ts, Fits (n + 1) t) :
    Fits n (block n left right ts) := by
  obtain ⟨-, ⟨hopens, hleft⟩, hcloses, hright⟩ := brackets_spec hmarks
  have hclose {rest : List Char} (h : Indented n false rest) (opened : Bool) :
      Indented n opened (right :: rest) := h.inline List.not_mem_nil hright.1 opened
  cases ts with
  | nil =>
    refine ⟨⟨left, [right], rfl, hleft.2⟩, fun opened rest h => ?_⟩
    rw [block, List.cons_append, Indented, if_neg hleft.1]
    exact hclose h _
  | cons t ts =>
    obtain ⟨ht, hts⟩ := List.forall_mem_cons.1 hts
    rw [block_cons]
    refine ⟨⟨left, _, rfl, hleft.2⟩, fun opened rest h => ?_⟩
    simp only [List.cons_append, List.append_assoc, List.nil_append]
    have hlast : Indented (n + 1) false (newline n ++ right :: rest) := by
      refine (hclose h false).newline hright.2 ?_
      rw [if_pos hcloses]
      rfl
    rw [Indented, if_neg hleft.1, decide_eq_true hopens]
    exact ht.newline rfl (fits_items hts hlast)

theorem holds_fits : HoldsOfParts Fits := by
  constructor
  · exact fun n _ _ h => fits_quoted h n
  · exact fun n _ _ hw => fits_word hw n
  · exact fun _ _ _ _ hmarks hts => fits_block hmarks hts
  · intro n key k t hkey ht
    have hfits := fits_quoted hkey n
    obtain ⟨cs, rfl, -⟩ := hkey
    refine ⟨⟨'"', _, rfl, by decide⟩, fun opened rest h => ?_⟩
    rw [List.append_assoc]
    refine hfits.2 opened _ ?_
    rw [List.cons_append, Indented, if_neg (by decide), List.cons_append, Indented,
      if_neg (by decide)]
    exact ht.2 _ rest h

end Json

namespace Encoder.Documented

variable {e : Encoder} (he : e.Documented)

include he

theorem chars_safe (v : Json) : ∀ c ∈ e.chars 0 v, c = '\n' ∨ isUnsafe c = false :=
  holds_safe.chars he 0 v

/-- A document keeps its indents from the first line to the last. -/
theorem indented_chars (v : Json) : Indented 0 false (e.chars 0 v ++ ['\n']) :=
  (holds_fits.chars he 0 v).2 false ['\n'] ⟨rfl, trivial⟩

end Encoder.Documented

end MemLint.Report
