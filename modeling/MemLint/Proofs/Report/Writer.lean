import MemLint.Proofs.Report.Reader
import MemLint.Proofs.Text.Utf8
import MemLint.Report.Json

/-! What an encoder writes is a JSON document. Of an encoder it is known how it writes a text, a
number and a truth value, how it sets the items of a list and the fields of an object, each on a
line of its own with two spaces for each level, and that a document ends with a line. Nothing else
about encoders is used. -/

namespace MemLint.Report

open Json

/-! ### Encoders -/

/-- A text between quotes, spelled without a character that means something in a page or in a
script. -/
def Json.Quoted (text : String) (t : List Char) : Prop :=
  ∃ cs, t = '"' :: cs ++ ['"'] ∧ SpellsText text.toList cs ∧ ∀ c ∈ cs, isUnsafe c = false

/-- What is known of an encoder. A text that is not in UTF-8 is written as it is read, with its
replacements. -/
structure Encoder.Documented (e : Encoder) : Prop where
  str : ∀ level s, Quoted s.text (e.chars level (.str s))
  int : ∀ level n, SpellsNumber (e.chars level (.int n)) (.ofInt n)
  bool : ∀ level b, SpellsWord (.bool b) (e.chars level (.bool b))
  list : ∀ level vs,
    e.chars level (.list vs) = block level '[' ']' (vs.map (e.chars (level + 1)))
  object : ∀ level fs, e.chars level (.object fs) = block level '\x7b' '\x7d' (fs.map fun f =>
    e.chars (level + 1) (.str f.1) ++ ':' :: ' ' :: e.chars (level + 1) f.2)
  document : ∀ v, e.document v = e.chars 0 v ++ ['\n']

namespace Json

/-! ### Values -/

mutual

/-- What a document of `v` says. -/
def value : Json → Value
  | .str s => .str s.text
  | .int n => .number (.ofInt n)
  | .bool b => .bool b
  | .list vs => .list (values vs)
  | .object fs => .object (fieldValues fs)

def values : List Json → List Value
  | [] => []
  | v :: vs => v.value :: values vs

def fieldValues : List (String × Json) → List (String × Value)
  | [] => []
  | (key, v) :: fs => (key, v.value) :: fieldValues fs

end

@[simp] theorem values_eq (vs : List Json) : values vs = vs.map value := by
  induction vs with
  | nil => rfl
  | cons v vs ih => rw [values, ih, List.map_cons]

@[simp] theorem fieldValues_eq (fs : List (String × Json)) :
    fieldValues fs = fs.map fun f => (f.1, f.2.value) := by
  induction fs with
  | nil => rfl
  | cons f fs ih => rw [fieldValues, ih, List.map_cons]

/-! ### Texts in a document -/

/-- The text writes the lexemes, whatever comes behind it, as long as no word goes on there. -/
def Writes (ls : List Lexeme) (text : List Char) : Prop :=
  ∀ ls' rest, EndsWord rest → Written ls' rest → Written (ls ++ ls') (text ++ rest)

theorem written_newline {ls : List Lexeme} {cs : List Char} (level : Nat) (h : Written ls cs) :
    Written ls (newline level ++ cs) := by
  refine .space rfl ?_
  induction 2 * level with
  | zero => exact h
  | succ n ih => exact .space rfl ih

theorem endsWord_nil : EndsWord [] := fun _ hc => nomatch hc

theorem endsWord_newline (level : Nat) (cs : List Char) : EndsWord (newline level ++ cs) := by
  intro c hc
  cases hc
  rfl

theorem endsWord_mark {c : Char} (hc : c ∈ marks) (cs : List Char) : EndsWord (c :: cs) := by
  intro c' hc'
  cases hc'
  exact Bool.eq_false_iff.2 fun h => (inWord_spec h).2.1 hc

theorem Quoted.writes {s : String} {t : List Char} (h : Quoted s t) : Writes [.str s] t := by
  obtain ⟨cs, rfl, hspells, -⟩ := h
  intro ls rest _ hrest
  rw [List.append_assoc]
  exact .str hspells hrest

theorem SpellsWord.writes {l : Lexeme} {w : List Char} (h : SpellsWord l w) : Writes [l] w :=
  fun _ _ hend hrest => .word h hend hrest

/-- The items of a block behind the first one, each on a line of its own. -/
theorem written_items {lss : List (List Lexeme)} {ts : List (List Char)}
    (h : List.Forall₂ Writes lss ts) (level : Nat) {ls : List Lexeme} {rest : List Char}
    (hend : EndsWord rest) (hrest : Written ls rest) :
    EndsWord (ts.flatMap (fun t => ',' :: newline level ++ t) ++ rest) ∧
      Written (lss.flatMap (.mark ',' :: ·) ++ ls)
        (ts.flatMap (fun t => ',' :: newline level ++ t) ++ rest) := by
  induction h with
  | nil => exact ⟨hend, hrest⟩
  | cons ht _ ih =>
    simp only [List.flatMap_cons, List.cons_append, List.append_assoc]
    have hitem := ht _ _ ih.1 ih.2
    exact ⟨endsWord_mark (by decide) _, .mark (by decide) (written_newline level hitem)⟩

theorem block_cons (level : Nat) (left right : Char) (t : List Char) (ts : List (List Char)) :
    block level left right (t :: ts) = left :: newline (level + 1) ++ t ++
      ts.flatMap (fun t => ',' :: newline (level + 1) ++ t) ++ newline level ++ [right] := by
  rw [block, List.map_cons, intercalate_cons, List.flatMap_map]
  · simp
  · exact List.cons_ne_nil t ts

theorem writes_block (level : Nat) (left right : Char) (hleft : left ∈ marks)
    (hright : right ∈ marks) {lss : List (List Lexeme)} {ts : List (List Char)}
    (h : List.Forall₂ Writes lss ts) :
    Writes (.mark left :: [.mark ','].intercalate lss ++ [.mark right])
      (block level left right ts) := by
  intro ls rest _ hrest
  cases h with
  | nil => exact .mark hleft (.mark hright hrest)
  | cons ht hts =>
    have hclose := written_newline level (.mark hright hrest)
    obtain ⟨hend, hitems⟩ := written_items hts (level + 1) (endsWord_newline level _) hclose
    rw [block_cons, intercalate_cons]
    simp only [List.cons_append, List.append_assoc, List.nil_append]
    exact .mark hleft (written_newline (level + 1) (ht _ _ hend hitems))

end Json

namespace Encoder.Documented

mutual

theorem writes_chars {e : Encoder} (he : e.Documented) (level : Nat) (v : Json) :
    Writes v.value.lexemes (e.chars level v) := by
  match v with
  | .str s => exact (he.str level s).writes
  | .int n => exact (SpellsWord.number (he.int level n)).writes
  | .bool b => exact (he.bool level b).writes
  | .list vs =>
    rw [he.list]
    exact writes_block level '[' ']' (by decide) (by decide) (writes_items he (level + 1) vs)
  | .object fs =>
    rw [he.object]
    exact writes_block level '\x7b' '\x7d' (by decide) (by decide) (writes_fields he (level + 1) fs)

theorem writes_items {e : Encoder} (he : e.Documented) (level : Nat) (vs : List Json) :
    List.Forall₂ Writes (Value.itemLexemes (values vs)) (vs.map (e.chars level)) := by
  match vs with
  | [] => exact .nil
  | v :: vs => exact .cons (writes_chars he level v) (writes_items he level vs)

theorem writes_fields {e : Encoder} (he : e.Documented) (level : Nat)
    (fs : List (String × Json)) :
    List.Forall₂ Writes (Value.fieldLexemes (fieldValues fs))
      (fs.map fun f => e.chars level (.str f.1) ++ ':' :: ' ' :: e.chars level f.2) := by
  match fs with
  | [] => exact .nil
  | (key, v) :: fs =>
    refine .cons (fun ls rest hend hrest => ?_) (writes_fields he level fs)
    have hcolon := Written.mark (c := ':') (by decide)
      (.space (c := ' ') rfl (writes_chars he level v ls rest hend hrest))
    have hkey := (he.str level key).writes
    rw [Text.Raw.text_ofString] at hkey
    rw [List.append_assoc]
    exact hkey _ _ (endsWord_mark (by decide) _) hcolon

end

/-- A value is written as a document that says it, also with white space behind it. -/
theorem document_chars {e : Encoder} (he : e.Documented) (v : Json) {ws : List Char}
    (hend : EndsWord ws) (hws : Written [] ws) : Document v.value (e.chars 0 v ++ ws) := by
  have h := he.writes_chars 0 v [] ws hend hws
  rwa [List.append_nil] at h

end Encoder.Documented

end MemLint.Report
