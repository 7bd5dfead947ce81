import MemLint.Proofs.Report.Encoder
import MemLint.Report.Writes

/-! The JSON report of a file can be read back: it is a document that says the name of the file,
whether nothing was found, and what was found. So no two reports on files whose names are texts have
the same text. All this holds whatever encoder writes the report, if it does what is known of
encoders, and as long as the stream takes what is written. -/

namespace MemLint

/-! ### Names of kinds -/

namespace Diagnostic.Kind

def ofName? (name : String) : Option Kind := declared.find? (·.name = name)

theorem ofName?_name : ∀ k ∈ declared, ofName? k.name = some k := by decide

theorem mem_declared_or_other (k : Kind) : k ∈ declared ∨ ∃ code, k = other code := by
  cases k with
  | other code => exact .inr ⟨code, rfl⟩
  | _ => exact .inl (by decide)

theorem name_other (code : Nat) :
    (other code).name.toList = "Kind(".toList ++ Nat.toDigits 10 code ++ [')'] := by
  have htext : (other code).name = "Kind(" ++ Nat.repr code ++ ")" := rfl
  rw [htext, String.toList_append, String.toList_append, Nat.toList_repr]
  rfl

theorem ofName?_other (code : Nat) : ofName? (other code).name = none := by
  have hhead : ∀ k ∈ declared, k.name.toList.head? ≠ some 'K' := by decide
  refine List.find?_eq_none.2 fun k hk h => hhead k hk ?_
  rw [decide_eq_true_eq] at h
  rw [h, name_other]
  rfl

theorem name_injective : Function.Injective name := by
  intro k k' h
  rcases mem_declared_or_other k with hk | ⟨n, rfl⟩
  · have hfound := ofName?_name k hk
    rcases mem_declared_or_other k' with hk' | ⟨m, rfl⟩
    · rw [h, ofName?_name k' hk'] at hfound
      exact (Option.some.inj hfound).symm
    · rw [h, ofName?_other] at hfound
      cases hfound
  · rcases mem_declared_or_other k' with hk' | ⟨m, rfl⟩
    · have hfound := ofName?_name k' hk'
      rw [← h, ofName?_other] at hfound
      cases hfound
    · have hdigits : Nat.toDigits 10 n = Nat.toDigits 10 m := by
        have htext := congrArg String.toList h
        rw [name_other, name_other] at htext
        exact List.append_cancel_left (List.append_cancel_right htext)
      have hcode := congrArg (fun ds => Nat.ofDigitChars 10 ds 0) hdigits
      simp only [Nat.ofDigitChars_ten_toDigits] at hcode
      rw [hcode]

end Diagnostic.Kind

namespace Report

/-! ### What a report says -/

/-- What the JSON report says of a diagnostic. -/
def saidOf (d : Diagnostic) : Json.Value := .object [
  ("checker", .str d.checker), ("kind", .str d.kind.name), ("name", .str d.name),
  ("message", .str d.message)]

/-- What the JSON report says: the file, whether nothing was found, and what was found. -/
def said (file : String) (ds : List Diagnostic) : Json.Value := .object [
  ("file", .str file), ("ok", .bool (decide (ds = []))), ("diagnostics", .list (ds.map saidOf))]

theorem value_json (r : Report) : r.json.value = said r.file.text r.diagnostics := by
  have hclean : r.isClean = decide (r.diagnostics = []) := by
    rw [isClean]
    cases r.diagnostics <;> rfl
  simp [json, said, Json.value, diagnosticJson, saidOf, Function.comp_def, hclean]

theorem saidOf_injective : Function.Injective saidOf := by
  rintro ⟨checker, kind, name, message⟩ ⟨checker', kind', name', message'⟩ h
  simp only [saidOf, Json.Value.object.injEq, List.cons.injEq, Prod.mk.injEq,
    Json.Value.str.injEq, true_and, and_true] at h
  obtain ⟨rfl, hkind, rfl, rfl⟩ := h
  rw [Diagnostic.Kind.name_injective hkind]

theorem said_injective {file file' : String} {ds ds' : List Diagnostic}
    (h : said file ds = said file' ds') : file = file' ∧ ds = ds' := by
  simp only [said, Json.Value.object.injEq, List.cons.injEq, Prod.mk.injEq,
    Json.Value.str.injEq, Json.Value.list.injEq, true_and, and_true] at h
  obtain ⟨rfl, -, hds⟩ := h
  exact ⟨rfl, List.map_injective_iff.2 saidOf_injective hds⟩

/-! ### Texts -/

namespace Encoder.Documented

variable {e : Encoder} (he : e.Documented)

include he

theorem text_eq (v : Json) : e.text v = String.ofList (e.chars 0 v ++ ['\n']) := by
  rw [text, he.document]

theorem document_text (v : Json) : Json.Document v.value (e.text v).toList := by
  rw [he.text_eq, String.toList_ofList]
  exact he.document_chars v (Json.endsWord_newline 0 []) (Json.written_newline 0 .nil)

/-- The text of a value is read as what it says. -/
theorem read?_text (v : Json) : Json.read? (e.text v).toList = some v.value :=
  (he.document_text v).read?

end Encoder.Documented

/-- A stream that takes the whole of some writes has taken them as they are. -/
theorem written_of_complete {refused : Option Nat} {writes : List String}
    (h : (deliver refused writes).complete = true) : (deliver refused writes).written = writes := by
  cases refused with
  | none => rfl
  | some n =>
    have hlen : writes.length < n := of_decide_eq_true h
    exact List.take_of_length_le (by omega)

/-- A JSON report that is written is a document with the end of a line behind it. Read back, it says
the name of the file, whether nothing was found, and what was found, in its order. A name that is a
text is read back as it is, so different reports on such files have different texts. -/
theorem json_report_faithful {e : Encoder} (he : e.Documented) (style : Style) :
    (∀ (r : Report) (refused : Option Nat),
      (deliver refused (r.writes style .json e)).complete = true →
      ∃ body, (deliver refused (r.writes style .json e)).written =
          [String.ofList (body ++ ['\n'])] ∧
        Json.Document (said r.file.text r.diagnostics) body ∧
        Json.read? (body ++ ['\n']) = some (said r.file.text r.diagnostics) ∧
        (∀ c ∈ body, c ∉ ['<', '>', '&', '\u2028', '\u2029']) ∧
        Json.Indented 0 false (body ++ ['\n'])) ∧
    (∀ file : String, (Text.Raw.ofString file).text = file) ∧
    ∀ (file file' : String) (ds ds' : List Diagnostic),
      (Report.mk file ds).writes style .json e = (Report.mk file' ds').writes style .json e →
        file = file' ∧ ds = ds' := by
  refine ⟨fun r refused htaken => ?_, Text.Raw.text_ofString, fun file file' ds ds' h => ?_⟩
  · have hwrites : r.writes style .json e = [String.ofList (e.chars 0 r.json ++ ['\n'])] := by
      rw [← he.text_eq]
      rfl
    rw [written_of_complete htaken]
    refine ⟨e.chars 0 r.json, hwrites, ?_, ?_, ?_, he.indented_chars r.json⟩
    · have hdoc := he.document_chars r.json Json.endsWord_nil .nil
      rwa [List.append_nil, value_json] at hdoc
    · have hread := he.read?_text r.json
      rwa [he.text_eq, String.toList_ofList, value_json] at hread
    · intro c hc hscript
      have hunsafe : c ≠ '\n' ∧ Json.isUnsafe c = true := by
        simp only [List.mem_cons, List.not_mem_nil, or_false] at hscript
        rcases hscript with rfl | rfl | rfl | rfl | rfl <;> decide
      rcases he.chars_safe r.json c hc with hline | hsafe
      · exact hunsafe.1 hline
      · cases hsafe.symm.trans hunsafe.2
  · have hread := congrArg Json.read? (congrArg String.toList (List.cons.inj h).1)
    rw [he.read?_text, he.read?_text, value_json, value_json] at hread
    simpa only [Text.Raw.text_ofString] using said_injective (Option.some.inj hread)

theorem json_report_faithful_at_page :
    let r : Report := ⟨"a<b>.cpp", [⟨"bounds", .other 12, "\"p\"", "index \u2028"⟩]⟩
    Encoder.own.Documented ∧ (deliver (some 2) (r.writes {} .json)).complete = true ∧
      ∃ body, (deliver (some 2) (r.writes {} .json)).written = [String.ofList (body ++ ['\n'])] ∧
        Json.read? (body ++ ['\n']) = some (said "a<b>.cpp" r.diagnostics) := by
  intro r
  obtain ⟨hwritten, htext, -⟩ := json_report_faithful Encoder.own_documented {}
  obtain ⟨body, hbody, -, hread, -⟩ := hwritten r (some 2) rfl
  rw [htext] at hread
  exact ⟨Encoder.own_documented, rfl, body, hbody, hread⟩

/-- A name that ends with a byte of its own. -/
def strayByte (b : UInt8) : Text.Raw := ⟨[0x61, b]⟩

theorem units_strayByte : ∀ b ∈ [0xFE, 0xFF], (strayByte b).units = [some 'a', none] := by
  intro b hb
  simp only [List.mem_cons, List.not_mem_nil, or_false] at hb
  rcases hb with rfl | rfl <;>
    simp [strayByte, Text.Raw.units, Text.units, Text.unitsFrom, Text.character?]

/-- Names that are not in UTF-8 are not told apart, and a stream that refuses the report has taken
nothing of it. -/
theorem json_report_of_stray_bytes :
    strayByte 0xFF ≠ strayByte 0xFE ∧
      (Report.mk (strayByte 0xFF) []).writes {} .json =
        (Report.mk (strayByte 0xFE) []).writes {} .json ∧
      (deliver (some 1) ((Report.mk "a.cpp" []).writes {} .json)).written = [] := by
  refine ⟨by decide, ?_, rfl⟩
  simp [writes, Encoder.text, Encoder.own, json, Json.chars, Json.fields, Json.quote,
    units_strayByte, isClean]

end Report

end MemLint
