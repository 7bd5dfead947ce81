import MemLint.Settings

/-! Lists of checker names. How a list is cut into texts does not matter: it is read name by name,
and what it chooses is what its names stand for, each on its own. The first name that stands for
nothing is the error. -/

namespace MemLint

/-! ### Texts between commas -/

namespace Text

theorem pieces_eq_splitOn (sep : Char) (cs : List Char) : pieces sep cs = cs.splitOn sep := by
  induction cs with
  | nil => rfl
  | cons c cs ih =>
    rw [List.splitOn_eq_splitOnP, List.splitOnP_cons_eq_if_modifyHead, ← List.splitOn_eq_splitOnP,
      ← ih]
    by_cases hc : c = sep
    · simp [pieces, hc]
    · obtain ⟨p, ps, hp⟩ := List.exists_cons_of_ne_nil (pieces_ne_nil sep cs)
      simp [pieces, hc, hp]

/-- Texts that are joined by a separator have the pieces of each of them. -/
theorem pieces_intercalate (sep : Char) {ts : List (List Char)} (hts : ts ≠ []) :
    pieces sep ([sep].intercalate ts) = ts.flatMap (pieces sep) := by
  induction ts with
  | nil => exact (hts rfl).elim
  | cons t ts ih =>
    cases ts with
    | nil => simp
    | cons u ts =>
      have ih := ih (List.cons_ne_nil u ts)
      rw [List.intercalate_cons_cons, List.append_assoc, List.singleton_append,
        pieces_append_cons, ih]
      rfl

end Text

namespace Settings

/-! ### What a name stands for -/

/-- What a piece of a list says: it counts without the white space around it and in lower case. -/
def nameOf (piece : List Char) : String := Text.lower (Text.trim (String.ofList piece))

/-- The names in a list of texts, which stand between commas. -/
def namesIn (texts : List String) : List String :=
  texts.flatMap fun t => (t.toList.splitOn ',').map nameOf

/-- The checkers that a name stands for. -/
def named (name : String) : List Checker := Checker.all.filter fun c => name = "all" ∨ name = c.name

/-- The name says something, but stands for no checker. -/
def Unknown (name : String) : Prop := name ≠ "" ∧ name ≠ "all" ∧ ∀ c : Checker, name ≠ c.name

theorem mem_named {name : String} {c : Checker} :
    c ∈ named name ↔ name = "all" ∨ name = c.name := by
  have hall : c ∈ Checker.all := by cases c <;> decide
  simp [named, hall]

theorem Checker.name_spec (c : Checker) :
    c.name ≠ "" ∧ c.name ≠ "all" ∧ ofName? c.name = some c ∧ named c.name = [c] := by
  cases c <;> decide

theorem Checker.ofName?_eq_none {name : String} (h : ∀ c : Checker, name ≠ c.name) :
    ofName? name = none :=
  List.find?_eq_none.2 fun c _ => by simpa using (h c).symm

namespace Checkers

/-! ### Choices -/

/-- Some checkers besides those that are chosen. -/
def add (s : Checkers) (cs : List Checker) : Checkers := cs.foldl (fun s c => s.enable c.flag) s

/-- The choice of some checkers. -/
def ofList (cs : List Checker) : Checkers := add .empty cs

theorem add_cons (s : Checkers) (c : Checker) (cs : List Checker) :
    s.add (c :: cs) = add (s.enable c.flag) cs := rfl

theorem add_append (s : Checkers) (cs cs' : List Checker) :
    s.add (cs ++ cs') = (s.add cs).add cs' := List.foldl_append

theorem getLsbD_add (s : Checkers) (cs : List Checker) (i : Nat) :
    (s.add cs).bits.getLsbD i = (s.bits.getLsbD i || cs.any (·.flag.getLsbD i)) := by
  induction cs generalizing s with
  | nil => simp [add]
  | cons c cs ih =>
    rw [add_cons, ih, Flags.enable, BitVec.getLsbD_or, Bool.or_assoc, List.any_cons]

/-- Neither the order of the checkers counts nor how often one is named. -/
theorem ofList_congr {cs cs' : List Checker} (h : ∀ c, c ∈ cs ↔ c ∈ cs') :
    ofList cs = ofList cs' := by
  have hbits : (ofList cs).bits = (ofList cs').bits := by
    refine BitVec.eq_of_getLsbD_eq fun i _ => ?_
    simp only [ofList, getLsbD_add]
    rw [Bool.eq_iff_iff]
    simp only [Bool.or_eq_true, List.any_eq_true, h]
  exact congrArg Flags.mk hbits

theorem has_enable (s : Checkers) (c c' : Checker) :
    has (s.enable c.flag) c' = (s.has c' || decide (c = c')) := by
  have hbit : c.flag &&& c'.flag = if c = c' then c'.flag else 0#8 := by
    cases c <;> cases c' <;> decide
  have hne : c'.flag ≠ 0#8 := by cases c' <;> decide
  simp only [has, Flags.enabled, Flags.enable, BitVec.and_or_distrib_right, hbit]
  split <;> simp_all [bne_iff_ne, BitVec.or_eq_zero_iff]

theorem has_add {s : Checkers} {cs : List Checker} {c : Checker} :
    (s.add cs).has c = true ↔ s.has c = true ∨ c ∈ cs := by
  induction cs generalizing s with
  | nil => simp [add]
  | cons d cs ih =>
    rw [add_cons, ih, has_enable, Bool.or_eq_true, decide_eq_true_eq, List.mem_cons, or_assoc,
      eq_comm (a := d)]

theorem has_ofList {cs : List Checker} {c : Checker} : (ofList cs).has c = true ↔ c ∈ cs := by
  have hempty : has .empty c = false := by cases c <;> decide
  simp [ofList, has_add, hempty]

/-! ### Reading one piece, and all of them -/

theorem lower_strip (p : List Char) :
    Text.lower (String.ofList (Text.strip Text.isBlank p)) = nameOf p := by
  simp [nameOf, Text.trim]

theorem piece_of_known {s : Checkers} {p : List Char} (h : ¬ Unknown (nameOf p)) :
    s.piece p = .ok (s.add (named (nameOf p))) := by
  rw [piece, lower_strip]
  generalize nameOf p = name at h
  by_cases hblank : name = ""
  · rw [hblank]
    rfl
  by_cases hall : name = "all"
  · simp [hall, add, named, Checker.all, Flags.enable, BitVec.or_assoc, every, Flags.ofList,
      Flags.empty]
  · -- what is left are the names of the checkers
    have hc : ∃ c : Checker, name = c.name :=
      Classical.byContradiction fun hno => h ⟨hblank, hall, fun c hc => hno ⟨c, hc⟩⟩
    obtain ⟨c, rfl⟩ := hc
    obtain ⟨-, -, hfind, hnamed⟩ := c.name_spec
    simp [hblank, hall, hfind, hnamed, add]

theorem piece_of_unknown {s : Checkers} {p : List Char} (h : Unknown (nameOf p)) :
    s.piece p = .error (nameOf p) := by
  obtain ⟨hblank, hall, hc⟩ := h
  simp only [piece, lower_strip, if_neg hblank, if_neg hall, Checker.ofName?_eq_none hc]

theorem foldlM_piece_eq_ok {ps : List (List Char)} {s t : Checkers} :
    ps.foldlM piece s = .ok t ↔
      (∀ n ∈ ps.map nameOf, ¬ Unknown n) ∧ t = s.add ((ps.map nameOf).flatMap named) := by
  induction ps generalizing s with
  | nil => simp [add, pure, Except.pure, eq_comm]
  | cons p ps ih =>
    rw [List.foldlM_cons, List.map_cons, List.forall_mem_cons, List.flatMap_cons, add_append]
    by_cases hp : Unknown (nameOf p)
    · rw [piece_of_unknown hp]
      refine iff_of_false (fun h => ?_) fun h => h.1.1 hp
      injection h
    · rw [piece_of_known hp, and_iff_right hp]
      exact ih

theorem foldlM_piece_eq_error {ps : List (List Char)} {s : Checkers} {e : String} :
    ps.foldlM piece s = .error e ↔
      ∃ before after, ps.map nameOf = before ++ e :: after ∧ (∀ n ∈ before, ¬ Unknown n) ∧
        Unknown e := by
  induction ps generalizing s with
  | nil => simp [pure, Except.pure]
  | cons p ps ih =>
    rw [List.foldlM_cons, List.map_cons]
    by_cases hp : Unknown (nameOf p)
    · rw [piece_of_unknown hp]
      generalize nameOf p = n at hp
      constructor
      · intro h
        injection h with h
        exact ⟨[], ps.map nameOf, by rw [h, List.nil_append], List.forall_mem_nil _, h ▸ hp⟩
      · rintro ⟨_ | ⟨m, before⟩, after, hps, hbefore, -⟩
        · injection hps with h
          rw [h]
          rfl
        · injection hps with h
          exact (hbefore m List.mem_cons_self (h ▸ hp)).elim
    · rw [piece_of_known hp]
      refine ih.trans ?_
      generalize nameOf p = n at hp
      constructor
      · rintro ⟨before, after, hps, hbefore, he⟩
        refine ⟨n :: before, after, ?_, List.forall_mem_cons.2 ⟨hp, hbefore⟩, he⟩
        rw [hps, List.cons_append]
      · rintro ⟨_ | ⟨m, before⟩, after, hps, hbefore, he⟩
        · injection hps with h
          exact (hp (h ▸ he)).elim
        · injection hps with _ hps
          exact ⟨before, after, hps, (List.forall_mem_cons.1 hbefore).2, he⟩

end Checkers

/-! ### Lists of names -/

theorem map_nameOf_pieces (texts : List String) :
    (texts.flatMap fun t => Text.pieces ',' t.toList).map nameOf = namesIn texts := by
  simp [namesIn, List.map_flatMap, Text.pieces_eq_splitOn]

theorem checkersOf_eq_ok {texts : List String} {s : Checkers} :
    checkersOf texts = .ok s ↔
      (∀ n ∈ namesIn texts, ¬ Unknown n) ∧ s = .ofList ((namesIn texts).flatMap named) := by
  rw [← map_nameOf_pieces]
  refine Iff.trans ?_ Checkers.foldlM_piece_eq_ok
  rw [checkersOf, ← Checkers.ofNames]
  cases Checkers.ofNames texts with
  | ok t => exact ⟨fun h => by injection h with h; rw [h], fun h => by rw [h]; rfl⟩
  | error e => exact iff_of_false (fun h => by injection h) fun h => by injection h

theorem checkersOf_eq_error {texts : List String} {e : Error} :
    checkersOf texts = .error e ↔
      ∃ n before after, e = .unknownChecker n ∧ namesIn texts = before ++ n :: after ∧
        (∀ m ∈ before, ¬ Unknown m) ∧ Unknown n := by
  have hfold {n : String} : Checkers.ofNames texts = .error n ↔ ∃ before after,
      namesIn texts = before ++ n :: after ∧ (∀ m ∈ before, ¬ Unknown m) ∧ Unknown n := by
    rw [← map_nameOf_pieces]
    exact Checkers.foldlM_piece_eq_error
  rw [checkersOf]
  constructor
  · intro h
    cases hr : Checkers.ofNames texts with
    | ok s =>
      rw [hr] at h
      injection h
    | error n =>
      rw [hr] at h
      injection h with h
      obtain ⟨before, after, hn⟩ := hfold.1 hr
      exact ⟨n, before, after, h.symm, hn⟩
  · rintro ⟨n, before, after, rfl, hn⟩
    rw [hfold.2 ⟨before, after, hn⟩]
    rfl

theorem checkersOf_fails_iff {texts : List String} :
    (∃ e, checkersOf texts = .error e) ↔ ∃ n ∈ namesIn texts, Unknown n := by
  constructor
  · rintro ⟨e, he⟩
    obtain ⟨n, before, after, -, hn, -, hun⟩ := checkersOf_eq_error.1 he
    exact ⟨n, by simp [hn], hun⟩
  · rintro ⟨n, hn, hun⟩
    cases hr : checkersOf texts with
    | ok s => exact ((checkersOf_eq_ok.1 hr).1 n hn hun).elim
    | error e => exact ⟨e, rfl⟩

theorem ofNames_intercalate {texts : List String} (h : texts ≠ []) :
    Checkers.ofNames [",".intercalate texts] = Checkers.ofNames texts := by
  have hjoined : (",".intercalate texts).toList = [','].intercalate (texts.map String.toList) :=
    String.toList_intercalate
  have hne : texts.map String.toList ≠ [] := mt List.map_eq_nil_iff.1 h
  rw [Checkers.ofNames, Checkers.ofNames, List.flatMap_singleton, hjoined,
    Text.pieces_intercalate ',' hne, List.flatMap_map]

/-- A list of checker names is read name by name: where the texts are cut does not matter, and the
choice is the union of what the names stand for, whatever their order and however often they and
blank ones stand there. It is refused exactly if a name is unknown, and the first such is the
error. -/
theorem checker_list_read_by_names (texts : List String) :
    checkersOf texts = checkersOf [",".intercalate texts] ∧
    (∀ s, checkersOf texts = .ok s →
      s = .ofList ((namesIn texts).flatMap named) ∧
      (∀ c, s.has c = true ↔ ∃ n ∈ namesIn texts, n = "all" ∨ n = c.name) ∧
      ∀ texts', (∀ n, n ≠ "" → (n ∈ namesIn texts' ↔ n ∈ namesIn texts)) →
        checkersOf texts' = .ok s) ∧
    ((∃ e, checkersOf texts = .error e) ↔ ∃ n ∈ namesIn texts, Unknown n) ∧
    ∀ e, checkersOf texts = .error e ↔
      ∃ n before after, e = .unknownChecker n ∧ namesIn texts = before ++ n :: after ∧
        (∀ m ∈ before, ¬ Unknown m) ∧ Unknown n := by
  refine ⟨?_, fun s hs => ?_, checkersOf_fails_iff, fun e => checkersOf_eq_error⟩
  · by_cases h : texts = []
    · subst h
      rfl
    · rw [checkersOf, checkersOf, ofNames_intercalate h]
  · obtain ⟨hknown, rfl⟩ := checkersOf_eq_ok.1 hs
    refine ⟨rfl, fun c => ?_, fun texts' hsame => ?_⟩
    · simp only [Checkers.has_ofList, List.mem_flatMap, mem_named]
    · -- a blank name is not unknown, and it stands for no checker
      have hblank : named "" = [] := rfl
      refine checkersOf_eq_ok.2 ⟨fun n hn hun => ?_, Checkers.ofList_congr fun c => ?_⟩
      · exact hknown n ((hsame n hun.1).1 hn) hun
      · simp only [List.mem_flatMap]
        refine exists_congr fun n => and_congr_left fun hc => ?_
        refine (hsame n fun hn => ?_).symm
        rw [hn, hblank] at hc
        exact List.not_mem_nil hc

/-- Two names with a comma too many, and the same names in another order and one of them twice; with
a misspelt one in front of them the list is refused. -/
theorem checker_list_read_by_names_at_orders :
    checkersOf [" Bounds ,", "MEMORY"] = .ok ⟨3#8⟩ ∧
      checkersOf ["memory,memory", "bounds"] = .ok ⟨3#8⟩ ∧
      checkersOf [",Memry,all", "x"] = .error (.unknownChecker "memry") := by
  have hnames : namesIn [" Bounds ,", "MEMORY"] = ["bounds", "", "memory"] := by decide +kernel
  have hnames' : namesIn ["memory,memory", "bounds"] = ["memory", "memory", "bounds"] := by
    decide +kernel
  have hbad : namesIn [",Memry,all", "x"] = [""] ++ "memry" :: ["all", "x"] := by decide +kernel
  have hok : checkersOf [" Bounds ,", "MEMORY"] = .ok ⟨3#8⟩ := by
    refine checkersOf_eq_ok.2 ⟨?_, by rw [hnames]; rfl⟩
    rw [hnames]
    simp only [List.forall_mem_cons]
    exact ⟨fun h => h.2.2 .bounds rfl, fun h => h.1 rfl, fun h => h.2.2 .memory rfl,
      List.forall_mem_nil _⟩
  refine ⟨hok, ?_, ?_⟩
  · obtain ⟨-, hread, -⟩ := checker_list_read_by_names [" Bounds ,", "MEMORY"]
    refine (hread _ hok).2.2 _ fun n hn => ?_
    rw [hnames, hnames']
    grind
  · obtain ⟨-, -, -, herror⟩ := checker_list_read_by_names [",Memry,all", "x"]
    refine (herror _).2 ⟨"memry", [""], ["all", "x"], rfl, hbad, ?_, ?_⟩
    · exact List.forall_mem_singleton.2 fun h => h.1 rfl
    · exact ⟨by decide, by decide, fun c => by cases c <;> decide⟩

end Settings

end MemLint
