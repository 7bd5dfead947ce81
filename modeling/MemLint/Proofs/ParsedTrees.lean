import MemLint.Proofs.Check.Clean
import MemLint.Proofs.Grammar.Nesting
import MemLint.Proofs.Grammar.WellFormed

/-! What the checks can rely on in a tree that was parsed. -/

namespace MemLint

open Grammar

/-- A parsed tree lacks no child that it needs and has no node of an unknown kind, and every checker
either finds it too deep or goes through it without meeting an unknown node. -/
theorem parsed_tree_fits_checkers {limit : Nat} {source : List Char} {ds : List Decl}
    (h : parse limit source = .ok ds) :
    (∀ d ∈ ds, d.WellFormed) ∧
    ∀ (o : Check.Options) (c : Settings.Checker),
      (∃ e, Analysis.check o ds c = .error e ∧ e.defect = .tooDeep) ∨
      ∃ found, Analysis.check o ds c = .ok found ∧ ∀ x ∈ found, x.kind ≠ .unsupported := by
  have hds := wellFormed.of_parse h
  refine ⟨hds, fun o c => ?_⟩
  rcases Check.check_clean hds o c with ⟨e, he, hd, -⟩ | hfound
  · exact .inl ⟨e, he, hd⟩
  · exact .inr hfound

theorem parsed_tree_fits_checkers_at_loop :
    let tree : List Decl :=
      [.var "p" (.call "new" []), .stmt (.loop .absent (.varRef "p") .absent
        (.expr (.assign (.index "p" (.intLit 0))
          (.binary .add (.index "p" (.intLit 0)) (.intLit 1)))))]
    parse 9 "int *p = new int; while (p) p[0]++;".toList = .ok tree ∧
    (∀ d ∈ tree, d.WellFormed) ∧
    ∀ (o : Check.Options) (c : Settings.Checker),
      (∃ e, Analysis.check o tree c = .error e ∧ e.defect = .tooDeep) ∨
      ∃ found, Analysis.check o tree c = .ok found ∧ ∀ x ∈ found, x.kind ≠ .unsupported := by
  intro tree
  have h : parse 9 "int *p = new int; while (p) p[0]++;".toList = .ok tree := by
    with_unfolding_all rfl
  exact ⟨h, parsed_tree_fits_checkers h⟩

/-- A limit that is enough to parse a text need not be enough to check it: the operators of a sum
are read in a loop, but the tree is as high as they are many. -/
theorem parse_limit_short_for_checkers :
    let tree : List Decl :=
      [.stmt (.expr (.binary .add (.binary .add (.ident "a") (.ident "a")) (.ident "a")))]
    parse 3 "a + a + a;".toList = .ok tree ∧
    ∀ c : Settings.Checker, ∃ e, Analysis.check { maxDepth := 3 } tree c = .error e ∧
      e.defect = .tooDeep := by
  intro tree
  refine ⟨by with_unfolding_all rfl, fun c => ?_⟩
  cases c <;> exact ⟨_, rfl, rfl⟩

/-- A checker gets through a parsed tree if it may go as deep as the parser and, on top of that,
through the levels that the parser did not count. -/
theorem checkers_get_through_parsed_tree {limit : Nat} {source : List Char} {ds : List Decl}
    (hlimit : 1 ≤ limit) (h : parse limit source = .ok ds) {o : Check.Options}
    (ho : ∀ d ∈ ds, limit + d.uncounted ≤ o.depth) (c : Settings.Checker) :
    ∃ found, Analysis.check o ds c = .ok found := by
  have hwell := wellFormed.of_parse h
  rcases Check.check_clean hwell o c with ⟨e, -, -, d, hd, hheight⟩ | ⟨found, hf, -⟩
  · have hfits : d.height ≤ limit + d.uncounted := fitting.of_parse h d hd hlimit
    have := ho d hd
    omega
  · exact ⟨found, hf⟩

theorem checkers_get_through_parsed_tree_at_steps :
    let tree : List Decl :=
      [.func "f" [] (.base .int) (.block [
        .block [.decl "p" .absent, .decl "i" .absent],
        .expr (.assign (.deref (.assign (.varRef "p") (.binary .add (.varRef "p") (.intLit 1))))
          (.binary .add (.binary .add (.ident "i") (.intLit 1)) (.intLit 2)))])]
    parse 4 "int f() { int *p, i; *p++ = i + 1 + 2; }".toList = .ok tree ∧
    (∀ d ∈ tree, 4 + d.uncounted ≤ Check.Options.depth { maxDepth := 7 }) ∧
    ∀ c : Settings.Checker, ∃ found, Analysis.check { maxDepth := 7 } tree c = .ok found := by
  intro tree
  have h : parse 4 "int f() { int *p, i; *p++ = i + 1 + 2; }".toList = .ok tree := by
    with_unfolding_all rfl
  have ho : ∀ d ∈ tree, 4 + d.uncounted ≤ Check.Options.depth { maxDepth := 7 } := by decide
  exact ⟨h, ho, checkers_get_through_parsed_tree (by decide) h ho⟩

end MemLint
