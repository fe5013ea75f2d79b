import LineShell.Proofs.Glob.Order
import Mathlib
/-!
# Slashes in what a pattern finds

A wildcard takes no slash, so that a found path has a slash for each slash that its pattern asks
for. A deep wildcard comes with the slash after it and may stand for nothing, and then the path
lacks that slash. Main statement: no other slash is lost, and none is added.
-/

namespace LineShell

namespace Glob

/-- The number of places in a pattern where a deep wildcard is followed by a slash. -/
def deepSlashes (pattern : Text) : Nat :=
  pattern.tails.countP (['*', '*', '/'].isPrefixOf ·)

private theorem deepSlashes_cons (c : Char) (pattern : Text) :
    deepSlashes (c :: pattern) =
      deepSlashes pattern + if ['*', '*', '/'].isPrefixOf (c :: pattern) = true then 1 else 0 := by
  rw [deepSlashes, List.tails_cons, List.countP_cons, deepSlashes]

private theorem deepSlashes_cons_of_ne {c : Char} (h : c ≠ '*') (pattern : Text) :
    deepSlashes (c :: pattern) = deepSlashes pattern := by
  have hfirst : ('*' == c) = false := by simpa using h.symm
  simp [deepSlashes_cons, List.isPrefixOf, hfirst]

private theorem deepSlashes_append {plain : Text} (h : '*' ∉ plain) (pattern : Text) :
    deepSlashes (plain ++ pattern) = deepSlashes pattern := by
  induction plain with
  | nil => rfl
  | cons c plain ih =>
    rw [List.mem_cons, not_or] at h
    rw [List.cons_append, deepSlashes_cons_of_ne (Ne.symm h.1), ih h.2]

private theorem deepSlashes_eq_zero {pattern : Text} (h : ¬['*', '*', '/'] <:+: pattern) :
    deepSlashes pattern = 0 := by
  rw [deepSlashes, List.countP_eq_zero]
  intro rest hrest hstarts
  rw [List.isPrefixOf_iff_prefix] at hstarts
  exact h (hstarts.isInfix.trans ((List.mem_tails _ _).1 hrest).isInfix)

/-- A slash of a pattern becomes a piece of its own unless it follows a deep wildcard. -/
theorem count_slash_of_compileFrom {fresh : Bool} {pattern : Text} {pieces : List Piece}
    (h : compileFrom fresh pattern = some pieces) :
    pattern.count '/' = pieces.count (.char '/') + deepSlashes pattern := by
  fun_induction compileFrom fresh pattern generalizing pieces with
  | case1 =>
    cases h
    rfl
  | case2 | case4 | case6 | case7 => cases h
  | case3 =>
    cases h
    rfl
  | case5 rest ih =>
    obtain ⟨later, hlater, rfl⟩ := Option.map_eq_some_iff.1 h
    have hrest := ih hlater
    have hswallowed : deepSlashes ('*' :: '*' :: '/' :: rest) = deepSlashes rest + 1 := by
      simp [deepSlashes_cons, List.isPrefixOf]
    have hcount : ('*' :: '*' :: '/' :: rest).count '/' = rest.count '/' + 1 := by simp
    have hpieces : (Piece.deep :: later).count (.char '/') = later.count (.char '/') := by simp
    omega
  | case8 fresh rest _ _ _ hnext ih =>
    obtain ⟨later, hlater, rfl⟩ := Option.map_eq_some_iff.1 h
    have hkept : ¬['*', '*', '/'].isPrefixOf ('*' :: rest) = true := by
      rw [List.isPrefixOf_iff_prefix]
      rintro ⟨tail, htail⟩
      exact hnext ('/' :: tail) (List.cons.inj htail).2.symm
    rw [deepSlashes_cons, if_neg hkept]
    simpa using ih hlater
  | case9 fresh c rest _ _ _ _ hc ih =>
    obtain ⟨later, hlater, rfl⟩ := Option.map_eq_some_iff.1 h
    have hstar : c ≠ '*' := hc
    have hrest := ih hlater
    rw [deepSlashes_cons_of_ne hstar]
    by_cases hslash : c = '/'
    · subst hslash
      rw [List.count_cons_self, List.count_cons_self]
      omega
    · rwa [List.count_cons_of_ne hslash, List.count_cons_of_ne (by simpa using hslash)]

/-- A covered text has a slash for each slash among the pieces: only deep wildcards add to them. -/
theorem Covers.count_slash_le {hidden fresh : Bool} {pieces : List Piece} {text : Text}
    (h : Covers hidden pieces fresh text) : pieces.count (.char '/') ≤ text.count '/' := by
  induction h with
  | nil => simp
  | @char _ c pieces rest _ ih =>
    by_cases hc : c = '/'
    · subst hc
      simpa using ih
    · rwa [List.count_cons_of_ne hc, List.count_cons_of_ne (by simpa using hc)]
  | star _ _ _ ih | deep _ _ _ ih =>
    rw [List.count_append, List.count_cons_of_ne (by simp)]
    omega

private theorem depth_eq (path : Text) : depth path = path.count '/' + 1 := by
  induction path with
  | nil => rfl
  | cons c path ih =>
    unfold depth at ih ⊢
    rw [List.splitOn_cons_eq_if_modifyHead]
    by_cases hc : c = '/' <;> simp [hc, ih]

/-- What a pattern finds has no more slashes than the pattern, and it lacks at most one for each
place where the pattern writes a deep wildcard and a slash after it. So a pattern without such a
place finds only paths with exactly as many slashes as it has itself. -/
theorem expand_keeps_slashes (scope : Scope) (tree : FileTree) (pattern : Text) (paths : List Text)
    (hwildcard : '*' ∈ pattern) (h : expand scope tree pattern = .ok paths) :
    ∀ path ∈ paths, path.count '/' ≤ pattern.count '/' ∧
      pattern.count '/' ≤ path.count '/' + deepSlashes pattern ∧
      (¬['*', '*', '/'] <:+: pattern → path.count '/' = pattern.count '/') := by
  intro path hpath
  obtain ⟨pieces, hpieces⟩ := exists_compile_of_expand hwildcard h
  obtain ⟨-, rfl⟩ | ⟨directory, -, rfl⟩ := expand_eq_ok hwildcard hpieces h
  · cases hpath
  obtain ⟨names, hnames, rfl⟩ := List.mem_map.1 hpath
  obtain ⟨hvisited, hmatch⟩ := List.mem_filter.1 hnames
  obtain ⟨hleads, hlength⟩ := mem_descents.1 hvisited
  have hdivides := divides_base pattern
  have hpattern : pattern.count '/' = (base pattern).count '/' + (body pattern).count '/' := by
    rw [← List.count_append, ← hdivides.eq_append]
  have hdeep : deepSlashes pattern = deepSlashes (body pattern) := by
    nth_rewrite 1 [hdivides.eq_append]
    exact deepSlashes_append hdivides.wildcard_notMem _
  -- The search goes no deeper than the pattern has names, and the pieces of the pattern ask for
  -- their slashes.
  have hupper : names.text.count '/' ≤ (body pattern).count '/' := by
    have hdepth := depth_eq names.text
    rw [depth, splitOn_text hleads.ne_nil, List.length_map] at hdepth
    rw [depth_eq] at hlength
    omega
  have hlower : (body pattern).count '/' ≤ names.text.count '/' + deepSlashes (body pattern) := by
    have hcovered := ((isMatch_iff hpieces _).1 hmatch).count_slash_le
    have hwritten := count_slash_of_compileFrom hpieces
    omega
  rw [List.count_append]
  refine ⟨by omega, by omega, fun hnone => ?_⟩
  have hzero := deepSlashes_eq_zero hnone
  omega

/-- A file in a directory, one of the same name beside it, and one outside. -/
def treeWithNamesakes : FileTree :=
  .ofList [("/w", .directory), ("/w/x", .file []), ("/w/a", .directory), ("/w/a/x", .file []),
    ("/b", .directory), ("/b/x", .file [])]

theorem expand_keeps_slashes_of_namesakes :
    expand ⟨"/w".toList, false⟩ treeWithNamesakes "**/x".toList = .ok ["a/x".toList, "x".toList] ∧
    ∀ path ∈ ["a/x".toList, "x".toList], path.count '/' ≤ "**/x".toList.count '/' ∧
      "**/x".toList.count '/' ≤ path.count '/' + deepSlashes "**/x".toList ∧
      (¬['*', '*', '/'] <:+: "**/x".toList → path.count '/' = "**/x".toList.count '/') := by
  have hexpand : expand ⟨"/w".toList, false⟩ treeWithNamesakes "**/x".toList =
      .ok ["a/x".toList, "x".toList] := by cbv
  exact ⟨hexpand, expand_keeps_slashes ⟨"/w".toList, false⟩ treeWithNamesakes _ _
    (by decide) hexpand⟩

/-- A deep wildcard swallows the slash after it, so that a file is found beside the directories it
was sought in. -/
theorem expand_loses_slash_after_deep :
    ¬∀ (scope : Scope) (tree : FileTree) (pattern : Text) (paths : List Text),
      '*' ∈ pattern → expand scope tree pattern = .ok paths →
      ∀ path ∈ paths, path.count '/' = pattern.count '/' := by
  intro hall
  have hexpand : expand ⟨"/w".toList, false⟩ treeWithNamesakes "**/x".toList =
      .ok ["a/x".toList, "x".toList] := by cbv
  have hcount := hall _ _ _ _ (by decide) hexpand "x".toList (by decide)
  exact absurd hcount (by decide)

end Glob

end LineShell
