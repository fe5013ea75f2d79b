import LineShell.Proofs.Glob.Components
import LineShell.Proofs.Glob.Descents
import LineShell.Proofs.Tree.Directories
import Mathlib
/-!
# What a pattern expands to

Main statement: a pattern without two wildcards side by side expands to exactly the paths below its
base directory whose names fit its components, each of them once.
-/

namespace LineShell

namespace Glob

/-- A pattern is divided after the last slash before its first wildcard. -/
structure Divides (pattern base rest : Text) : Prop where
  eq_append : pattern = base ++ rest
  wildcard_notMem : '*' ∉ base
  ends : base = [] ∨ base.getLast? = some '/'
  slash_notMem : '/' ∉ rest.takeWhile (· ≠ '*')

theorem divides_base (pattern : Text) : Divides pattern (base pattern) (body pattern) := by
  have hplain : pattern.takeWhile (· ≠ '*') =
      base pattern ++ ((pattern.takeWhile (· ≠ '*')).reverse.takeWhile (· ≠ '/')).reverse := by
    rw [base, ← List.reverse_append, List.takeWhile_append_dropWhile, List.reverse_reverse]
  have hpattern : pattern = base pattern ++ body pattern := by
    have hbase : base pattern <+: pattern :=
      (List.prefix_append _ _).trans (hplain ▸ List.takeWhile_prefix _)
    rw [body, List.prefix_iff_eq_append.1 hbase]
  have hstar : ∀ c ∈ base pattern, decide (c ≠ '*') = true := by
    intro c hc
    have hmem : c ∈ pattern.takeWhile (· ≠ '*') := by
      rw [hplain]
      exact List.mem_append_left _ hc
    simpa using List.mem_takeWhile_imp hmem
  refine ⟨hpattern, fun hmem => by simpa using hstar '*' hmem, ?_, ?_⟩
  · have hhead := List.head?_dropWhile_not (· ≠ '/') (pattern.takeWhile (· ≠ '*')).reverse
    rw [base, List.getLast?_reverse, List.reverse_eq_nil_iff]
    cases hdrop : (pattern.takeWhile (· ≠ '*')).reverse.dropWhile (· ≠ '/') with
    | nil => exact .inl rfl
    | cons c rest =>
      rw [hdrop] at hhead
      exact .inr (by simpa using hhead)
  · have hrest : (body pattern).takeWhile (· ≠ '*') =
        ((pattern.takeWhile (· ≠ '*')).reverse.takeWhile (· ≠ '/')).reverse := by
      nth_rewrite 1 [hpattern] at hplain
      rw [List.takeWhile_append_of_pos hstar] at hplain
      exact List.append_cancel_left hplain
    rw [hrest, List.mem_reverse]
    intro hmem
    simpa using List.mem_takeWhile_imp hmem

private theorem join_append_slash {cwd path : Text} (hne : path ≠ []) :
    Path.join cwd (path ++ ['/']) = Path.join cwd path ++ ['/'] := by
  have habsolute : Path.isAbsolute (path ++ ['/']) = Path.isAbsolute path := by
    cases path with
    | nil => exact absurd rfl hne
    | cons c path => rfl
  unfold Path.join
  rw [habsolute]
  split
  · rfl
  · split <;> simp

private theorem join_ne_nil {cwd path : Text} (hne : path ≠ []) : Path.join cwd path ≠ [] := by
  unfold Path.join
  split
  · exact hne
  · split <;> simp [hne]

/-- The search starts at the directory that the base names in the working directory. -/
theorem namesDirectory_searchRoot_iff {tree : FileTree} {cwd pattern : Text}
    {directory : Location} :
    tree.NamesDirectory (searchRoot cwd pattern) directory ↔
      tree.NamesDirectory (Path.join cwd (base pattern)) directory := by
  unfold searchRoot
  split
  · rename_i hbase
    rw [hbase]
    by_cases hends : cwd = [] ∨ Path.endsWithSlash cwd = true
    · simp [Path.join, Path.isAbsolute, hends]
    · have hjoin : Path.join cwd [] = cwd ++ ['/'] := by simp [Path.join, Path.isAbsolute, hends]
      rw [hjoin, FileTree.namesDirectory_slash_iff fun hnil => hends (.inl hnil)]
  · rename_i hbase
    rw [hbase]
    rfl
  · rename_i hempty hslash
    have hlast : (base pattern).getLast? = some '/' :=
      (divides_base pattern).ends.resolve_left hempty
    have hbase : base pattern = (base pattern).dropLast ++ ['/'] :=
      (List.dropLast_append_getLast? '/' hlast).symm
    have hne : (base pattern).dropLast ≠ [] := by
      intro hnil
      rw [hnil] at hbase
      exact hslash hbase
    nth_rewrite 2 [hbase]
    rw [join_append_slash hne, FileTree.namesDirectory_slash_iff (join_ne_nil hne)]

theorem slash_notMem_of_mem {names : Descent} : ∀ text ∈ names.map Name.text, '/' ∉ text := by
  intro text htext
  obtain ⟨name, -, rfl⟩ := List.mem_map.1 htext
  have hvalid := name.valid
  simp only [isName, Bool.and_eq_true, decide_eq_true_eq] at hvalid
  exact hvalid.1.1.2

theorem splitOn_text {names : Descent} (hne : names ≠ []) :
    (Descent.text names).splitOn '/' = names.map Name.text :=
  List.splitOn_intercalate '/' slash_notMem_of_mem (by simpa using hne)

theorem text_injective {names others : Descent} (hnames : names ≠ []) (hothers : others ≠ [])
    (h : Descent.text names = Descent.text others) : names = others := by
  have htexts : names.map Name.text = others.map Name.text := by
    rw [← splitOn_text hnames, h, splitOn_text hothers]
  refine List.map_injective_iff.2 ?_ htexts
  intro ⟨text, _⟩ ⟨other, _⟩ heq
  cases heq
  rfl

/-- A pattern expands to the matching paths below the directory that its base names, or to nothing
if it names none. -/
theorem expand_eq_ok {scope : Scope} {tree : FileTree} {pattern : Text} {pieces : List Piece}
    {paths : List Text} (hwildcard : '*' ∈ pattern) (hpieces : compile (body pattern) = some pieces)
    (h : expand scope tree pattern = .ok paths) :
    (∀ directory, ¬tree.NamesDirectory (Path.join scope.cwd (base pattern)) directory) ∧
    paths = [] ∨ ∃ directory, tree.NamesDirectory (Path.join scope.cwd (base pattern)) directory ∧
      paths = ((descents tree (depth (body pattern)) directory).filter fun names =>
        isMatch scope.hidden pieces names.text).map (base pattern ++ ·.text) := by
  simp only [← namesDirectory_searchRoot_iff]
  have hcondition : hasWildcard pattern = true := by simpa [hasWildcard] using hwildcard
  simp only [expand, hcondition, if_true, hpieces] at h
  cases hroot : tree.directoryAt (searchRoot scope.cwd pattern) with
  | ok directory =>
    refine .inr ⟨directory, FileTree.namesDirectory_of_directoryAt hroot, ?_⟩
    rw [hroot] at h
    obtain ⟨found, hsearch, hpaths⟩ := bind_eq_ok_iff.1 h
    cases hpaths
    simp [search_eq_filter hsearch]
  | error cause =>
    have hnone (directory : Location)
        (hnamed : tree.NamesDirectory (searchRoot scope.cwd pattern) directory) :
        cause = .nameTooLong := by
      rcases hnamed.directoryAt_eq with heq | heq
      · rw [hroot] at heq
        cases heq
      · rw [hroot] at heq
        cases heq
        rfl
    rw [hroot] at h
    cases cause with
    | notFound | notDirectory =>
      cases h
      refine .inl ⟨fun directory hnamed => ?_, rfl⟩
      cases hnone directory hnamed
    | _ => cases h

theorem WildcardsApart.body {pattern : Text} (h : WildcardsApart pattern) :
    WildcardsApart (body pattern) :=
  h.suffix ⟨base pattern, (divides_base pattern).eq_append.symm⟩

section Apart

variable {scope : Scope} {tree : FileTree} {pattern : Text} {paths : List Text}
  (hwildcard : '*' ∈ pattern) (hapart : WildcardsApart pattern)
  (h : expand scope tree pattern = .ok paths)
include hwildcard hapart h

private theorem nodup_of_expand : paths.Nodup := by
  have hpieces := compileFrom_of_wildcardsApart hapart.body true
  obtain ⟨-, rfl⟩ | ⟨directory, -, rfl⟩ := expand_eq_ok hwildcard hpieces h
  · exact List.nodup_nil
  · refine ((nodup_descents _ _ _).filter _).map_on fun names hnames others hothers heq => ?_
    have hne := (mem_descents.1 (List.mem_filter.1 hnames).1).1.ne_nil
    have hne' := (mem_descents.1 (List.mem_filter.1 hothers).1).1.ne_nil
    exact text_injective hne hne' (List.append_cancel_left heq)

/-- A pattern without two wildcards side by side expands to the paths below the directory that its
base names whose names fit, one by one, the components after the base. -/
theorem mem_expand_iff {path : Text} :
    path ∈ paths ↔ ∃ directory names,
      tree.NamesDirectory (Path.join scope.cwd (base pattern)) directory ∧
      tree.Leads directory names ∧
      List.Forall₂ (Fits scope.hidden true) ((body pattern).splitOn '/') (names.map Name.text) ∧
      path = base pattern ++ Descent.text names := by
  have hpieces := compileFrom_of_wildcardsApart hapart.body true
  have hmatch {names : Descent} (hne : names ≠ []) :
      isMatch scope.hidden ((body pattern).map .ofChar) (Descent.text names) = true ↔
        List.Forall₂ (Fits scope.hidden true) ((body pattern).splitOn '/')
          (names.map Name.text) :=
    isMatch_iff_forall₂ hapart.body (by simpa using hne) slash_notMem_of_mem
  obtain ⟨hnone, rfl⟩ | ⟨directory, hnamed, rfl⟩ := expand_eq_ok hwildcard hpieces h
  · simp [hnone]
  simp only [List.mem_map, List.mem_filter, mem_descents]
  constructor
  · rintro ⟨names, ⟨⟨hleads, -⟩, hfits⟩, rfl⟩
    exact ⟨directory, names, hnamed, hleads, (hmatch hleads.ne_nil).1 hfits, rfl⟩
  · rintro ⟨other, names, hother, hleads, hfits, rfl⟩
    obtain rfl : directory = other :=
      Except.ok.inj (hnamed.canonical.symm.trans hother.canonical)
    have hlength : names.length ≤ depth (body pattern) := by
      have heq := hfits.length_eq
      rw [List.length_map] at heq
      exact heq.symm.le
    exact ⟨names, ⟨⟨hleads, hlength⟩, (hmatch hleads.ne_nil).2 hfits⟩, rfl⟩

end Apart

/-- Globbing finds exactly the matches, name by name. A pattern with wildcards, no two of them side
by side, is divided after the last slash before its first wildcard. It expands to the paths below
the directory that the first part names in the working directory whose names fit the components of
the second part, each of them once. -/
theorem expand_finds_fitting_paths (scope : Scope) (tree : FileTree) (pattern : Text)
    (paths : List Text) (hwildcard : '*' ∈ pattern) (hapart : WildcardsApart pattern)
    (h : expand scope tree pattern = .ok paths) :
    ∃ base rest, Divides pattern base rest ∧ paths.Nodup ∧ ∀ path, path ∈ paths ↔
      ∃ directory names, tree.NamesDirectory (Path.join scope.cwd base) directory ∧
        tree.Leads directory names ∧
        List.Forall₂ (Fits scope.hidden true) (rest.splitOn '/') (names.map Name.text) ∧
        path = base ++ List.intercalate ['/'] (names.map Name.text) := by
  refine ⟨base pattern, body pattern, divides_base pattern, ?_, fun path => ?_⟩
  · exact nodup_of_expand hwildcard hapart h
  · exact mem_expand_iff hwildcard hapart h

/-- The same file in a directory, in a hidden directory and behind a link, and once more outside. -/
def treeWithHidden : FileTree :=
  .ofList [("/w", .directory), ("/w/s", .directory), ("/w/s/.b", .directory),
    ("/w/s/.b/m.x", .file []), ("/w/s/a", .directory), ("/w/s/a/m.x", .file []),
    ("/w/s/l", .link ['a']), ("/s", .directory), ("/s/c", .directory), ("/s/c/m.x", .file [])]

theorem expand_finds_fitting_paths_of_hidden :
    expand ⟨"/w".toList, false⟩ treeWithHidden "s/*/m.*".toList = .ok ["s/a/m.x".toList] ∧
    ∃ base rest, Divides "s/*/m.*".toList base rest ∧ ["s/a/m.x".toList].Nodup ∧
      ∀ path, path ∈ ["s/a/m.x".toList] ↔
        ∃ directory names, treeWithHidden.NamesDirectory (Path.join "/w".toList base) directory ∧
          treeWithHidden.Leads directory names ∧
          List.Forall₂ (Fits false true) (rest.splitOn '/') (names.map Name.text) ∧
          path = base ++ List.intercalate ['/'] (names.map Name.text) := by
  have hexpand : expand ⟨"/w".toList, false⟩ treeWithHidden "s/*/m.*".toList =
      .ok ["s/a/m.x".toList] := by cbv
  have hapart : WildcardsApart "s/*/m.*".toList := by
    unfold WildcardsApart
    decide
  exact ⟨hexpand, expand_finds_fitting_paths ⟨"/w".toList, false⟩ treeWithHidden _ _
    (by decide) hapart hexpand⟩

end Glob

end LineShell
