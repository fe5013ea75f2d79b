import LineShell.Proofs.Glob.Expansion
import Mathlib
/-!
# Hidden names

Unless hidden names are included, a wildcard takes no dot at the start of a name. It may take
nothing, though, and leave the dot to a dot that the pattern writes after it. Main statement: this
is the only way in which a name that starts with a dot is found by a component that does not.
-/

namespace LineShell

namespace Glob

theorem WildcardsApart.component {pattern component : Text} (h : WildcardsApart pattern)
    (hcomponent : component ∈ pattern.splitOn '/') : WildcardsApart component := by
  have hinfix : component <:+: List.intercalate ['/'] (pattern.splitOn '/') :=
    infix_intercalate hcomponent
  rw [List.intercalate_splitOn] at hinfix
  exact h.infix hinfix

/-- A name that starts with a dot fits a component that starts with a dot, or with a wildcard that
stands for nothing and then a dot. -/
theorem Fits.written_dot {component name : Text} (h : Fits false true component name)
    (hapart : WildcardsApart component) (hname : name.head? = some '.') :
    component.head? = some '.' ∨
      ∃ literal, component = '*' :: '.' :: literal ∧ Fits false false ('.' :: literal) name := by
  cases h with
  | nil => cases hname
  | char _ _ => exact .inl hname
  | @star _ component name filling _ hdot hrest =>
    cases filling with
    | cons c filling => exact absurd hname (hdot rfl rfl)
    | nil =>
      rw [List.nil_append] at hname ⊢
      cases hrest with
      | nil => cases hname
      | @char _ c component name hc hrest =>
        obtain rfl : c = '.' := by simpa using hname
        exact .inr ⟨component, rfl, .char hc hrest⟩
      | star => exact absurd ⟨rfl, rfl⟩ (List.isChain_cons_cons.1 hapart).1

/-- A hidden name is found only through a dot that the pattern writes. Let hidden names not be
included, and let a pattern with wildcards, no two of them side by side, expand to a path. If a name
of the path after the base of the pattern starts with a dot, then so does its component of the
pattern, or the component starts with a wildcard and a dot, and the name fits what follows the
wildcard. -/
theorem expand_finds_hidden_by_written_dot (scope : Scope) (tree : FileTree) (pattern : Text)
    (paths : List Text) (hhidden : scope.hidden = false) (hwildcard : '*' ∈ pattern)
    (hapart : WildcardsApart pattern)
    (h : expand scope tree pattern = .ok paths) :
    ∃ base rest, Divides pattern base rest ∧ ∀ names : List Text, names ≠ [] →
      (∀ name ∈ names, '/' ∉ name) → base ++ List.intercalate ['/'] names ∈ paths →
      List.Forall₂ (fun component name => name.head? = some '.' → component.head? = some '.' ∨
        ∃ literal, component = '*' :: '.' :: literal ∧ Fits false false ('.' :: literal) name)
        (rest.splitOn '/') names := by
  refine ⟨base pattern, body pattern, divides_base pattern, fun names hne hslash hmem => ?_⟩
  obtain ⟨_, found, -, hleads, hfits, htext⟩ := (mem_expand_iff hwildcard hapart h).1 hmem
  have hnames : names = found.map Name.text := by
    rw [← splitOn_text hleads.ne_nil, ← List.append_cancel_left htext,
      List.splitOn_intercalate '/' hslash hne]
  rw [hnames]
  rw [hhidden] at hfits
  have hcomponents : ∀ component ∈ (body pattern).splitOn '/', WildcardsApart component :=
    fun component => hapart.body.component
  refine ((List.forall₂_and_left _ _).2 ⟨hcomponents, hfits⟩).imp ?_
  rintro component name ⟨hcomponent, hname⟩ hdot
  exact hname.written_dot hcomponent hdot

/-- Hidden files in a directory, one of them in a hidden directory, and another one outside it. -/
def treeWithHiddenFiles : FileTree :=
  .ofList [("/w", .directory), ("/w/.h.x", .file []), ("/w/m.x", .file []), ("/w/.d", .directory),
    ("/w/.d/.x", .file []), ("/.e", .directory), ("/.e/.x", .file [])]

theorem expand_finds_hidden_by_written_dot_of_directory :
    expand ⟨"/w".toList, false⟩ treeWithHiddenFiles ".*/*.x".toList = .ok [".d/.x".toList] ∧
    ∃ base rest, Divides ".*/*.x".toList base rest ∧
      ∀ names : List Text, names ≠ [] → (∀ name ∈ names, '/' ∉ name) →
        base ++ List.intercalate ['/'] names ∈ [".d/.x".toList] →
        List.Forall₂ (fun component name => name.head? = some '.' → component.head? = some '.' ∨
          ∃ literal, component = '*' :: '.' :: literal ∧ Fits false false ('.' :: literal) name)
          (rest.splitOn '/') names := by
  have hexpand : expand ⟨"/w".toList, false⟩ treeWithHiddenFiles ".*/*.x".toList =
      .ok [".d/.x".toList] := by cbv
  have hapart : WildcardsApart ".*/*.x".toList := by
    unfold WildcardsApart
    decide
  exact ⟨hexpand, expand_finds_hidden_by_written_dot ⟨"/w".toList, false⟩ treeWithHiddenFiles _ _
    rfl (by decide) hapart hexpand⟩

/-- The wildcard at the start stands for nothing, so that a hidden file is found although no dot is
written first. -/
theorem expand_finds_hidden_after_wildcard :
    ¬∀ (scope : Scope) (tree : FileTree) (pattern : Text) (paths : List Text),
      scope.hidden = false → '*' ∈ pattern → WildcardsApart pattern →
      expand scope tree pattern = .ok paths → ∀ base rest, Divides pattern base rest →
      ∀ names : List Text, names ≠ [] → (∀ name ∈ names, '/' ∉ name) →
      base ++ List.intercalate ['/'] names ∈ paths →
      List.Forall₂ (fun component name => name.head? = some '.' → component.head? = some '.')
        (rest.splitOn '/') names := by
  intro hall
  have hexpand : expand ⟨"/w".toList, false⟩ treeWithHiddenFiles "*.*".toList =
      .ok [".d".toList, ".h.x".toList, "m.x".toList] := by
    cbv
  have hapart : WildcardsApart "*.*".toList := by
    unfold WildcardsApart
    decide
  have hdivides : Divides "*.*".toList [] "*.*".toList := ⟨rfl, by decide, .inl rfl, by decide⟩
  have hdots := hall _ _ _ _ rfl (by decide) hapart hexpand [] _ hdivides [".h.x".toList] (by simp)
    (by decide) (by decide)
  have hsplit : "*.*".toList.splitOn '/' = ["*.*".toList] := by decide
  rw [hsplit, List.forall₂_cons] at hdots
  exact absurd (hdots.1 rfl) (by decide)

end Glob

end LineShell
