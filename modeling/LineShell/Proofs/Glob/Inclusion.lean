import LineShell.Proofs.Glob.Order
import Mathlib
/-!
# Including hidden names

Whether hidden names are included decides what a wildcard may take, and nothing else of a search: it
visits the same directories in the same order, and it fails for the same paths. Main statement: what
a pattern expands to without hidden names is a part, in the same order, of what it expands to with
them.
-/

namespace LineShell

namespace Glob

variable {tree : FileTree}

@[simp] theorem takesAll_of_hidden (fresh : Bool) (text : Text) :
    takesAll true fresh text = true := by
  induction text generalizing fresh with
  | nil => rfl
  | cons c text ih => rw [takesAll, ih, takes, Bool.true_or, Bool.true_or, Bool.true_and]

theorem Covers.include_hidden {hidden fresh : Bool} {pieces : List Piece} {text : Text}
    (h : Covers hidden pieces fresh text) : Covers true pieces fresh text := by
  induction h with
  | nil => exact .nil
  | char _ ih => exact .char ih
  | star hslash _ _ ih => exact .star hslash (takesAll_of_hidden _ _) ih
  | deep hplace _ _ ih => exact .deep hplace (takesAll_of_hidden _ _) ih

-- The matcher may give up early in one mode and go on in the other, so the two runs are compared by
-- what they accept.
private theorem isMatch_include_hidden {pattern : Text} {pieces : List Piece}
    (hpieces : compile pattern = some pieces) {hidden : Bool} {text : Text}
    (h : isMatch hidden pieces text = true) : isMatch true pieces text = true := by
  rw [isMatch_iff hpieces] at h ⊢
  exact h.include_hidden

/-- Whether a search succeeds does not depend on what it looks for. -/
theorem exists_search_eq_ok {hidden : Bool} {pieces : List Piece} {root : Text} {depth : Nat}
    {directory : Location} {names : Descent} {found : List Descent}
    (h : search tree hidden pieces root depth directory names = .ok found)
    (hidden' : Bool) (pieces' : List Piece) :
    ∃ found', search tree hidden' pieces' root depth directory names = .ok found' := by
  induction depth generalizing directory names found with
  | zero => exact ⟨[], rfl⟩
  | succ depth ih =>
    obtain ⟨hshort, lists, -, hlists⟩ := search_succ_eq_ok h
    cases hother : search tree hidden' pieces' root (depth + 1) directory names with
    | ok found' => exact ⟨found', rfl⟩
    | error e =>
      rcases search_succ_eq_error hother with ⟨-, hlong⟩ | ⟨name, hentry, hfails⟩
      · omega
      · obtain ⟨list, -, below, -, hbelow⟩ := exists_of_mem_right hlists.flip hentry
        rw [if_pos rfl] at hbelow
        obtain ⟨below', hbelow'⟩ := ih hbelow
        rw [hbelow'] at hfails
        cases hfails

private theorem exists_expand_eq_ok {cwd pattern : Text} {hidden : Bool} {paths : List Text}
    (h : expand ⟨cwd, hidden⟩ tree pattern = .ok paths) (hidden' : Bool) :
    ∃ paths', expand ⟨cwd, hidden'⟩ tree pattern = .ok paths' := by
  by_cases hwildcard : hasWildcard pattern = true
  · obtain ⟨pieces, hpieces⟩ := exists_compile_of_expand (by simpa [hasWildcard] using hwildcard) h
    simp only [expand, hwildcard, if_true, hpieces] at h ⊢
    cases hroot : tree.directoryAt (searchRoot cwd pattern) with
    | ok directory =>
      rw [hroot] at h
      obtain ⟨found, hfound, -⟩ := bind_eq_ok_iff.1 h
      obtain ⟨found', hfound'⟩ := exists_search_eq_ok hfound hidden' pieces
      exact ⟨_, bind_eq_ok_iff.2 ⟨found', hfound', rfl⟩⟩
    | error cause =>
      rw [hroot] at h
      cases cause with
      | notFound | notDirectory => exact ⟨[], rfl⟩
      | _ => cases h
  · exact ⟨[pattern], by rw [expand, if_neg hwildcard]⟩

private theorem expand_sublist {cwd pattern : Text} {shown all : List Text}
    (hshown : expand ⟨cwd, false⟩ tree pattern = .ok shown)
    (hall : expand ⟨cwd, true⟩ tree pattern = .ok all) :
    shown.Sublist all := by
  by_cases hwildcard : '*' ∈ pattern
  · obtain ⟨pieces, hpieces⟩ := exists_compile_of_expand hwildcard hshown
    rcases expand_eq_ok hwildcard hpieces hshown with ⟨-, rfl⟩ | ⟨directory, hnamed, rfl⟩
    · exact List.nil_sublist all
    · rcases expand_eq_ok hwildcard hpieces hall with ⟨hnone, -⟩ | ⟨other, hother, rfl⟩
      · exact absurd hnamed (hnone directory)
      · have hsame : directory = other :=
          Except.ok.inj (hnamed.canonical.symm.trans hother.canonical)
        rw [hsame]
        apply List.Sublist.map
        apply List.monotone_filter_right
        intro names hmatch
        exact isMatch_include_hidden hpieces hmatch
  · have hplain : ¬hasWildcard pattern = true := by simpa [hasWildcard] using hwildcard
    rw [expand, if_neg hplain] at hshown hall
    cases hshown
    cases hall
    exact List.Sublist.refl _

/-- Including hidden names loses no match. A pattern, be it with deep wildcards or not, expands with
hidden names exactly if it does without them, and the paths that it expands to without them then
stand in the same order among those with them. -/
theorem expand_including_hidden (cwd : Text) (tree : FileTree) (pattern : Text) :
    ((∃ all, expand ⟨cwd, true⟩ tree pattern = .ok all) ↔
      ∃ shown, expand ⟨cwd, false⟩ tree pattern = .ok shown) ∧
    ∀ shown all, expand ⟨cwd, false⟩ tree pattern = .ok shown →
      expand ⟨cwd, true⟩ tree pattern = .ok all → shown.Sublist all := by
  refine ⟨⟨?_, ?_⟩, fun shown all => expand_sublist⟩
  · intro ⟨all, hall⟩
    exact exists_expand_eq_ok hall false
  · intro ⟨shown, hshown⟩
    exact exists_expand_eq_ok hshown true

theorem expand_including_hidden_of_deep :
    expand ⟨"/w".toList, false⟩ treeWithHidden "s/**/*.x".toList = .ok ["s/a/m.x".toList] ∧
    expand ⟨"/w".toList, true⟩ treeWithHidden "s/**/*.x".toList =
      .ok ["s/.b/m.x".toList, "s/a/m.x".toList] ∧
    ["s/a/m.x".toList].Sublist ["s/.b/m.x".toList, "s/a/m.x".toList] := by
  have hshown : expand ⟨"/w".toList, false⟩ treeWithHidden "s/**/*.x".toList =
      .ok ["s/a/m.x".toList] := by cbv
  have hall : expand ⟨"/w".toList, true⟩ treeWithHidden "s/**/*.x".toList =
      .ok ["s/.b/m.x".toList, "s/a/m.x".toList] := by
    cbv
  exact ⟨hshown, hall,
    (expand_including_hidden "/w".toList treeWithHidden "s/**/*.x".toList).2 _ _ hshown hall⟩

end Glob

end LineShell
