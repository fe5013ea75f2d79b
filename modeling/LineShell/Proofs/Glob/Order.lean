import LineShell.Proofs.Glob.Expansion
import Mathlib
/-!
# The order of what a pattern expands to

The search lists each directory in the order of the names in it, whatever the order in which the
tree lists its nodes. Main statement: the paths that a pattern expands to increase strictly,
compared name by name, and they depend on the nodes of the tree alone. This order is not that of the
texts: `a/x` comes before `a.x`.
-/

namespace LineShell

/-- Paths are ordered name by name, and names by their UTF-8 bytes. A path comes before all that
lies below it. -/
def Path.Before (left right : Text) : Prop :=
  List.Lex (fun (name other : Text) => name.utf8 < other.utf8) (left.splitOn '/')
    (right.splitOn '/')

theorem Path.Before.ne {left right : Text} (h : Before left right) : left ≠ right := by
  intro heq
  rw [heq] at h
  exact List.lex_irrefl (fun name => List.lt_irrefl (Text.utf8 name)) _ h

theorem Descent.Before.text {left right : Descent} (hleft : left ≠ []) (hright : right ≠ [])
    (h : left.Before right) : Path.Before left.text right.text := by
  rw [Path.Before, Glob.splitOn_text hleft, Glob.splitOn_text hright]
  clear hleft hright
  induction h with
  | nil => exact .nil
  | rel hlt => exact .rel hlt
  | cons _ ih => exact .cons ih

namespace FileTree

variable {tree other : FileTree}

private theorem get?_of_perm (h : tree.nodes.Perm other.nodes) : tree.get? = other.get? := by
  funext location
  cases location with
  | nil => rfl
  | cons name parent =>
    ext node
    rw [← mem_nodes_iff (List.cons_ne_nil name parent),
      ← mem_nodes_iff (List.cons_ne_nil name parent), h.mem_iff]

private theorem walkWith_congr (h : tree.get? = other.get?) (output : Bool)
    (follow : Location → Text → List Step → Except IoError Target) (location : Location)
    (steps : List Step) :
    tree.walkWith output follow location steps = other.walkWith output follow location steps := by
  induction steps generalizing location with
  | nil => rfl
  | cons step steps ih =>
    cases step with
    | here => exact ih location
    | slash => exact ih location
    | up => exact ih location.tail
    | down name => simp only [walkWith, h, ih]

private theorem walk_congr (h : tree.get? = other.get?) (output : Bool) (links : Nat) :
    tree.walk output links = other.walk output links := by
  induction links with
  | zero =>
    funext location steps
    exact walkWith_congr h output _ location steps
  | succ links ih =>
    funext location steps
    rw [walk, walk, ih]
    exact walkWith_congr h output _ location steps

private theorem directoryAt_congr (h : tree.get? = other.get?) (path : Text) :
    tree.directoryAt path = other.directoryAt path := by
  have hdirectory (location : Location) :
      tree.isDirectoryAt location = other.isDirectoryAt location := by
    rw [isDirectoryAt, isDirectoryAt, h]
  simp only [directoryAt, resolve, locate, walk_congr h, hdirectory]

end FileTree

namespace Glob

variable {tree other : FileTree}

private theorem sortedEntries_of_perm (h : tree.nodes.Perm other.nodes) (directory : Location) :
    sortedEntries tree directory = sortedEntries other directory := by
  have hperm : (sortedEntries tree directory).Perm (sortedEntries other directory) :=
    (List.mergeSort_perm _ _).trans ((h.filterMap _).trans (List.mergeSort_perm _ _).symm)
  refine List.Perm.eq_of_pairwise ?_ (pairwise_sortedEntries tree directory)
    (pairwise_sortedEntries other directory) hperm
  intro entry entry' _ _ hlt hgt
  exact absurd hgt (List.lt_asymm hlt)

private theorem search_of_perm (h : tree.nodes.Perm other.nodes) (hidden : Bool)
    (pieces : List Piece) (root : Text) (depth : Nat) (directory : Location) (names : Descent) :
    search tree hidden pieces root depth directory names =
      search other hidden pieces root depth directory names := by
  induction depth generalizing directory names with
  | zero => rfl
  | succ depth ih => simp only [search, sortedEntries_of_perm h, ih]

private theorem expand_of_perm (h : tree.nodes.Perm other.nodes) (scope : Scope) (pattern : Text) :
    expand scope tree pattern = expand scope other pattern := by
  simp only [expand, FileTree.directoryAt_congr (FileTree.get?_of_perm h), search_of_perm h]

theorem exists_compile_of_expand {scope : Scope} {pattern : Text} {paths : List Text}
    (hwildcard : '*' ∈ pattern) (h : expand scope tree pattern = .ok paths) :
    ∃ pieces, compile (body pattern) = some pieces := by
  cases hpieces : compile (body pattern) with
  | none =>
    simp [expand, hasWildcard, hwildcard, hpieces] at h
  | some pieces => exact ⟨pieces, rfl⟩

private theorem pairwise_text_descents (tree : FileTree) (depth : Nat) (directory : Location)
    (found : Descent → Bool) :
    (((descents tree depth directory).filter found).map Descent.text).Pairwise Path.Before := by
  rw [List.pairwise_map]
  refine ((pairwise_descents tree depth directory).filter found).imp_of_mem
    fun hleft hright hbefore => ?_
  have hne {names : Descent} (hnames : names ∈ (descents tree depth directory).filter found) :
      names ≠ [] :=
    (mem_descents.1 (List.mem_filter.1 hnames).1).1.ne_nil
  exact hbefore.text (hne hleft) (hne hright)

/-- A pattern with wildcards, deep ones included, expands to paths in one order. Without the part of
the pattern before its wildcards, which they all start with, they increase strictly, compared name
by name; so there are no two of the same. A tree with the same nodes, listed in any other order,
gives the same paths. -/
theorem expand_in_canonical_order (scope : Scope) (tree : FileTree) (pattern : Text)
    (paths : List Text) (hwildcard : '*' ∈ pattern) (h : expand scope tree pattern = .ok paths) :
    (∃ (base rest : Text) (found : List Text), Divides pattern base rest ∧
      paths = found.map (base ++ ·) ∧ found.Pairwise Path.Before) ∧
    paths.Nodup ∧
    ∀ other : FileTree, tree.nodes.Perm other.nodes → expand scope other pattern = .ok paths := by
  obtain ⟨pieces, hpieces⟩ := exists_compile_of_expand hwildcard h
  obtain ⟨found, hfound, hsorted⟩ : ∃ found : List Text, paths = found.map (base pattern ++ ·) ∧
      found.Pairwise Path.Before := by
    obtain ⟨-, rfl⟩ | ⟨directory, -, rfl⟩ := expand_eq_ok hwildcard hpieces h
    · exact ⟨[], rfl, .nil⟩
    · have hsorted := pairwise_text_descents tree (depth (body pattern)) directory fun names =>
        isMatch scope.hidden pieces names.text
      exact ⟨_, by rw [List.map_map]; rfl, hsorted⟩
  refine ⟨⟨_, _, found, divides_base pattern, hfound, hsorted⟩, ?_, fun other hother => ?_⟩
  · rw [hfound]
    exact (hsorted.imp Path.Before.ne).map _ fun left right hne heq =>
      hne (List.append_cancel_left heq)
  · rw [← expand_of_perm hother, h]

/-- A directory and a file whose names start alike. -/
def treeWithDots : FileTree :=
  .ofList [("/w", .directory), ("/w/a.x", .file []), ("/w/a", .directory), ("/w/a/x", .file []),
    ("/w/a/b", .directory), ("/w/a/b/x", .file []), ("/x", .file [])]

theorem expand_in_canonical_order_of_dots :
    expand ⟨"/w".toList, false⟩ treeWithDots "**/*x".toList = .ok ["a/x".toList, "a.x".toList] ∧
    (∃ (base rest : Text) (found : List Text), Divides "**/*x".toList base rest ∧
      ["a/x".toList, "a.x".toList] = found.map (base ++ ·) ∧ found.Pairwise Path.Before) ∧
    ["a/x".toList, "a.x".toList].Nodup ∧ ∀ other : FileTree, treeWithDots.nodes.Perm other.nodes →
      expand ⟨"/w".toList, false⟩ other "**/*x".toList = .ok ["a/x".toList, "a.x".toList] := by
  have hexpand : expand ⟨"/w".toList, false⟩ treeWithDots "**/*x".toList =
      .ok ["a/x".toList, "a.x".toList] := by cbv
  exact ⟨hexpand, expand_in_canonical_order ⟨"/w".toList, false⟩ treeWithDots _ _
    (by decide) hexpand⟩

end Glob

end LineShell
