import LineShell.Proofs.Traversal
import LineShell.Tree.Path
import Mathlib
/-!
# Paths that name directories

A name stands for a path in a working directory, and a path names a directory if its lookup ends
there, links included. Main statement: a slash at the end of a path makes no difference to the
directory that it names.
-/

namespace LineShell

namespace Path

/-- The path that a name stands for in a working directory. An absolute name stands for itself, and
another one for the directory and the name, with a slash between them unless there is one. -/
inductive StandsFor (directory : Text) : (name path : Text) → Prop
  | absolute {name : Text} : name.head? = some '/' → StandsFor directory name name
  | joined {name : Text} : name.head? ≠ some '/' → directory = [] ∨ directory.getLast? = some '/' →
      StandsFor directory name (directory ++ name)
  | divided {name : Text} : name.head? ≠ some '/' → directory ≠ [] →
      directory.getLast? ≠ some '/' → StandsFor directory name (directory ++ '/' :: name)

theorem standsFor_iff {directory name path : Text} :
    StandsFor directory name path ↔ path = join directory name := by
  constructor
  · intro h
    cases h with
    | absolute hname => simp [join, isAbsolute, hname]
    | joined hname hends => simp [join, isAbsolute, endsWithSlash, hname, hends]
    | divided hname hne hends => simp [join, isAbsolute, endsWithSlash, hname, hne, hends]
  · rintro rfl
    unfold join isAbsolute endsWithSlash
    split_ifs with hname hends
    · exact .absolute (by simpa using hname)
    · exact .joined (by simpa using hname) (by simpa using hends)
    · rw [not_or] at hends
      exact .divided (by simpa using hname) hends.1 (by simpa using hends.2)

end Path

def FileTree.ofList (nodes : List (String × Node)) : FileTree :=
  nodes.foldl (fun tree (path, node) => tree.insert (Location.ofPath path.toList) node) .empty

/-- A path names a directory. The path is looked up from the root, name by name. -/
structure FileTree.NamesDirectory (tree : FileTree) (path : Text) (directory : Location) :
    Prop where
  canonical : tree.canonical [] path = .ok directory
  isDirectoryAt : tree.isDirectoryAt directory = true

namespace FileTree

variable {tree : FileTree}

/-- A location that a lookup can stand at: it and all locations above it are directories. -/
def IsReached (tree : FileTree) (location : Location) : Prop :=
  ∀ above, above <:+ location → tree.get? above = some .directory

theorem isReached_root (tree : FileTree) : tree.IsReached [] := by
  intro above h
  rw [List.suffix_nil.1 h]
  rfl

theorem IsReached.tail {location : Location} (h : tree.IsReached location) :
    tree.IsReached location.tail :=
  fun above habove => h above (habove.trans (List.tail_suffix location))

theorem IsReached.cons {location : Location} (h : tree.IsReached location) {name : Name}
    (hname : tree.get? (name :: location) = some .directory) :
    tree.IsReached (name :: location) := by
  intro above habove
  rcases List.suffix_cons_iff.1 habove with rfl | habove
  · exact hname
  · exact h above habove

theorem IsReached.origin {location : Location} (h : tree.IsReached location) (path : Text) :
    tree.IsReached (FileTree.origin location path) := by
  unfold FileTree.origin
  split
  · exact tree.isReached_root
  · exact h

/-- A slash after the steps asks only that they end at a directory. -/
theorem walkWith_slash_iff {follow : Location → Text → List Step → Except IoError Target}
    {target : Location} (hfollow : ∀ location path rest, tree.IsReached location →
      (follow location path (rest ++ [.slash]) = .ok (.found target) ↔
        follow location path rest = .ok (.found target) ∧ tree.isDirectoryAt target = true))
    {location : Location} (hreached : tree.IsReached location) (steps : List Step) :
    tree.walkWith false follow location (steps ++ [.slash]) = .ok (.found target) ↔
      tree.walkWith false follow location steps = .ok (.found target) ∧
        tree.isDirectoryAt target = true := by
  induction steps generalizing location with
  | nil =>
    have hlocation : tree.isDirectoryAt location = true := by
      simp [isDirectoryAt, hreached location (List.suffix_refl location)]
    simp only [List.nil_append, walkWith]
    constructor
    · intro h
      cases h
      exact ⟨rfl, hlocation⟩
    · exact And.left
  | cons step rest ih =>
    cases step with
    | here => exact ih hreached
    | slash => exact ih hreached
    | up => exact ih hreached.tail
    | down name =>
      simp only [List.cons_append, walkWith, Bool.false_eq_true, false_and, if_false]
      split
      · simp
      · cases hnode : tree.get? (name :: location) with
        | none =>
          by_cases hrest : rest = [] <;> simp [hrest]
        | some node =>
          cases node with
          | directory => exact ih (hreached.cons hnode)
          | link path => exact hfollow location path rest hreached
          | file content =>
            by_cases hrest : rest = []
            · simp only [hrest, List.nil_append, List.cons_ne_nil, if_false, if_true]
              constructor
              · intro h
                cases h
              · intro ⟨hfound, hdirectory⟩
                cases hfound
                simp [isDirectoryAt, hnode] at hdirectory
            · simp [hrest]

private theorem walk_slash_iff {links : Nat} {location target : Location}
    (hreached : tree.IsReached location) (steps : List Step) :
    tree.walk false links location (steps ++ [.slash]) = .ok (.found target) ↔
      tree.walk false links location steps = .ok (.found target) ∧
        tree.isDirectoryAt target = true := by
  induction links generalizing location steps with
  | zero =>
    apply walkWith_slash_iff _ hreached
    intro location path rest _
    simp
  | succ links ih =>
    apply walkWith_slash_iff _ hreached
    intro location path rest hlocation
    rw [← List.append_assoc]
    exact ih (hlocation.origin path) _

private theorem canonical_eq_ok_iff {path : Text} {target : Location} :
    tree.canonical [] path = .ok target ↔
      Path.checkContent path = .ok () ∧
        tree.walk false maxLinks [] (Path.steps path) = .ok (.found target) := by
  have horigin : origin [] path = [] := by simp [origin]
  rw [canonical, horigin]
  cases Path.checkContent path with
  | error cause => simp
  | ok =>
    cases tree.walk false maxLinks [] (Path.steps path) with
    | error cause => simp
    | ok result => cases result <;> simp [Target.existing]

end FileTree

namespace Path

private theorem steps_append_slash (path : Text) :
    steps (path ++ ['/']) = (path.splitOn '/').filterMap step? ++ [.slash] := by
  have hsplit : (path ++ ['/']).splitOn '/' = path.splitOn '/' ++ [[]] := by
    rw [List.splitOn_append_cons_self, List.splitOn_nil]
  have hends : endsWithSlash (path ++ ['/']) = true := by simp [endsWithSlash]
  have hnone : step? [] = none := rfl
  rw [steps, hsplit, hends, List.filterMap_append]
  simp [hnone]

private theorem checkContent_append_slash {path : Text} (hne : path ≠ []) :
    checkContent (path ++ ['/']) = checkContent path := by
  simp [checkContent, hne]

end Path

namespace FileTree

variable {tree : FileTree} {path : Text} {directory : Location}

private theorem namesDirectory_iff :
    tree.NamesDirectory path directory ↔ Path.checkContent path = .ok () ∧
      tree.walk false maxLinks [] (Path.steps path) = .ok (.found directory) ∧
      tree.isDirectoryAt directory = true := by
  rw [← and_assoc, ← canonical_eq_ok_iff]
  exact ⟨fun h => ⟨h.canonical, h.isDirectoryAt⟩, fun h => ⟨h.1, h.2⟩⟩

/-- A slash at the end makes no difference to the directory that a path names. -/
theorem namesDirectory_slash_iff (hne : path ≠ []) :
    tree.NamesDirectory (path ++ ['/']) directory ↔ tree.NamesDirectory path directory := by
  have hsteps : Path.steps (path ++ ['/']) = Path.steps path ∨
      Path.steps (path ++ ['/']) = Path.steps path ++ [.slash] := by
    rw [Path.steps_append_slash, Path.steps]
    cases Path.endsWithSlash path <;> simp
  rw [namesDirectory_iff, namesDirectory_iff, Path.checkContent_append_slash hne]
  rcases hsteps with hsteps | hsteps
  · rw [hsteps]
  · rw [hsteps, walk_slash_iff tree.isReached_root, and_assoc, and_self]

/-- Only its length can keep a path from being looked up as a whole. -/
theorem resolve_eq_canonical_or (tree : FileTree) (path : Text) :
    tree.resolve [] path = tree.canonical [] path ∨ tree.resolve [] path = .error .nameTooLong := by
  unfold resolve locate canonical Path.check
  cases Path.checkContent path with
  | error cause => exact .inl rfl
  | ok =>
    by_cases hlong : 4096 ≤ path.utf8Length
    · exact .inr (by simp [hlong])
    · exact .inl (by simp [hlong])

theorem namesDirectory_of_directoryAt (h : tree.directoryAt path = .ok directory) :
    tree.NamesDirectory path directory := by
  rw [directoryAt, bind_eq_ok_iff] at h
  obtain ⟨location, hlocation, h⟩ := h
  rcases tree.resolve_eq_canonical_or path with hresolve | hresolve
  · split at h
    · rename_i hdirectory
      cases h
      exact ⟨hresolve ▸ hlocation, hdirectory⟩
    · cases h
  · rw [hresolve] at hlocation
    cases hlocation

/-- A directory that a path names is found, unless the path is too long to be looked up as a
whole. -/
theorem NamesDirectory.directoryAt_eq (h : tree.NamesDirectory path directory) :
    tree.directoryAt path = .ok directory ∨ tree.directoryAt path = .error .nameTooLong := by
  rw [directoryAt]
  rcases tree.resolve_eq_canonical_or path with hresolve | hresolve
  · exact .inl (by simp [hresolve, h.canonical, h.isDirectoryAt])
  · exact .inr (by simp [hresolve])

end FileTree

end LineShell
