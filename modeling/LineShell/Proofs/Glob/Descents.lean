import LineShell.Glob.Search
import LineShell.Proofs.Text.Utf8
import LineShell.Proofs.Traversal
import Mathlib
/-!
# The paths that a search visits

The search visits the paths below a directory up to a depth, in increasing order, and finds those of
them that match. Which paths there are is said by the nodes of the tree alone: all names but the
last lead to directories, and something stands at the last.
-/

namespace LineShell

theorem Name.text_injective {name other : Name} (h : name.text = other.text) : name = other := by
  cases name
  cases other
  cases h
  rfl

/-- Paths are ordered name by name, a path before all that lies below it. -/
def Descent.Before (left right : Descent) : Prop :=
  List.Lex (fun name other => name.text.utf8 < other.text.utf8) left right

theorem Descent.Before.ne {left right : Descent} (h : left.Before right) : left ≠ right := by
  intro heq
  rw [heq] at h
  exact List.lex_irrefl (fun name => List.lt_irrefl name.text.utf8) right h

namespace FileTree

variable {tree : FileTree} {directory : Location}

/-- The names lead from a directory down to something in the tree, through directories. -/
inductive Leads (tree : FileTree) : (directory : Location) → Descent → Prop
  | entry {directory : Location} {name : Name} :
      (tree.get? (name :: directory)).isSome → Leads tree directory [name]
  | inside {directory : Location} {name : Name} {names : Descent} :
      tree.get? (name :: directory) = some .directory → Leads tree (name :: directory) names →
      Leads tree directory (name :: names)

theorem Leads.ne_nil {names : Descent} (h : tree.Leads directory names) : names ≠ [] := by
  cases h with
  | entry => exact List.cons_ne_nil _ _
  | inside => exact List.cons_ne_nil _ _

/-- Each location is listed once, so that what is listed there is what stands there. -/
theorem mem_nodes_iff {location : Location} (hne : location ≠ []) {node : Node} :
    (location, node) ∈ tree.nodes ↔ tree.get? location = some node := by
  have hget : tree.get? location = tree.nodes.lookup location := by
    cases location with
    | nil => exact absurd rfl hne
    | cons name parent => rfl
  rw [hget, List.lookup_eq_some_iff]
  constructor
  · intro hmem
    obtain ⟨before, after, hnodes⟩ := List.append_of_mem hmem
    refine ⟨before, after, hnodes, fun other hother => ?_⟩
    have hnodup := tree.nodup
    rw [hnodes, List.map_append, List.map_cons, List.nodup_append] at hnodup
    have hdistinct := hnodup.2.2 other.1 (List.mem_map_of_mem hother) location List.mem_cons_self
    simpa using hdistinct.symm
  · intro ⟨before, after, hnodes, _⟩
    simp [hnodes]

private theorem eq_of_entry {item : Location × Node} {entry : Name × Node}
    (h : (match item.1 with
      | [] => none
      | name :: parent => if parent = directory then some (name, item.2) else none) = some entry) :
    item = (entry.1 :: directory, entry.2) := by
  split at h
  · cases h
  · rename_i name parent hlocation
    split at h
    · rename_i hparent
      cases h
      rw [← hparent, ← hlocation]
    · cases h

private theorem mem_entries_iff {name : Name} {node : Node} :
    (name, node) ∈ tree.entries directory ↔ tree.get? (name :: directory) = some node := by
  rw [← mem_nodes_iff (List.cons_ne_nil name directory), entries, List.mem_filterMap]
  constructor
  · intro ⟨item, hitem, hentry⟩
    rwa [eq_of_entry hentry] at hitem
  · intro hmem
    exact ⟨_, hmem, if_pos rfl⟩

private theorem nodup_entries (tree : FileTree) (directory : Location) :
    ((tree.entries directory).map Prod.fst).Nodup := by
  have hnodes := tree.nodup
  rw [List.Nodup, List.pairwise_map] at hnodes ⊢
  rw [entries, List.pairwise_filterMap]
  refine hnodes.imp fun hne entry hentry other hother heq => hne ?_
  rw [eq_of_entry hentry, eq_of_entry hother, heq]

end FileTree

namespace Glob

variable {tree : FileTree}

/-- What is visited for an entry of a directory: the entry and, if it is a directory itself, the
paths below it. -/
def visit (below : Location → List Descent) (directory : Location) (entry : Name × Node) :
    List Descent :=
  [entry.1] :: if entry.2 =
    .directory then (below (entry.1 :: directory)).map (entry.1 :: ·) else []

/-- The paths at most `depth` names below a directory, in the order of the search. -/
def descents (tree : FileTree) : (depth : Nat) → Location → List Descent
  | 0, _ => []
  | depth + 1, directory =>
    (sortedEntries tree directory).flatMap (visit (descents tree depth) directory)

private theorem mem_visit {below : Location → List Descent} {directory : Location}
    {entry : Name × Node} {names : Descent} :
    names ∈ visit below directory entry ↔
      names = [entry.1] ∨ entry.2 = .directory ∧ ∃ rest ∈ below (entry.1 :: directory),
        names = entry.1 :: rest := by
  rw [visit, List.mem_cons]
  split
  · rename_i hdirectory
    simp [hdirectory, eq_comm]
  · rename_i hother
    simp [hother]

private theorem mem_sortedEntries {directory : Location} {name : Name} {node : Node} :
    (name, node) ∈ sortedEntries tree directory ↔ tree.get? (name :: directory) = some node :=
  (List.mergeSort_perm _ _).mem_iff.trans FileTree.mem_entries_iff

section Search

variable {hidden : Bool} {pieces : List Piece} {root : Text} {depth : Nat} {directory : Location}
  {names : Descent}

/-- The search finds these paths at an entry: the entry itself if it matches and, if it is a
directory, what is found below it. -/
def FindsAt (tree : FileTree) (hidden : Bool) (pieces : List Piece) (root : Text) (depth : Nat)
    (directory : Location) (names : Descent) (entry : Name × Node) (found : List Descent) : Prop :=
  ∃ below, found = (if isMatch hidden pieces (Descent.text (names ++ [entry.1])) then
      [names ++ [entry.1]] else []) ++ below ∧
    if entry.2 = .directory then
      search tree hidden pieces root depth (entry.1 :: directory) (names ++ [entry.1]) = .ok below
    else below = []

theorem search_succ_eq_ok {found : List Descent}
    (h : search tree hidden pieces root (depth + 1) directory names = .ok found) :
    (pathBelow root names).utf8Length < 4096 ∧ ∃ lists, found = lists.flatten ∧
      List.Forall₂ (FindsAt tree hidden pieces root depth directory names)
        (sortedEntries tree directory) lists := by
  rw [search] at h
  split at h
  · cases h
  rename_i hshort
  obtain ⟨lists, hlists, hfound⟩ := bind_eq_ok_iff.1 h
  cases hfound
  refine ⟨Nat.lt_of_not_le hshort, lists, rfl, (mapM_eq_ok_iff.1 hlists).imp ?_⟩
  intro ⟨name, node⟩ list hlist
  cases node with
  | directory =>
    obtain ⟨below, hbelow, hlist⟩ := bind_eq_ok_iff.1 hlist
    cases hlist
    exact ⟨below, rfl, hbelow⟩
  | file content =>
    cases hlist
    exact ⟨[], (List.append_nil _).symm, rfl⟩
  | link target =>
    cases hlist
    exact ⟨[], (List.append_nil _).symm, rfl⟩

theorem search_succ_eq_error {e : ShellError}
    (h : search tree hidden pieces root (depth + 1) directory names = .error e) :
    e = .search (pathBelow root names) .nameTooLong ∧ 4096 ≤ (pathBelow root names).utf8Length ∨
      ∃ name, (name, .directory) ∈ sortedEntries tree directory ∧
        search tree hidden pieces root depth (name :: directory) (names ++ [name]) = .error e := by
  rw [search] at h
  split at h
  · rename_i hlong
    cases h
    exact .inl ⟨rfl, hlong⟩
  rcases bind_eq_error_iff.1 h with hlists | ⟨_, -, hlists⟩
  · obtain ⟨⟨name, node⟩, hentry, hfails⟩ := exists_of_mapM_eq_error hlists
    cases node with
    | directory =>
      rcases bind_eq_error_iff.1 hfails with hbelow | ⟨_, -, hbelow⟩
      · exact .inr ⟨name, hentry, hbelow⟩
      · cases hbelow
    | file content => cases hfails
    | link target => cases hfails
  · cases hlists

/-- The search finds the visited paths that match. -/
theorem search_eq_filter {found : List Descent}
    (h : search tree hidden pieces root depth directory names = .ok found) :
    found = ((descents tree depth directory).map (names ++ ·)).filter fun descent =>
      isMatch hidden pieces descent.text := by
  induction depth generalizing directory names found with
  | zero =>
    cases h
    rfl
  | succ depth ih =>
    obtain ⟨-, lists, rfl, hlists⟩ := search_succ_eq_ok h
    rw [descents, List.map_flatMap, List.filter_flatMap, List.flatMap_def]
    congr 1
    symm
    rw [← List.forall₂_eq_eq_eq, List.forall₂_map_left_iff]
    refine hlists.imp ?_
    rintro ⟨name, node⟩ list ⟨below, rfl, hbelow⟩
    by_cases hnode : node = .directory
    · rw [if_pos hnode] at hbelow
      rw [ih hbelow]
      cases hmatch : isMatch hidden pieces (Descent.text (names ++ [name])) <;>
        simp [visit, hnode, hmatch, Function.comp_def]
    · rw [if_neg hnode] at hbelow
      simp [visit, hnode, hbelow, List.filter_cons]

end Search

theorem mem_descents {depth : Nat} {directory : Location} {names : Descent} :
    names ∈ descents tree depth directory ↔ tree.Leads directory names ∧ names.length ≤ depth := by
  induction depth generalizing directory names with
  | zero =>
    simp only [descents, List.not_mem_nil, false_iff, not_and]
    intro h
    have hlength := List.length_pos_of_ne_nil h.ne_nil
    omega
  | succ depth ih =>
    simp only [descents, List.mem_flatMap, mem_visit]
    constructor
    · intro ⟨(name, node), hentry, hmem⟩
      have hnode := mem_sortedEntries.1 hentry
      rcases hmem with rfl | ⟨rfl, rest, hrest, rfl⟩
      · exact ⟨.entry (by simp [hnode]), by simp⟩
      · obtain ⟨hleads, hlength⟩ := ih.1 hrest
        exact ⟨.inside hnode hleads, by simpa using hlength⟩
    · intro ⟨hleads, hlength⟩
      cases hleads with
      | @entry _ name hsome =>
        obtain ⟨node, hnode⟩ := Option.isSome_iff_exists.1 hsome
        exact ⟨(name, node), mem_sortedEntries.2 hnode, .inl rfl⟩
      | @inside _ name rest hnode hrest =>
        have hmem := ih.2 ⟨hrest, by simpa using hlength⟩
        exact ⟨(name, .directory), mem_sortedEntries.2 hnode, .inr ⟨rfl, rest, hmem, rfl⟩⟩

theorem pairwise_sortedEntries (tree : FileTree) (directory : Location) :
    (sortedEntries tree directory).Pairwise fun entry other =>
    entry.1.text.utf8 < other.1.text.utf8 := by
  have hnames : (sortedEntries tree directory).Pairwise fun entry other => entry.1 ≠ other.1 := by
    have hnodup := tree.nodup_entries directory
    rw [← ((List.mergeSort_perm _ _).map Prod.fst).nodup_iff] at hnodup
    exact List.pairwise_map.1 hnodup
  have hsorted : (sortedEntries tree directory).Pairwise fun entry other =>
      entry.1.text.precedes other.1.text := by
    apply List.pairwise_mergeSort
    · intro first second third
      exact Text.precedes_trans
    · intro entry other
      exact Text.precedes_total _ _
  exact (hsorted.and hnames).imp fun h => Text.utf8_lt_of_precedes h.1 fun heq =>
    h.2 (Name.text_injective heq)

/-- Paths are visited in increasing order: a directory comes before what lies below it, and all of
that before the next entry. -/
theorem pairwise_descents (tree : FileTree) (depth : Nat) (directory : Location) :
    (descents tree depth directory).Pairwise Descent.Before := by
  induction depth generalizing directory with
  | zero => exact .nil
  | succ depth ih =>
    have hhead {entry : Name × Node}
        {names : Descent} (h : names ∈ visit (descents tree depth) directory entry) : ∃ rest,
          names = entry.1 :: rest := by
      rcases mem_visit.1 h with rfl | ⟨-, rest, -, rfl⟩
      · exact ⟨[], rfl⟩
      · exact ⟨rest, rfl⟩
    rw [descents, List.pairwise_flatMap]
    constructor
    · intro entry _
      rw [visit]
      split
      · refine List.pairwise_cons.2 ⟨fun names hnames => ?_, List.pairwise_map.2 ((ih _).imp .cons)⟩
        obtain ⟨rest, hrest, rfl⟩ := List.mem_map.1 hnames
        obtain ⟨next, others, rfl⟩ := List.exists_cons_of_ne_nil (mem_descents.1 hrest).1.ne_nil
        exact .cons .nil
      · exact List.pairwise_singleton _ _
    · refine (pairwise_sortedEntries tree directory).imp fun hlt names hnames others hothers => ?_
      obtain ⟨rest, rfl⟩ := hhead hnames
      obtain ⟨rest', rfl⟩ := hhead hothers
      exact .rel hlt

theorem nodup_descents (tree : FileTree) (depth : Nat) (directory : Location) :
    (descents tree depth directory).Nodup :=
  (pairwise_descents tree depth directory).imp Descent.Before.ne

end Glob

end LineShell
