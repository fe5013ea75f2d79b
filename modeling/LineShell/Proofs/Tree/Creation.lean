import LineShell.Proofs.Tree.Directories
import Mathlib
/-!
# Creating files

A lookup for output refuses more than a lookup for reading, and it may end at a vacant place. Main
statement: once a file stands where the first one ends, the second one ends there too, through the
same links, as long as nothing else of the tree has changed.
-/

namespace LineShell

def Target.location : Target → Location
  | .found location => location
  | .vacant location => location

namespace FileTree

variable {tree : FileTree} {path : Text} {location : Location} {content : Bytes}

structure NamesFile (tree : FileTree) (path : Text) (location : Location) (content : Bytes) :
    Prop where
  resolve_eq : tree.resolve [] path = .ok location
  get?_eq : tree.get? location = some (.file content)

theorem NamesFile.isDirectoryAt_eq (h : tree.NamesFile path location content) :
    tree.isDirectoryAt location = false := by
  simp [isDirectoryAt, h.get?_eq]

theorem NamesFile.contentAt_eq (h : tree.NamesFile path location content) :
    tree.contentAt location = content := by
  simp [contentAt, h.get?_eq]

theorem NamesFile.isDirectory_eq (h : tree.NamesFile path location content) :
    tree.isDirectory path = false := by
  simp only [isDirectory, h.resolve_eq, h.isDirectoryAt_eq]

theorem NamesFile.readFile_eq (h : tree.NamesFile path location content) :
    tree.readFile [] path = .ok content := by
  rw [readFile, h.resolve_eq]
  show (if tree.isDirectoryAt location = true then _ else _) = _
  rw [h.isDirectoryAt_eq, h.contentAt_eq]
  rfl

private theorem lookup_put (location other : Location) (node : Node)
    (entries : List (Location × Node)) :
    (put location node entries).lookup other = if other =
    location then some node else entries.lookup other := by
  have hself : (location == location) = true := beq_self_eq_true location
  induction entries with
  | nil =>
    rw [put, List.lookup_cons]
    by_cases hother : other = location
    · simp only [hother, hself, if_true]
    · simp only [hother, beq_eq_false_iff_ne.2 hother, if_false]
  | cons entry entries ih =>
    rw [put]
    by_cases hentry : entry.1 = location
    · rw [if_pos hentry, List.lookup_cons, List.lookup_cons, hentry]
      by_cases hother : other = location
      · simp only [hother, hself, if_true]
      · simp only [hother, beq_eq_false_iff_ne.2 hother, if_false]
    · rw [if_neg hentry, List.lookup_cons, List.lookup_cons, ih]
      by_cases hother : other = location
      · simp only [hother, beq_eq_false_iff_ne.2 (Ne.symm hentry), if_true]
      · simp only [hother, if_false]

private theorem get?_insert (tree : FileTree) (hne : location ≠ []) (node : Node)
    (other : Location) :
    (tree.insert location node).get? other = if other =
    location then some node else tree.get? other := by
  cases other with
  | nil => rw [if_neg (Ne.symm hne), get?, get?]
  | cons name parent => exact lookup_put location (name :: parent) node tree.nodes

def Stands (tree : FileTree) : Target → Prop
  | .found location =>
    tree.get? location = some .directory ∨ ∃ content, tree.get? location = some (.file content)
  | .vacant location => tree.get? location = none

private theorem walkWith_stands {output : Bool}
    {follow : Location → Text → List Step → Except IoError Target}
    (hfollow : ∀ location path rest target, tree.IsReached location →
      follow location path rest = .ok target → tree.Stands target)
    {start : Location} (hreached : tree.IsReached start) {steps : List Step} {target : Target}
    (h : tree.walkWith output follow start steps = .ok target) : tree.Stands target := by
  induction steps generalizing start with
  | nil =>
    cases h
    exact .inl (hreached start (List.suffix_refl start))
  | cons step rest ih =>
    cases step with
    | here => exact ih hreached h
    | slash => exact ih hreached h
    | up => exact ih hreached.tail h
    | down name =>
      rw [walkWith] at h
      split at h
      · cases h
      split at h
      · cases h
      cases hnode : tree.get? (name :: start) with
      | none =>
        rw [hnode] at h
        dsimp only at h
        split at h
        · cases h
          exact hnode
        · cases h
      | some node =>
        rw [hnode] at h
        cases node with
        | directory => exact ih (hreached.cons hnode) h
        | link path => exact hfollow start path rest target hreached h
        | file content =>
          dsimp only at h
          split at h
          · cases h
            exact .inr ⟨content, hnode⟩
          · cases h

private theorem walk_stands {output : Bool} {links : Nat} {start : Location}
    (hreached : tree.IsReached start) {steps : List Step} {target : Target}
    (h : tree.walk output links start steps = .ok target) : tree.Stands target := by
  induction links generalizing start steps target with
  | zero =>
    apply walkWith_stands _ hreached h
    intro _ _ _ _ _ hloop
    cases hloop
  | succ links ih =>
    apply walkWith_stands _ hreached h
    intro location path rest target hlocation hwalk
    exact ih (hlocation.origin path) hwalk

/-- Two trees agree up to a place where a file may be put: nothing or a file stands there in the
first tree, a file in the second one, and everything else is the same. -/
structure AgreeBeside (tree other : FileTree) (location : Location) (content : Bytes) : Prop where
  free : tree.get? location = none ∨ ∃ old, tree.get? location = some (.file old)
  get?_eq : other.get? location = some (.file content)
  get?_of_ne : ∀ place, place ≠ location → other.get? place = tree.get? place

section Agree

variable {other : FileTree}

private theorem AgreeBeside.get?_eq_some (h : tree.AgreeBeside other location content)
    {place : Location} {node : Node} (hplace : tree.get? place = some node)
    (hnode : ∀ old, node ≠ .file old) : other.get? place = some node := by
  rw [h.get?_of_ne, hplace]
  rintro rfl
  rcases h.free with hfree | ⟨old, hold⟩
  · rw [hplace] at hfree
    cases hfree
  · rw [hplace] at hold
    exact hnode old (Option.some.inj hold)

-- A place that holds a file, or nothing, ends the lookup, so the lookup meets the new file at its
-- end and not before.
private theorem AgreeBeside.walkWith_eq (h : tree.AgreeBeside other location content)
    {output : Bool} {follow follow' : Location → Text → List Step → Except IoError Target}
    (hfollow : ∀ start path rest target, follow start path rest = .ok target →
      target.location = location → follow' start path rest = .ok (.found location)) {start :
    Location} {steps : List Step} {target : Target}
    (hwalk : tree.walkWith output follow start steps = .ok target)
    (htarget : target.location = location) :
    other.walkWith false follow' start steps = .ok (.found location) := by
  induction steps generalizing start with
  | nil =>
    cases hwalk
    rw [walkWith, ← htarget]
    rfl
  | cons step rest ih =>
    cases step with
    | here => exact ih hwalk
    | slash => exact ih hwalk
    | up => exact ih hwalk
    | down name =>
      rw [walkWith] at hwalk ⊢
      rw [if_neg (by simp)]
      split at hwalk
      · cases hwalk
      split at hwalk
      · cases hwalk
      rename_i hshort
      rw [if_neg hshort]
      cases hnode : tree.get? (name :: start) with
      | none =>
        rw [hnode] at hwalk
        dsimp only at hwalk
        split at hwalk
        · rename_i hlast
          cases hwalk
          obtain rfl : name :: start = location := htarget
          rw [h.get?_eq]
          exact if_pos hlast
        · cases hwalk
      | some node =>
        rw [hnode] at hwalk
        cases node with
        | directory =>
          rw [h.get?_eq_some hnode (by simp)]
          exact ih hwalk
        | link path =>
          rw [h.get?_eq_some hnode (by simp)]
          exact hfollow start path rest target hwalk htarget
        | file old =>
          dsimp only at hwalk
          split at hwalk
          · rename_i hlast
            cases hwalk
            obtain rfl : name :: start = location := htarget
            rw [h.get?_eq]
            exact if_pos hlast
          · cases hwalk

private theorem AgreeBeside.walk_eq (h : tree.AgreeBeside other location content) {output : Bool}
    {links : Nat} {start : Location} {steps : List Step} {target : Target}
    (hwalk : tree.walk output links start steps = .ok target)
    (htarget : target.location = location) :
    other.walk false links start steps = .ok (.found location) := by
  induction links generalizing start steps target with
  | zero =>
    apply h.walkWith_eq _ hwalk htarget
    intro _ _ _ _ hloop
    cases hloop
  | succ links ih =>
    apply h.walkWith_eq _ hwalk htarget
    intro start path rest target hfollow htarget
    exact ih hfollow htarget

end Agree

private theorem locate_eq_ok_iff {output : Bool} {target : Target} :
    tree.locate output [] path = .ok target ↔
      Path.check path = .ok () ∧ tree.walk output maxLinks [] (Path.steps path) = .ok target := by
  have horigin : origin [] path = [] := by simp [origin]
  rw [locate, horigin, bind_eq_ok_iff]
  constructor
  · rintro ⟨_, hfound⟩
    exact hfound
  · intro hfound
    exact ⟨(), hfound⟩

private theorem create_eq_ok {made : FileTree} (h : tree.create path = .ok (location, made)) :
    made = tree.insert location (.file []) ∧
      (tree.get? location = none ∨ ∃ old, tree.get? location = some (.file old)) ∧ location ≠ [] ∧
      ∃ target, target.location = location ∧ tree.locate true [] path = .ok target := by
  rw [create, bind_eq_ok_iff] at h
  obtain ⟨target, hlocate, h⟩ := h
  have hstands : tree.Stands target :=
    walk_stands tree.isReached_root (locate_eq_ok_iff.1 hlocate).2
  have hroot {place : Location}
      (hplace : tree.get? place = none ∨ ∃ old, tree.get? place = some (.file old)) :
      place ≠ [] := by
    rintro rfl
    rcases hplace with hnone | ⟨old, hold⟩
    · cases hnone
    · cases hold
  cases target with
  | vacant place =>
    cases h
    exact ⟨rfl, .inl hstands, hroot (.inl hstands), .vacant location, rfl, hlocate⟩
  | found place =>
    dsimp only at h
    split at h
    · cases h
    · rename_i hdirectory
      cases h
      have hfile : ∃ old, tree.get? location = some (.file old) := by
        rcases hstands with hstands | hfile
        · simp [isDirectoryAt, hstands] at hdirectory
        · exact hfile
      exact ⟨rfl, .inr hfile, hroot (.inr hfile), .found location, rfl, hlocate⟩

/-- What has been created through a path is found through it, once its content has been written and
as long as nothing else has changed. -/
theorem namesFile_of_create {made other : FileTree} (h : tree.create path = .ok (location, made))
    (hcontent : other.get? location = some (.file content))
    (hothers : ∀ place, place ≠ location → other.get? place = tree.get? place) :
    other.NamesFile path location content := by
  obtain ⟨-, hfree, -, target, htarget, hlocate⟩ := create_eq_ok h
  have hagree : tree.AgreeBeside other location content := ⟨hfree, hcontent, hothers⟩
  obtain ⟨hcheck, hwalk⟩ := locate_eq_ok_iff.1 hlocate
  refine ⟨?_, hcontent⟩
  rw [resolve, locate_eq_ok_iff.2 ⟨hcheck, hagree.walk_eq hwalk htarget⟩]
  rfl

/-- A file that has been created holds what is then written to it and nothing else, and no other
node changes. -/
theorem append_of_create {made : FileTree} (h : tree.create path = .ok (location, made))
    (bytes : Bytes) :
    (made.append location bytes).NamesFile path location bytes ∧
      ∀ other, other ≠ location → (made.append location bytes).get? other = tree.get? other := by
  obtain ⟨rfl, -, hne, -⟩ := create_eq_ok h
  have hempty : (tree.insert location (.file [])).contentAt location = [] := by
    rw [contentAt, get?_insert tree hne, if_pos rfl]
  have hothers : ∀ other, other ≠ location →
      ((tree.insert location (.file [])).append location bytes).get? other = tree.get? other := by
    intro other hother
    rw [append, get?_insert _ hne, if_neg hother, get?_insert tree hne, if_neg hother]
  refine ⟨namesFile_of_create h ?_ hothers, hothers⟩
  rw [append, get?_insert _ hne, if_pos rfl, hempty, List.nil_append]

end FileTree

end LineShell
