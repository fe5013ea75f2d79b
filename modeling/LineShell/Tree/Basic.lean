import LineShell.Text.Utf8
/-!
# File trees

A file tree assigns a node to each location. A location is the list of names that lead to it, the
last name first, so that an entry of a directory is one name in front of the directory's location.
The root is always a directory.
-/

namespace LineShell

/-- Whether a text can name an entry: it is not empty, has no slash and is none of the names `.` and
`..`, which every directory has. -/
def isName (text : Text) : Bool :=
  text ≠ [] && '/' ∉ text && text ≠ ['.'] && text ≠ ['.', '.']

structure Name where
  text : Text
  valid : isName text = true
  deriving DecidableEq, Repr

def Name.ofText? (text : Text) : Option Name :=
  if h : isName text = true then some ⟨text, h⟩ else none

abbrev Location := List Name

inductive Node where
  | file (content : Bytes)
  | directory
  /-- A symbolic link with the text of its target. -/
  | link (target : Text)
  deriving DecidableEq, Repr

/-- A file tree lists its nodes below the root in some order, each location once. -/
structure FileTree where
  nodes : List (Location × Node)
  nodup : (nodes.map Prod.fst).Nodup

namespace FileTree

def empty : FileTree where
  nodes := []
  nodup := List.nodup_nil

def get? (tree : FileTree) : Location → Option Node
  | [] => some .directory
  | location => tree.nodes.lookup location

def put (location : Location) (node : Node) : List (Location × Node) → List (Location × Node)
  | [] => [(location, node)]
  | entry :: entries =>
    if entry.1 = location then (location, node) :: entries else entry :: put location node entries

private theorem mem_fst_put {location : Location} {node : Node} {entries : List (Location × Node)}
    {l : Location} (h : l ∈ (put location node entries).map Prod.fst) :
    l = location ∨ l ∈ entries.map Prod.fst := by
  induction entries with
  | nil => simp_all [put]
  | cons entry entries ih =>
    simp only [put] at h
    split at h
    · simp_all
    · simp only [List.map_cons, List.mem_cons] at h ⊢
      rcases h with h | h
      · exact .inr (.inl h)
      · rcases ih h with h | h
        · exact .inl h
        · exact .inr (.inr h)

private theorem nodup_put (location : Location) (node : Node) {entries : List (Location × Node)}
    (h : (entries.map Prod.fst).Nodup) : ((put location node entries).map Prod.fst).Nodup := by
  induction entries with
  | nil => simp [put]
  | cons entry entries ih =>
    rw [List.map_cons, List.nodup_cons] at h
    simp only [put]
    split
    · rename_i he
      rw [List.map_cons, List.nodup_cons]
      exact ⟨he ▸ h.1, h.2⟩
    · rename_i he
      rw [List.map_cons, List.nodup_cons]
      refine ⟨fun hm => ?_, ih h.2⟩
      rcases mem_fst_put hm with hm | hm
      · exact he hm
      · exact h.1 hm

def insert (tree : FileTree) (location : Location) (node : Node) : FileTree where
  nodes := put location node tree.nodes
  nodup := nodup_put location node tree.nodup

/-- The entries of a directory, in the order in which the tree lists them. -/
def entries (tree : FileTree) (directory : Location) : List (Name × Node) :=
  tree.nodes.filterMap fun (location, node) =>
    match location with
    | [] => none
    | name :: parent => if parent = directory then some (name, node) else none

def isDirectoryAt (tree : FileTree) (location : Location) : Bool :=
  tree.get? location = some .directory

/-- The content of the file at a location; nothing if there is none. -/
def contentAt (tree : FileTree) (location : Location) : Bytes :=
  match tree.get? location with
  | some (.file content) => content
  | _ => []

def append (tree : FileTree) (location : Location) (bytes : Bytes) : FileTree :=
  tree.insert location (.file (tree.contentAt location ++ bytes))

/-- Make directories of a location and of all locations above it where nothing stands. -/
def ensureDirectory (tree : FileTree) : Location → FileTree
  | [] => tree
  | name :: parent =>
    let tree := tree.ensureDirectory parent
    if (tree.get? (name :: parent)).isNone then tree.insert (name :: parent) .directory else tree

/-- The regular files of `after` that `before` does not hold with the same content. -/
def changedFiles (before after : FileTree) : List (Location × Bytes) :=
  after.nodes.filterMap fun (location, node) =>
    match node with
    | .file content =>
      if before.get? location = some (.file content) then none else some (location, content)
    | _ => none

end FileTree

namespace Location

def path : Location → Text
  | [] => ['/']
  | location => location.reverse.flatMap ('/' :: ·.text)

def ofPath (path : Text) : Location :=
  ((path.splitOn '/').filterMap Name.ofText?).reverse

end Location

end LineShell
