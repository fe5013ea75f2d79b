import LineShell.Error
import LineShell.Tree.Basic
/-!
# Paths

A path is looked up one step at a time, from the root or from a directory. Symbolic links are
followed, at most forty in one lookup. The last name may be vacant, so that a file can be created
there.
-/

namespace LineShell

inductive Step where
  /-- Stay in the directory. -/
  | here
  /-- Go to the directory above. -/
  | up
  /-- Stay in the directory, for the slash at the end of a path. -/
  | slash
  /-- Go to the entry with a name. -/
  | down (name : Name)
  deriving DecidableEq, Repr

namespace Path

def isAbsolute (path : Text) : Bool :=
  path.head? = some '/'

def endsWithSlash (path : Text) : Bool :=
  path.getLast? = some '/'

/-- A path as seen from a directory: an absolute path as it is, another one after the directory and
a slash. -/
def join (directory path : Text) : Text :=
  if isAbsolute path then path
  else if directory = [] ∨ endsWithSlash directory then directory ++ path
  else directory ++ '/' :: path

/-- The step that a text between slashes asks for; an empty text asks for none. -/
def step? (text : Text) : Option Step :=
  if text = ['.'] then some .here
  else if text = ['.', '.'] then some .up
  else (Name.ofText? text).map .down

def steps (path : Text) : List Step :=
  (path.splitOn '/').filterMap step? ++ (if endsWithSlash path then [.slash] else [])

/-- A path has no NUL and is not empty. -/
def checkContent (path : Text) : Except IoError Unit :=
  if '\x00' ∈ path then .error .nulByte
  else if path = [] then .error .notFound
  else .ok ()

/-- A path that is looked up as a whole also has fewer than 4096 bytes. -/
def check (path : Text) : Except IoError Unit := do
  checkContent path
  if 4096 ≤ path.utf8Length then .error .nameTooLong else .ok ()

end Path

inductive Target where
  /-- Something stands at the location. -/
  | found (location : Location)
  /-- Nothing stands at the location, but its directory exists. -/
  | vacant (location : Location)
  deriving DecidableEq, Repr

def Target.existing : Target → Except IoError Location
  | .found location => .ok location
  | .vacant _ => .error .notFound

namespace FileTree

/-- Look up steps from a directory on; `follow` goes on at a link. A lookup for output refuses a
last name with a slash after it before it looks at the name. -/
def walkWith (tree : FileTree) (output : Bool)
    (follow : Location → Text → List Step → Except IoError Target) :
    Location → List Step → Except IoError Target
  | location, [] => .ok (.found location)
  | location, .here :: rest => walkWith tree output follow location rest
  | location, .slash :: rest => walkWith tree output follow location rest
  | location, .up :: rest => walkWith tree output follow location.tail rest
  | location, .down name :: rest =>
    if output ∧ rest = [.slash] then .error .isDirectory
    else if 255 < name.text.utf8Length then .error .nameTooLong
    else
      match tree.get? (name :: location) with
      | none => if rest = [] then .ok (.vacant (name :: location)) else .error .notFound
      | some .directory => walkWith tree output follow (name :: location) rest
      | some (.file _) =>
        if rest = [] then .ok (.found (name :: location)) else .error .notDirectory
      | some (.link target) => follow location target rest

def origin (directory : Location) (path : Text) : Location :=
  if Path.isAbsolute path then [] else directory

/-- Look up steps from a directory on, following at most `links` links. -/
def walk (tree : FileTree) (output : Bool) :
    (links : Nat) → Location → List Step → Except IoError Target
  | 0 => walkWith tree output fun _ _ _ => .error .linkLoop
  | links + 1 =>
    walkWith tree output fun location target rest =>
      walk tree output links (origin location target) (Path.steps target ++ rest)

def maxLinks : Nat := 40

def locate (tree : FileTree) (output : Bool) (directory : Location) (path : Text) :
    Except IoError Target := do
  Path.check path
  tree.walk output maxLinks (origin directory path) (Path.steps path)

def resolve (tree : FileTree) (directory : Location) (path : Text) : Except IoError Location := do
  (← tree.locate false directory path).existing

/-- The location of what a path names. The path is looked up name by name, so that only its names
are bounded in length. -/
def canonical (tree : FileTree) (directory : Location) (path : Text) : Except IoError Location := do
  Path.checkContent path
  (← tree.walk false maxLinks (origin directory path) (Path.steps path)).existing

def exists? (tree : FileTree) (directory : Location) (path : Text) : Bool :=
  (tree.resolve directory path).isOk

def isDirectory (tree : FileTree) (path : Text) : Bool :=
  match tree.resolve [] path with
  | .ok location => tree.isDirectoryAt location
  | .error _ => false

def readFile (tree : FileTree) (directory : Location) (path : Text) : Except IoError Bytes := do
  let location ← tree.resolve directory path
  if tree.isDirectoryAt location then .error .isDirectory else .ok (tree.contentAt location)

/-- Open an absolute path for output: the file there is created or emptied. -/
def create (tree : FileTree) (path : Text) : Except IoError (Location × FileTree) := do
  match ← tree.locate true [] path with
  | .vacant location => .ok (location, tree.insert location (.file []))
  | .found location =>
    if tree.isDirectoryAt location then .error .isDirectory
    else .ok (location, tree.insert location (.file []))

/-- Put bytes into the file that an absolute path names, in place of its content. -/
def writeFile (tree : FileTree) (path : Text) (bytes : Bytes) : Except IoError FileTree := do
  let (location, tree) ← tree.create path
  return tree.insert location (.file bytes)

def directoryAt (tree : FileTree) (path : Text) : Except IoError Location := do
  let location ← tree.resolve [] path
  if tree.isDirectoryAt location then .ok location else .error .notDirectory

end FileTree

end LineShell
