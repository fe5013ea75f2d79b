import LineShell.Glob.Pattern
import LineShell.Tree.Path
/-!
# Searching for matches

A pattern is divided at the last slash before its first wildcard. The text before it names a
directory; the rest is matched against the paths below that directory, as deep as it has names.
Directories are listed in the order of their names, and links are not entered.
-/

namespace LineShell

/-- A path below a directory, as the names that lead down to it. -/
abbrev Descent := List Name

def Descent.text (names : Descent) : Text :=
  List.intercalate ['/'] (names.map Name.text)

/-- Where patterns are expanded: the working directory, and whether wildcards match hidden names. -/
structure Scope where
  cwd : Text
  hidden : Bool

namespace Glob

def hasWildcard (text : Text) : Bool :=
  '*' ∈ text

/-- The part of a pattern up to the last slash before its first wildcard. -/
def base (pattern : Text) : Text :=
  ((pattern.takeWhile (· ≠ '*')).reverse.dropWhile (· ≠ '/')).reverse

/-- The part of a pattern that is matched below its base. -/
def body (pattern : Text) : Text :=
  pattern.drop (base pattern).length

def searchRoot (cwd pattern : Text) : Text :=
  match base pattern with
  | [] => cwd
  | ['/'] => ['/']
  | base => Path.join cwd base.dropLast

def depth (path : Text) : Nat :=
  (path.splitOn '/').length

def sortedEntries (tree : FileTree) (directory : Location) : List (Name × Node) :=
  (tree.entries directory).mergeSort fun left right => left.1.text.precedes right.1.text

/-- The path of an entry as seen from the path of the search root. -/
def pathBelow (root : Text) (names : Descent) : Text :=
  if names = [] then root else Path.join root names.text

/-- The matching paths at most `depth` names below a directory, which `names` lead to from the
search root. -/
def search (tree : FileTree) (hidden : Bool) (pieces : List Piece) (root : Text) :
    (depth : Nat) → Location → Descent → Except ShellError (List Descent)
  | 0, _, _ => .ok []
  | depth + 1, directory, names => do
    let path := pathBelow root names
    if 4096 ≤ path.utf8Length then throw (.search path .nameTooLong)
    let found ← (sortedEntries tree directory).mapM fun (name, node) => do
      let here := names ++ [name]
      let own := if isMatch hidden pieces here.text then [here] else []
      match node with
      | .directory =>
        return own ++ (← search tree hidden pieces root depth (name :: directory) here)
      | _ => return own
    return found.flatten

/-- The paths that match a pattern, in the order of the search. A text without wildcards matches
itself alone. -/
def expand (scope : Scope) (tree : FileTree) (pattern : Text) : Except ShellError (List Text) :=
  if hasWildcard pattern then
    match compile (body pattern) with
    | none => .error .malformed
    | some pieces =>
      let root := searchRoot scope.cwd pattern
      match tree.directoryAt root with
      | .ok directory => do
        let found ← search tree scope.hidden pieces root (depth (body pattern)) directory []
        return found.map (base pattern ++ ·.text)
      | .error .notFound => .ok []
      | .error .notDirectory => .ok []
      | .error cause => .error (.search root cause)
  else .ok [pattern]

/-- A pattern as an argument: without matches it stands for itself. -/
def expandArgument (scope : Scope) (tree : FileTree) (pattern : Text) :
    Except ShellError (List Text) := do
  match ← expand scope tree pattern with
  | [] => return [pattern]
  | paths => return paths

/-- A pattern as a redirection: it must have exactly one match. -/
def expandRedirection (scope : Scope) (tree : FileTree) (pattern : Text) :
    Except ShellError Text := do
  match ← expand scope tree pattern with
  | [] => throw .noMatch
  | [path] => return path
  | _ => throw .ambiguousPattern

end Glob

end LineShell
