import LineShell.Glob.Search
/-!
# Redirections

After its words a command may name a file to read and then a file to write. A name with a wildcard
stands for its single match, and the two names must differ.
-/

namespace LineShell

structure Redirections where
  input : Option Text
  output : Option Text
  deriving DecidableEq, Repr

namespace Redirections

def isNameChar (c : Char) : Bool :=
  !(Text.isBlank c || c ∈ ['"', '\'', '`', '<', '>', ';', '|'])

def resolveName (scope : Scope) (tree : FileTree) (name : Text) : Except ShellError Text :=
  if Glob.hasWildcard name then Glob.expandRedirection scope tree name else .ok name

/-- Read a redirection, if the text starts with its sign, and return the text after it. -/
def read (scope : Scope) (tree : FileTree) (sign : Char) (text : Text) :
    Except ShellError (Option Text × Text) :=
  match text.trimStart with
  | [] => .ok (none, text)
  | c :: after =>
    if c = sign then
      let after := Text.trimStart after
      let name := after.takeWhile isNameChar
      if name = [] then .error .malformed
      else do
        let file ← resolveName scope tree name
        return (some file, after.dropWhile isNameChar)
    else .ok (none, text)

/-- Read the redirections that make up a text. -/
def ofText (scope : Scope) (tree : FileTree) (text : Text) : Except ShellError Redirections := do
  let (input, text) ← read scope tree '<' text
  let (output, text) ← read scope tree '>' text
  if text.trimStart ≠ [] then throw .malformed
  if input.isSome ∧ input = output then throw .sameFile
  return ⟨input, output⟩

end Redirections

end LineShell
