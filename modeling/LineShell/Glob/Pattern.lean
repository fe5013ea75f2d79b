import LineShell.Text.Basic
/-!
# Wildcard patterns

In a pattern `*` stands for any characters of one name, and `**` as a whole name stands for any
number of names. Every other character stands for itself. Unless hidden names are included, a
wildcard does not match a dot at the start of a name.
-/

namespace LineShell

namespace Glob

inductive Piece where
  | char (c : Char)
  /-- Any characters of one name. -/
  | star
  /-- Any number of whole names. -/
  | deep
  deriving DecidableEq, Repr

/-- Read a pattern; `fresh` says that it continues at the start of a name. -/
def compileFrom : (fresh : Bool) → Text → Option (List Piece)
  | _, [] => some []
  | _, '*' :: '*' :: '*' :: _ => none
  | fresh, ['*', '*'] => if fresh then some [.deep] else none
  | fresh, '*' :: '*' :: '/' :: rest =>
    if fresh then (compileFrom true rest).map (.deep :: ·) else none
  | _, '*' :: '*' :: _ => none
  | _, '*' :: rest => (compileFrom false rest).map (.star :: ·)
  | _, c :: rest => (compileFrom (c = '/') rest).map (.char c :: ·)

def compile (pattern : Text) : Option (List Piece) :=
  compileFrom true pattern

inductive Verdict where
  | matched
  /-- The text does not match, but more of it taken by an earlier wildcard may. -/
  | mismatched
  /-- The text ended too early, so that no shorter rest of it can match. -/
  | exhausted
  deriving DecidableEq, Repr

/-- The first verdict, unless it leaves the decision to the second. -/
def Verdict.orElse (first : Verdict) (second : Verdict) : Verdict :=
  match first with
  | .mismatched => second
  | verdict => verdict

/-- Whether a wildcard may take a character: a dot at the start of a name is hidden unless `hidden`
is set. -/
def takes (hidden fresh : Bool) (c : Char) : Bool :=
  hidden || !fresh || c ≠ '.'

/-- Match any characters of one name, then the rest of the pattern. -/
def matchStar (hidden : Bool) (later : Bool → Text → Verdict) : (fresh : Bool) → Text → Verdict
  | fresh, [] => later fresh []
  | fresh, c :: rest =>
    (later fresh (c :: rest)).orElse
      (if takes hidden fresh c && c ≠ '/' then matchStar hidden later false rest else .mismatched)

/-- Match characters up to the end of some name, then the rest of the pattern. -/
def matchNames (hidden : Bool) (later : Bool → Text → Verdict) : (fresh : Bool) → Text → Verdict
  | fresh, [] => later fresh []
  | fresh, c :: rest =>
    if takes hidden fresh c then
      if c = '/' then (later true rest).orElse (matchNames hidden later true rest)
      else matchNames hidden later false rest
    else .mismatched

/-- Match a text; `fresh` says that it continues at the start of a name. -/
def matchFrom (hidden : Bool) : List Piece → (fresh : Bool) → Text → Verdict
  | [], _, [] => .matched
  | [], _, _ :: _ => .mismatched
  | .char _ :: _, _, [] => .exhausted
  | .char p :: pieces, _, c :: rest =>
    if c = p then matchFrom hidden pieces (c = '/') rest else .mismatched
  | .star :: pieces, fresh, text => matchStar hidden (matchFrom hidden pieces) fresh text
  | .deep :: pieces, fresh, text =>
    (matchFrom hidden pieces fresh text).orElse
      (matchNames hidden (matchFrom hidden pieces) fresh text)

def isMatch (hidden : Bool) (pieces : List Piece) (text : Text) : Bool :=
  matchFrom hidden pieces true text = .matched

end Glob

end LineShell
