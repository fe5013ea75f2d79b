import LineShell.Text.Basic
/-!
# Lines

A line feed ends a line, and a carriage return right before it belongs to the line's end. A last
line may lack its line feed; it then keeps a carriage return as an ordinary character.
-/

namespace LineShell

/-- The pieces of a list, each ending with `mark` except possibly the last. No piece is empty. -/
def splitAfter {α : Type} [DecidableEq α] (mark : α) : List α → List (List α)
  | [] => []
  | a :: rest =>
    if a = mark then [a] :: splitAfter mark rest
    else
      match splitAfter mark rest with
      | [] => [[a]]
      | piece :: pieces => (a :: piece) :: pieces

namespace Text

def chomp (line : Text) : Text :=
  match line.reverse with
  | '\n' :: '\r' :: body => body.reverse
  | '\n' :: body => body.reverse
  | _ => line

def lines (text : Text) : List Text :=
  (splitAfter '\n' text).map chomp

def spaceLineEnds : Text → Text
  | [] => []
  | '\r' :: '\n' :: rest => ' ' :: spaceLineEnds rest
  | c :: rest => (if c = '\n' then ' ' else c) :: spaceLineEnds rest

/-- The text on one line: a final line end is dropped and each other one becomes a space. -/
def flattenLines (text : Text) : Text :=
  spaceLineEnds (chomp text)

end Text

end LineShell
