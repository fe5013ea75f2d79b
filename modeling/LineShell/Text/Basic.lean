/-!
# Text

A text is the list of its characters. Blanks are the characters with the Unicode property
White_Space; splitting and joining texts is splitting and joining lists.
-/

namespace LineShell

/-- A text is the list of its characters. -/
abbrev Text := List Char

namespace Text

/-- A blank is a character with the Unicode property White_Space. -/
def isBlank (c : Char) : Bool :=
  let n := c.toNat
  (9 ≤ n && n ≤ 13) || n == 0x20 || n == 0x85 || n == 0xA0 || n == 0x1680 ||
    (0x2000 ≤ n && n ≤ 0x200A) || n == 0x2028 || n == 0x2029 || n == 0x202F || n == 0x205F ||
      n == 0x3000

def trimStart (text : Text) : Text :=
  text.dropWhile isBlank

def trimEnd (text : Text) : Text :=
  (text.reverse.dropWhile isBlank).reverse

def trim (text : Text) : Text :=
  trimEnd (trimStart text)

def words (text : Text) : List Text :=
  (text.splitOnP isBlank).filter (· ≠ [])

def startsBlank (text : Text) : Bool :=
  text.head?.any isBlank

def endsBlank (text : Text) : Bool :=
  text.getLast?.any isBlank

end Text

end LineShell
