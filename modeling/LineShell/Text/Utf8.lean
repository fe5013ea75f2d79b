import LineShell.Text.Basic
/-!
# UTF-8

Texts are stored as bytes in UTF-8. The decoder reads one byte at a time and reports every
character, and every maximal ill-formed run of bytes, as one unit. Strict and lossy decoding are two
readings of these units, so they agree on every well-formed input.
-/

namespace LineShell

abbrev Bytes := List UInt8

namespace Text

def utf8 (text : Text) : Bytes :=
  text.flatMap String.utf8EncodeChar

def utf8Length (text : Text) : Nat :=
  text.utf8.length

/-- Texts are ordered by their UTF-8 encodings, compared byte by byte. -/
def precedes (left right : Text) : Bool :=
  decide (left.utf8 ≤ right.utf8)

end Text

namespace Utf8

inductive Pending where
  /-- Between two characters. -/
  | idle
  /-- Inside a character: the bits read, the range of the next byte and the number of bytes after
  it. -/
  | inside (bits low high more : Nat)

def start (byte : Nat) : List (Option Char) × Pending :=
  if byte < 0x80 then ([some (Char.ofNat byte)], .idle)
  else if byte < 0xC2 then ([none], .idle)
  else if byte < 0xE0 then ([], .inside (byte - 0xC0) 0x80 0xBF 0)
  else if byte = 0xE0 then ([], .inside 0 0xA0 0xBF 1)
  else if byte = 0xED then ([], .inside 0xD 0x80 0x9F 1)
  else if byte < 0xF0 then ([], .inside (byte - 0xE0) 0x80 0xBF 1)
  else if byte = 0xF0 then ([], .inside 0 0x90 0xBF 2)
  else if byte < 0xF4 then ([], .inside (byte - 0xF0) 0x80 0xBF 2)
  else if byte = 0xF4 then ([], .inside 4 0x80 0x8F 2)
  else ([none], .idle)

/-- Read one byte. A byte that cannot continue a character closes an ill-formed unit and is read
afresh. -/
def step : Pending → Nat → List (Option Char) × Pending
  | .idle, byte => start byte
  | .inside bits low high more, byte =>
    if low ≤ byte ∧ byte ≤ high then
      match more with
      | 0 => ([some (Char.ofNat (bits * 64 + (byte - 0x80)))], .idle)
      | more + 1 => ([], .inside (bits * 64 + (byte - 0x80)) 0x80 0xBF more)
    else
      let (units, pending) := start byte
      (none :: units, pending)

def unitsFrom : Pending → Bytes → List (Option Char)
  | .idle, [] => []
  | .inside _ _ _ _, [] => [none]
  | pending, byte :: bytes =>
    let (units, pending) := step pending byte.toNat
    units ++ unitsFrom pending bytes

/-- The characters of a byte sequence, with `none` for each maximal ill-formed run. -/
def units (bytes : Bytes) : List (Option Char) :=
  unitsFrom .idle bytes

def decode? (bytes : Bytes) : Option Text :=
  (units bytes).mapM id

/-- The text that the bytes encode, with U+FFFD for each ill-formed unit. -/
def decodeLossy (bytes : Bytes) : Text :=
  (units bytes).map (·.getD '\ufffd')

end Utf8

end LineShell
