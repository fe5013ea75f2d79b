import LineShell.Toml.Value
/-!
# Numbers, dates and times of TOML

A scalar is recognised by its form: booleans, integers in four bases, decimal fractions, dates and
times. Underscores may stand between digits. Numbers are kept as written, so of an integer with
underscores only its first digits and the surroundings of its underscores are looked at.
-/

namespace LineShell

namespace Toml

def isSpace (c : Char) : Bool :=
  c = ' ' || c = '\t'

def unsigned : Text → Text
  | '+' :: text => text
  | '-' :: text => text
  | text => text

def isHexDigit (c : Char) : Bool :=
  c.isDigit || ('a' ≤ c && c ≤ 'f') || ('A' ≤ c && c ≤ 'F')

/-- Whether every underscore stands between two digits. A single character in front of the first
underscore, such as a sign, may be of any kind. -/
def placesUnderscores (isDigit : Char → Bool) (text : Text) : Bool :=
  match text.splitOn '_' with
  | [] => true
  | [_] => true
  | first :: others =>
    (first :: others).all (· ≠ []) && others.all (·.head?.any isDigit) &&
      (first :: others).dropLast.all fun part => part.length = 1 || part.getLast?.any isDigit

/-- Whether a text after the mark of its base is made of digits of the base; there may be none. -/
def isBased (isDigit : Char → Bool) (digits : Text) : Bool :=
  digits.all (fun c => isDigit c || c = '_') && placesUnderscores isDigit digits

def isRunChar (c : Char) : Bool :=
  c.isDigit || c = '_'

def skipRun? (text : Text) : Option Text :=
  if (text.takeWhile isRunChar).any Char.isDigit then some (text.dropWhile isRunChar) else none

def skipPlaces? : Text → Option Text
  | '.' :: text => skipRun? text
  | text => some text

def skipExponent? : Text → Option Text
  | [] => some []
  | c :: text => if c = 'e' || c = 'E' then skipRun? (unsigned text) else some (c :: text)

/-- Whether a text without sign is a decimal fraction. No zero stands in front of other digits of
its whole part. -/
def isFraction (text : Text) : Bool :=
  let whole := text.takeWhile isRunChar
  ((whole.filter Char.isDigit).length = 1 || whole.head? ≠ some '0') &&
    (skipRun? text >>= skipPlaces? >>= skipExponent?) = some []

/-- Whether a text without sign, which starts with a digit or an underscore, is a decimal number;
`written` is the text with its sign. An integer does not start with a zero, and when an underscore
follows its first digits, what follows that is bound only by the rule for underscores, with
hexadecimal digits. -/
def isDecimal (written text : Text) : Bool :=
  let rest := text.dropWhile Char.isDigit
  let leadsWithZero : Bool := text.head? = some '0'
  if rest = [] then !leadsWithZero
  else if ' ' ∈ rest then false
  else if rest.any fun c => c = '.' || c = 'e' || c = 'E' then
    isFraction text && placesUnderscores Char.isDigit written
  else rest.head? = some '_' && !leadsWithZero && placesUnderscores isHexDigit written

/-- Whether a text without sign is a number; `written` is the text with its sign. -/
def isUnsignedNumber (written : Text) : Text → Bool
  | ['0'] => true
  | '0' :: 'x' :: digits => isBased isHexDigit digits && written.head? = some '0'
  | '0' :: 'o' :: digits => isBased (fun c => '0' ≤ c && c ≤ '7') digits && written.head? = some '0'
  | '0' :: 'b' :: digits => isBased (fun c => c = '0' || c = '1') digits && written.head? = some '0'
  | text =>
    text = ['i', 'n', 'f'] || text = ['n', 'a', 'n'] ||
      (text.head?.any isRunChar && isDecimal written text)

def isNumber (text : Text) : Bool :=
  isUnsignedNumber text (unsigned text)

def twoDigits? (tens ones : Char) : Option Nat :=
  if tens.isDigit && ones.isDigit then some ((tens.toNat - 48) * 10 + (ones.toNat - 48)) else none

def daysInMonth (year month : Nat) : Nat :=
  if month = 2 then
    if year % 4 = 0 && (year % 100 ≠ 0 || year % 400 = 0) then 29 else 28
  else if month = 4 || month = 6 || month = 9 || month = 11 then 30
  else 31

def date? : Text → Option Text
  | y₁ :: y₂ :: y₃ :: y₄ :: '-' :: m₁ :: m₂ :: '-' :: d₁ :: d₂ :: rest => do
    let year := (← twoDigits? y₁ y₂) * 100 + (← twoDigits? y₃ y₄)
    let month ← twoDigits? m₁ m₂
    let day ← twoDigits? d₁ d₂
    if 1 ≤ month && month ≤ 12 && 1 ≤ day && day ≤ daysInMonth year month then some rest else none
  | _ => none

def hourMinute? : Text → Option Text
  | h₁ :: h₂ :: ':' :: m₁ :: m₂ :: rest => do
    let hour ← twoDigits? h₁ h₂
    let minute ← twoDigits? m₁ m₂
    if hour ≤ 23 && minute ≤ 59 then some rest else none
  | _ => none

/-- Read a time, whose seconds may be left out, and return the text after it. -/
def time? (text : Text) : Option Text := do
  match ← hourMinute? text with
  | ':' :: s₁ :: s₂ :: rest =>
    let second ← twoDigits? s₁ s₂
    if 60 < second then none
    match rest with
    | '.' :: digits =>
      if digits.head?.any Char.isDigit then some (digits.dropWhile Char.isDigit) else none
    | rest => some rest
  | ':' :: _ => none
  | rest => some rest

/-- Whether a text is empty or the distance of a clock from universal time. -/
def isZone : Text → Bool
  | [] => true
  | ['Z'] => true
  | ['z'] => true
  | c :: text => (c = '+' || c = '-') && hourMinute? text = some []

def isMoment (text : Text) : Bool :=
  match date? text with
  | some [] => true
  | some (c :: rest) => (c = 'T' || c = 't' || c = ' ') && (time? rest).any isZone
  | none => time? text = some []

def isPlainChar (c : Char) : Bool :=
  !(isSpace c || c ∈ ['.', '=', ',', '[', ']', '\x7b', '\x7d', '#', '\r', '\n'])

def continues (text : Text) : Bool :=
  (text.dropWhile isSpace).head?.any fun c => isPlainChar c && c ≠ '"' && c ≠ '\''

/-- Divide a text after the scalar at its start, which may have spaces and tabs inside. -/
def scalarText : Text → Text × Text
  | [] => ([], [])
  | c :: rest =>
    if isPlainChar c || c = '.' || (isSpace c && continues rest) then
      let (scalar, after) := scalarText rest
      (c :: scalar, after)
    else ([], c :: rest)

def scalar? (text : Text) : Option (Value × Text) :=
  let (scalar, rest) := scalarText text
  if scalar = "true".toList then some (.boolean true, rest)
  else if scalar = "false".toList then some (.boolean false, rest)
  else if isNumber scalar || isMoment scalar then some (.scalar scalar, rest)
  else none

end Toml

end LineShell
