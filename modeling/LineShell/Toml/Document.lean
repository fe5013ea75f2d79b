import LineShell.Toml.Scalar
/-!
# TOML documents

A document is read line by line: a line assigns a value to a key, opens a table, or is blank.
Strings, arrays and tables in braces may reach over several lines.
-/

namespace LineShell

namespace Toml

/-- Whether a control character must not stand as it is in a comment or a string. -/
def isForbidden (c : Char) : Bool :=
  (c.toNat < 0x20 && c ≠ '\t') || c.toNat = 0x7F

def skipSpaces (text : Text) : Text :=
  text.dropWhile isSpace

/-- Skip the rest of a line on which only a comment may stand. -/
def endLine (inComment : Bool) : Text → Option Text
  | [] => some []
  | '\n' :: rest => some rest
  | '\r' :: '\n' :: rest => some rest
  | c :: rest =>
    if inComment then if isForbidden c then none else endLine true rest
    else if isSpace c then endLine false rest
    else if c = '#' then endLine true rest
    else none

def skipGap (inComment : Bool) : Text → Option Text
  | [] => some []
  | '\n' :: rest => skipGap false rest
  | '\r' :: '\n' :: rest => skipGap false rest
  | c :: rest =>
    if inComment then if isForbidden c then none else skipGap true rest
    else if isSpace c then skipGap false rest
    else if c = '#' then skipGap true rest
    else some (c :: rest)

def ofCode? (digits : Text) : Option Char :=
  if digits.all isHexDigit then
    let code := digits.foldl
      (fun n c => n * 16 + (if c.isDigit then c.toNat - 48 else (c.toNat ||| 32) - 87)) 0
    if code < 0xD800 || (0xDFFF < code && code < 0x110000) then some (Char.ofNat code) else none
  else none

def keep (c : Char) : Option (Text × Text) → Option (Text × Text) :=
  Option.map fun (read, rest) => (c :: read, rest)

def escape? (c : Char) : Option Char :=
  match c with
  | 'b' => some '\x08'
  | 't' => some '\t'
  | 'n' => some '\n'
  | 'f' => some '\x0c'
  | 'r' => some '\r'
  | 'e' => some '\x1b'
  | '"' => some '"'
  | '\\' => some '\\'
  | _ => none

def basic? : Text → Option (Text × Text)
  | [] => none
  | '"' :: rest => some ([], rest)
  | '\\' :: 'x' :: a :: b :: rest => do keep (← ofCode? [a, b]) (basic? rest)
  | '\\' :: 'u' :: a :: b :: c :: d :: rest => do keep (← ofCode? [a, b, c, d]) (basic? rest)
  | '\\' :: 'U' :: a :: b :: c :: d :: e :: f :: g :: h :: rest => do
    keep (← ofCode? [a, b, c, d, e, f, g, h]) (basic? rest)
  | '\\' :: c :: rest => do keep (← escape? c) (basic? rest)
  | c :: rest => if isForbidden c || c = '\\' then none else keep c (basic? rest)

def literal? : Text → Option (Text × Text)
  | [] => none
  | '\'' :: rest => some ([], rest)
  | c :: rest => if isForbidden c then none else keep c (literal? rest)

def atLineEnd (text : Text) : Bool :=
  match skipSpaces text with
  | '\n' :: _ => true
  | '\r' :: '\n' :: _ => true
  | _ => false

/-- Read the rest of a string in three double quotes. A backslash at the end of a line joins the
text to the next character that is not blank; `joining` says that this one is sought. -/
def multiBasic? : (joining : Bool) → Text → Option (Text × Text)
  | _, [] => none
  | _, '"' :: '"' :: '"' :: '"' :: '"' :: rest => some (['"', '"'], rest)
  | _, '"' :: '"' :: '"' :: '"' :: rest => some (['"'], rest)
  | _, '"' :: '"' :: '"' :: rest => some ([], rest)
  | _, '\\' :: 'x' :: a :: b :: rest => do keep (← ofCode? [a, b]) (multiBasic? false rest)
  | _, '\\' :: 'u' :: a :: b :: c :: d :: rest =>
    do keep (← ofCode? [a, b, c, d]) (multiBasic? false rest)
  | _, '\\' :: 'U' :: a :: b :: c :: d :: e :: f :: g :: h :: rest => do
    keep (← ofCode? [a, b, c, d, e, f, g, h]) (multiBasic? false rest)
  | _, '\\' :: c :: rest =>
    if atLineEnd (c :: rest) then multiBasic? true (c :: rest)
    else do keep (← escape? c) (multiBasic? false rest)
  | joining, '\r' :: '\n' :: rest =>
    if joining then multiBasic? true rest
    else keep '\r' (keep '\n' (multiBasic? false rest))
  | joining, c :: rest =>
    if joining && (isSpace c || c = '\n') then multiBasic? true rest
    else if c = '\n' then keep c (multiBasic? false rest)
    else if isForbidden c || c = '\\' then none
    else keep c (multiBasic? false rest)

def multiLiteral? : Text → Option (Text × Text)
  | [] => none
  | '\'' :: '\'' :: '\'' :: '\'' :: '\'' :: rest => some (['\'', '\''], rest)
  | '\'' :: '\'' :: '\'' :: '\'' :: rest => some (['\''], rest)
  | '\'' :: '\'' :: '\'' :: rest => some ([], rest)
  | '\r' :: '\n' :: rest => keep '\r' (keep '\n' (multiLiteral? rest))
  | c :: rest => if isForbidden c && c ≠ '\n' then none else keep c (multiLiteral? rest)

def skipFirstLineEnd : Text → Text
  | '\n' :: rest => rest
  | '\r' :: '\n' :: rest => rest
  | text => text

/-- Read a string that may reach over several lines only in triple quotes. -/
def string? : Text → Option (Text × Text)
  | '"' :: '"' :: '"' :: rest => multiBasic? false (skipFirstLineEnd rest)
  | '"' :: rest => basic? rest
  | '\'' :: '\'' :: '\'' :: rest => multiLiteral? (skipFirstLineEnd rest)
  | '\'' :: rest => literal? rest
  | _ => none

def isKeyChar (c : Char) : Bool :=
  c.isAlphanum || c = '_' || c = '-'

def simpleKey? : Text → Option (Text × Text)
  | '"' :: rest => basic? rest
  | '\'' :: rest => literal? rest
  | text =>
    let key := text.takeWhile isKeyChar
    if key = [] then none else some (key, text.dropWhile isKeyChar)

/-- Read the keys of a dotted key, at most `limit` of them. -/
def keys? : (limit : Nat) → Text → Option (List Text × Text)
  | 0, _ => none
  | limit + 1, text => do
    let (key, rest) ← simpleKey? (skipSpaces text)
    match skipSpaces rest with
    | '.' :: after =>
      let (keys, rest) ← keys? limit after
      return (key :: keys, rest)
    | _ => return ([key], rest)

/-- How deep values may nest, and how many keys a dotted key may have. -/
def maxNesting : Nat := 80

def key? (text : Text) : Option (List Text × Text) :=
  keys? maxNesting text

/-- Read a key, an equals sign and a value; `skip` skips what may stand on both sides of the
sign. -/
def assignment? (skip : Text → Option Text) (value : Text → Option (Value × Text)) (text : Text) :
    Option ((List Text × Value) × Text) := do
  let (keys, rest) ← key? text
  match ← skip rest with
  | '=' :: rest =>
    let (value, rest) ← value (← skip rest)
    return ((keys, value), rest)
  | _ => none

/-- Read the rest of an array, of at most `fuel` items. -/
def items? (value : Text → Option (Value × Text)) : (fuel : Nat) → Text → Option (List Value × Text)
  | 0, _ => none
  | fuel + 1, text => do
    match ← skipGap false text with
    | ']' :: rest => return ([], rest)
    | text =>
      let (item, rest) ← value text
      match ← skipGap false rest with
      | ',' :: rest =>
        let (items, rest) ← items? value fuel rest
        return (item :: items, rest)
      | ']' :: rest => return ([item], rest)
      | _ => none

/-- Read the rest of a table in braces, of at most `fuel` assignments, on top of the given
entries. -/
def braced? (value : Text → Option (Value × Text)) :
    (fuel : Nat) → Entries → Text → Option (Entries × Text)
  | 0, _, _ => none
  | fuel + 1, entries, text => do
    match ← skipGap false text with
    | '}' :: rest => return (entries, rest)
    | text =>
      let ((keys, item), rest) ← assignment? (skipGap false) value text
      let entries ← entries.assign keys item
      match ← skipGap false rest with
      | ',' :: rest => braced? value fuel entries rest
      | '}' :: rest => return (entries, rest)
      | _ => none

/-- Read a value, in which arrays and tables in braces nest at most `depth` deep. -/
def value? : (depth : Nat) → Text → Option (Value × Text)
  | depth + 1, '[' :: rest => do
    let (items, rest) ← items? (value? depth) rest.length rest
    return (.array false items, rest)
  | depth + 1, '\x7b' :: rest => do
    let (entries, rest) ← braced? (value? depth) rest.length [] rest
    return (.table .inline entries, rest)
  | _, '"' :: rest => do
    let (text, rest) ← string? ('"' :: rest)
    return (.string text, rest)
  | _, '\'' :: rest => do
    let (text, rest) ← string? ('\'' :: rest)
    return (.string text, rest)
  | _, text => scalar? text

/-- A document as read so far, with the path of the table that lines add to. -/
structure Document where
  entries : Entries
  path : List Text

def Document.header? (document : Document) (isElement : Bool) (text : Text) :
    Option (Document × Text) := do
  let (keys, rest) ← key? text
  let key ← keys.getLast?
  let change := if isElement then Entries.openElement key else Entries.openTable key
  let entries ← document.entries.alter false change keys.dropLast
  match isElement, skipSpaces rest with
  | true, ']' :: ']' :: rest => return (⟨entries, keys⟩, rest)
  | false, ']' :: rest => return (⟨entries, keys⟩, rest)
  | _, _ => none

def Document.line? (document : Document) (text : Text) : Option (Document × Text) :=
  match skipSpaces text with
  | [] => some (document, [])
  | '[' :: '[' :: rest => document.header? true rest
  | '[' :: rest => document.header? false rest
  | '\n' :: rest => some (document, '\n' :: rest)
  | '\r' :: rest => some (document, '\r' :: rest)
  | '#' :: rest => some (document, '#' :: rest)
  | text => do
    let ((keys, value), rest) ← assignment? (some <| skipSpaces ·) (value? maxNesting) text
    let entries ← document.entries.alter false (Entries.assign keys value) document.path
    return (⟨entries, document.path⟩, rest)

/-- Read lines, at most `fuel` of them. -/
def Document.lines? (document : Document) : (fuel : Nat) → Text → Option Document
  | _, [] => some document
  | 0, _ => none
  | fuel + 1, text => do
    let (document, rest) ← document.line? text
    document.lines? fuel (← endLine false rest)

/-- Read a document; a byte order mark may stand in front. -/
def parse? (text : Text) : Option Entries := do
  let text := if text.head? = some '\ufeff' then text.tail else text
  return (← Document.lines? ⟨[], []⟩ text.length text).entries

end Toml

end LineShell
