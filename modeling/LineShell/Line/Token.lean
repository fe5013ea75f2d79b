import LineShell.Error
/-!
# Tokens

A command is written as tokens with blanks between them. A token is bare text with back-quoted spans
glued to it, or a quotation, and what follows it is a blank, a redirection sign or the end of the
text. Reading stops where the redirections begin.
-/

namespace LineShell

inductive TokenKind where
  /-- A hyphen and letters. -/
  | flag
  /-- Bare text, possibly with back-quoted spans after its first character. -/
  | word
  /-- Double quotes around text with back-quoted spans. -/
  | interpolated
  | doubleQuoted
  | singleQuoted
  /-- A back-quoted span, possibly with bare text and further spans after it. -/
  | backQuoted
  deriving DecidableEq, Repr

/-- A token: its kind, its text as written and its text without the enclosing quotes. -/
structure Token where
  kind : TokenKind
  raw : Text
  value : Text
  deriving DecidableEq, Repr

namespace Token

def isBare (c : Char) : Bool :=
  !(Text.isBlank c || c ∈ ['"', '\'', '`', ';', '|', '<', '>'])

def isDelimiter (c : Char) : Bool :=
  Text.isBlank c || c = '<' || c = '>'

def atEnd (text : Text) : Bool :=
  text.head?.all isDelimiter

def keep (c : Char) : Option (Text × Text) → Option (Text × Text) :=
  Option.map fun (read, rest) => (c :: read, rest)

/-- Read bare text and back-quoted spans up to a delimiter, from inside a span or from outside. -/
def glued? : (inSpan : Bool) → Text → Option (Text × Text)
  | false, [] => some ([], [])
  | true, [] => none
  | false, c :: rest =>
    if isDelimiter c then some ([], c :: rest)
    else if c = '`' then keep c (glued? true rest)
    else if isBare c then keep c (glued? false rest)
    else none
  | true, c :: rest =>
    if c = '\n' then none else keep c (glued? (c ≠ '`') rest)

/-- Read the inside of double quotes and the closing quote, from inside a back-quoted span or from
outside. -/
def interpolated? : (inSpan : Bool) → Text → Option (Text × Text)
  | _, [] => none
  | false, c :: rest =>
    if c = '"' then some ([], rest)
    else if c = '\n' then none
    else keep c (interpolated? (c = '`') rest)
  | true, c :: rest =>
    if c = '\n' then none else keep c (interpolated? (c ≠ '`') rest)

def single? : Text → Option (Text × Text)
  | [] => none
  | c :: rest =>
    if c = '\'' then some ([], rest)
    else if c = '\n' then none
    else keep c (single? rest)

def isFlag : Text → Bool
  | '-' :: letters => letters.all Char.isAlpha
  | _ => false

/-- The kind of a token that is not a quotation. -/
def gluedKind (raw : Text) : TokenKind :=
  if isFlag raw then .flag
  else if raw.head? = some '`' then .backQuoted
  else .word

/-- Read a token at the start of the text, whatever follows it. -/
def lexeme? : Text → Option (Token × Text)
  | [] => none
  | '"' :: text => do
    let (value, rest) ← interpolated? false text
    let kind := if '`' ∈ value then TokenKind.interpolated else .doubleQuoted
    return (⟨kind, '"' :: value ++ ['"'], value⟩, rest)
  | '\'' :: text => do
    let (value, rest) ← single? text
    return (⟨.singleQuoted, '\'' :: value ++ ['\''], value⟩, rest)
  | text => do
    let (raw, rest) ← glued? false text
    if raw = [] then none else return (⟨gluedKind raw, raw, raw⟩, rest)

/-- Read a token that a delimiter or the end of the text follows. -/
def read? (text : Text) : Option (Token × Text) :=
  (lexeme? text).filter fun (_, rest) => atEnd rest

/-- Whether a token can be read after some blank of the text. -/
def anyAfterBlank : Text → Bool
  | [] => false
  | c :: rest => (Text.isBlank c && (read? (Text.trimStart rest)).isSome) || anyAfterBlank rest

/-- Whether no token follows: the text is at its end or at a redirection sign. -/
def isDone (text : Text) : Bool :=
  (Text.trimStart text).head?.all fun c => c = '<' || c = '>'

theorem keep_eq_some {c : Char} {r : Option (Text × Text)} {read rest : Text}
    (h : keep c r = some (read, rest)) : ∃ tail, r = some (tail, rest) ∧ read = c :: tail := by
  obtain ⟨⟨tail, rest'⟩, hr, he⟩ := Option.map_eq_some_iff.1 h
  simp only [Prod.mk.injEq] at he
  exact ⟨tail, by rw [hr, he.2], he.1.symm⟩

theorem glued?_append {inSpan : Bool} {text read rest : Text}
    (h : glued? inSpan text = some (read, rest)) : text = read ++ rest := by
  induction text generalizing inSpan read with
  | nil => cases inSpan <;> simp_all [glued?]
  | cons c text ih =>
    cases inSpan <;> simp only [glued?] at h <;> split at h
    · simp_all
    · split at h
      · obtain ⟨tail, ht, rfl⟩ := keep_eq_some h
        simp [ih ht]
      · split at h
        · obtain ⟨tail, ht, rfl⟩ := keep_eq_some h
          simp [ih ht]
        · simp at h
    · simp at h
    · obtain ⟨tail, ht, rfl⟩ := keep_eq_some h
      simp [ih ht]

theorem interpolated?_append {inSpan : Bool} {text read rest : Text}
    (h : interpolated? inSpan text = some (read, rest)) : text = read ++ '"' :: rest := by
  induction text generalizing inSpan read with
  | nil => simp [interpolated?] at h
  | cons c text ih =>
    cases inSpan <;> simp only [interpolated?] at h <;> split at h
    · simp_all
    · split at h
      · simp at h
      · obtain ⟨tail, ht, rfl⟩ := keep_eq_some h
        simp [ih ht]
    · simp at h
    · obtain ⟨tail, ht, rfl⟩ := keep_eq_some h
      simp [ih ht]

theorem single?_append {text read rest : Text} (h : single? text = some (read, rest)) :
    text = read ++ '\'' :: rest := by
  induction text generalizing read with
  | nil => simp [single?] at h
  | cons c text ih =>
    simp only [single?] at h
    split at h
    · simp_all
    · split at h
      · simp at h
      · obtain ⟨tail, ht, rfl⟩ := keep_eq_some h
        simp [ih ht]

theorem lexeme?_append {text rest : Text} {token : Token} (h : lexeme? text = some (token, rest)) :
    text = token.raw ++ rest ∧ token.raw ≠ [] := by
  unfold lexeme? at h
  split at h
  · simp at h
  · obtain ⟨⟨value, rest'⟩, hv, he⟩ := Option.bind_eq_some_iff.1 h
    simp only [Option.pure_def, Option.some.injEq, Prod.mk.injEq] at he
    obtain ⟨rfl, rfl⟩ := he
    simp [interpolated?_append hv]
  · obtain ⟨⟨value, rest'⟩, hv, he⟩ := Option.bind_eq_some_iff.1 h
    simp only [Option.pure_def, Option.some.injEq, Prod.mk.injEq] at he
    obtain ⟨rfl, rfl⟩ := he
    simp [single?_append hv]
  · obtain ⟨⟨raw, rest'⟩, hv, he⟩ := Option.bind_eq_some_iff.1 h
    dsimp only at he
    split at he
    · simp at he
    · rename_i hraw
      simp only [Option.pure_def, Option.some.injEq, Prod.mk.injEq] at he
      obtain ⟨rfl, rfl⟩ := he
      exact ⟨glued?_append hv, hraw⟩

theorem read?_eq_some_iff {text rest : Text} {token : Token} :
    read? text = some (token, rest) ↔ lexeme? text = some (token, rest) ∧ atEnd rest = true := by
  simp [read?, Option.filter_eq_some_iff]

theorem read?_length_lt {text rest : Text} {token : Token}
    (h : read? (Text.trimStart text) = some (token, rest)) : rest.length < text.length := by
  obtain ⟨happ, hraw⟩ := lexeme?_append (read?_eq_some_iff.1 h).1
  have hlen : (Text.trimStart text).length ≤ text.length := (List.dropWhile_suffix _).length_le
  have hpos : 0 < token.raw.length := List.length_pos_iff.2 hraw
  rw [happ, List.length_append] at hlen
  omega

end Token

namespace Text

/-- The tokens of a command and the text after the last of them. If no token can be read where one
should begin, the command is malformed when a token could be read further on, and its tokens end
here when none could. -/
def tokenize (text : Text) : Except ShellError (List Token × Text) :=
  if Token.isDone text then .ok ([], text)
  else
    match _h : Token.read? (trimStart text) with
    | none => if Token.anyAfterBlank text then .error .malformed else .ok ([], text)
    | some (token, rest) =>
      match tokenize rest with
      | .error e => .error e
      | .ok (tokens, rest) => .ok (token :: tokens, rest)
termination_by text.length
decreasing_by exact Token.read?_length_lt _h

end Text

end LineShell
