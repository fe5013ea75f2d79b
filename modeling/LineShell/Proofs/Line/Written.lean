import LineShell.Line.Command
import Mathlib.Data.List.Forall2
/-!
# Written forms

Which texts stand for a word, a command, a pipeline and a line, said without reading them. A word
may have several written forms: text can stand in single or in double quotes, and any blanks may
separate what blanks separate.
-/

namespace LineShell

/-- A part as it is written: a command stands between back-quotes. -/
def Part.text : Part → Text
  | .literal text => text
  | .pattern text => text
  | .command text _ => '`' :: text ++ ['`']

def Part.isCommand : Part → Bool
  | .command _ _ => true
  | _ => false

def Text.isSpan (text : Text) : Bool :=
  '\n' ∉ text && '`' ∉ text

/-- Whether a character can stand in double quotes outside back-quotes. -/
def Text.isQuotable (c : Char) : Bool :=
  c ∉ ['\n', '"', '`']

/-- Whether a part is text of the given characters or a command, inside double quotes or outside. -/
def Part.fits (quoted : Bool) (isPlain : Char → Bool) : Part → Bool
  | .literal text => quoted && text ≠ [] && text.all isPlain
  | .pattern text => !quoted && text ≠ [] && text.all isPlain
  | .command text inQuotes => inQuotes = quoted && text.isSpan

namespace Word

def text (word : Word) : Text :=
  word.flatMap Part.text

def Apart (word : Word) : Prop :=
  word.IsChain fun left right => left.isCommand ∨ right.isCommand

/-- A word that is one text which single quotes or double quotes can enclose. -/
def IsQuoted (word : Word) : Prop :=
  ∃ text, word = [.literal text] ∧ '\n' ∉ text ∧ ('\'' ∉ text ∨ '"' ∉ text ∧ '`' ∉ text)

/-- A word outside quotes: patterns and commands glued together, but not a flag. -/
structure IsBare (word : Word) : Prop where
  ne_nil : word ≠ []
  fits : ∀ part ∈ word, part.fits false Token.isBare
  apart : Apart word
  not_flag : ∀ text, word = [.pattern text] → Token.isFlag text = false

structure IsInterpolated (word : Word) : Prop where
  fits : ∀ part ∈ word, part.fits true Text.isQuotable
  apart : Apart word
  command : ∃ part ∈ word, part.isCommand

def IsWellFormed (word : Word) : Prop :=
  IsQuoted word ∨ IsBare word ∨ IsInterpolated word

instance (word : Word) : Decidable (Apart word) :=
  inferInstanceAs (Decidable (word.IsChain fun left right => left.isCommand ∨ right.isCommand))

instance (word : Word) : Decidable (IsQuoted word) :=
  decidable_of_iff
    (∃ part ∈ word, word = [.literal part.text] ∧
      '\n' ∉ part.text ∧ ('\'' ∉ part.text ∨ '"' ∉ part.text ∧ '`' ∉ part.text))
    ⟨fun ⟨part, _, h⟩ => ⟨part.text, h⟩,
      fun ⟨text, hword, h⟩ => ⟨.literal text, hword ▸ List.mem_singleton_self _, hword, h⟩⟩

instance (word : Word) : Decidable (IsBare word) :=
  decidable_of_iff
    (word ≠ [] ∧ (∀ part ∈ word, part.fits false Token.isBare) ∧ Apart word ∧
      ∀ part ∈ word, word = [.pattern part.text] → Token.isFlag part.text = false)
    ⟨fun ⟨hne, hfits, hapart, hflag⟩ => ⟨hne, hfits, hapart, fun text hword =>
        hflag (.pattern text) (hword ▸ List.mem_singleton_self _) hword⟩,
      fun h => ⟨h.ne_nil, h.fits, h.apart, fun part _ => h.not_flag part.text⟩⟩

instance (word : Word) : Decidable (IsInterpolated word) :=
  decidable_of_iff
    ((∀ part ∈ word, part.fits true Text.isQuotable) ∧ Apart word ∧ ∃ part ∈ word, part.isCommand)
    ⟨fun ⟨hfits, hapart, hcommand⟩ => ⟨hfits, hapart, hcommand⟩, fun h =>
      ⟨h.fits, h.apart, h.command⟩⟩

instance (word : Word) : Decidable (IsWellFormed word) :=
  inferInstanceAs (Decidable (IsQuoted word ∨ IsBare word ∨ IsInterpolated word))

inductive Written : Word → Text → Prop
  | single {text : Text} :
    '\n' ∉ text → '\'' ∉ text → Written [.literal text] ('\'' :: text ++ ['\''])
  | double {text : Text} : text.all Text.isQuotable → Written [.literal text] ('"' :: text ++ ['"'])
  | flag {text : Text} : Token.isFlag text → Written [.literal text] text
  | bare {word : Word} : IsBare word → Written word (Word.text word)
  | interpolated {word : Word} : IsInterpolated word → Written word ('"' :: Word.text word ++ ['"'])

/-- The texts that stand for a sequence of words. Blanks may stand before each word, and must unless
it is the first. -/
inductive AllWritten : (first : Bool) → List Word → Text → Prop
  | nil {first : Bool} : AllWritten first [] []
  | cons {first : Bool} {word : Word} {words : List Word} {gap raw rest : Text} :
      gap.all Text.isBlank → (first = false → gap ≠ []) → Written word raw →
      AllWritten false words rest → AllWritten first (word :: words) (gap ++ (raw ++ rest))

end Word

namespace Redirections

/-- The texts that stand for the file after a sign, or for the absence of both. -/
inductive FileWritten (sign : Char) : Option Text → Text → Prop
  | absent : FileWritten sign none []
  | present {before after name : Text} :
      before.all Text.isBlank → after.all Text.isBlank → name ≠ [] → name.all isNameChar →
      FileWritten sign (some name) (before ++ sign :: (after ++ name))

/-- The texts that stand for redirections, be their files different or not. -/
inductive Written : Redirections → Text → Prop
  | mk {input output : Option Text} {inputText outputText gap : Text} :
      FileWritten '<' input inputText → FileWritten '>' output outputText → gap.all Text.isBlank →
      Written ⟨input, output⟩ (inputText ++ (outputText ++ gap))

end Redirections

namespace Command

/-- The texts that stand for words and then redirections, be there words or not. -/
inductive Written : Command → Text → Prop
  | mk {words : List Word} {input output : Option Text} {written rest : Text} :
      Word.AllWritten true words written → Redirections.Written ⟨input, output⟩ rest →
      Written ⟨words, input, output⟩ (written ++ rest)

def HasTwoFiles (command : Command) : Prop :=
  ∀ path, command.input = some path → command.output ≠ some path

/-- A command that can be run: it has words, and its files have names and differ. -/
structure IsWellFormed (command : Command) : Prop where
  words_ne_nil : command.words ≠ []
  words : ∀ word ∈ command.words, Word.IsWellFormed word
  input : ∀ path, command.input = some path → path ≠ []
  output : ∀ path, command.output = some path → path ≠ []
  files : command.HasTwoFiles

/-- Each file of the command has a name that can be written and that stands for itself. -/
def HasPlainFiles (command : Command) : Prop :=
  ∀ path, command.input = some path ∨ command.output = some path →
    path.all Redirections.isNameChar ∧ Glob.hasWildcard path = false

instance (command : Command) : Decidable command.HasTwoFiles :=
  inferInstanceAs (Decidable (∀ path ∈ command.input, command.output ≠ some path))

instance (command : Command) : Decidable command.IsWellFormed :=
  decidable_of_iff
    (command.words ≠ [] ∧ (∀ word ∈ command.words, Word.IsWellFormed word) ∧
      (∀ path ∈ command.input, path ≠ []) ∧ (∀ path ∈ command.output, path ≠ []) ∧
        command.HasTwoFiles)
    ⟨fun ⟨hne, hwords, hinput, houtput, hfiles⟩ => ⟨hne, hwords, hinput, houtput, hfiles⟩,
      fun h => ⟨h.words_ne_nil, h.words, h.input, h.output, h.files⟩⟩

instance (command : Command) : Decidable command.HasPlainFiles :=
  decidable_of_iff
    (∀ path ∈ command.input.toList ++ command.output.toList,
      path.all Redirections.isNameChar ∧ Glob.hasWildcard path = false)
    (by simp [HasPlainFiles])

end Command

namespace Pipeline

def Written (pipeline : Pipeline) (text : Text) : Prop :=
  ∃ texts, List.Forall₂ Command.Written pipeline texts ∧ text = List.intercalate ['|'] texts

def LineWritten (pipelines : List Pipeline) (line : Text) : Prop :=
  ∃ texts, List.Forall₂ Written pipelines texts ∧ line = List.intercalate [';'] texts

/-- A pipeline that can be run: it has commands, and only those at its ends have files. -/
structure IsWellFormed (pipeline : Pipeline) : Prop where
  ne_nil : pipeline ≠ []
  commands : ∀ command ∈ pipeline, command.IsWellFormed
  input : ∀ command ∈ pipeline.tail, command.input = none
  output : ∀ command ∈ pipeline.dropLast, command.output = none

instance (pipeline : Pipeline) : Decidable (IsWellFormed pipeline) :=
  decidable_of_iff
    (pipeline ≠ [] ∧ (∀ command ∈ pipeline, command.IsWellFormed) ∧
      (∀ command ∈ pipeline.tail, command.input = none) ∧ ∀ command ∈ pipeline.dropLast,
        command.output = none)
    ⟨fun ⟨hne, hcommands, hinput, houtput⟩ => ⟨hne, hcommands, hinput, houtput⟩,
      fun h => ⟨h.ne_nil, h.commands, h.input, h.output⟩⟩

end Pipeline

end LineShell
