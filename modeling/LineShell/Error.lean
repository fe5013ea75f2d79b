import LineShell.Text.Count
/-!
# Errors

Errors are causes: what the file system refuses, why an application fails, and what ends the
evaluation of a line. Each kind has one function that gives its wording.
-/

namespace LineShell

/-- What the file system or a stream refuses. -/
inductive IoError where
  | notFound
  | notDirectory
  | isDirectory
  | nameTooLong
  | linkLoop
  | nulByte
  | invalidUtf8
  deriving DecidableEq, Repr

def IoError.message : IoError → String
  | .notFound => "No such file or directory (os error 2)"
  | .notDirectory => "Not a directory (os error 20)"
  | .isDirectory => "Is a directory (os error 21)"
  | .nameTooLong => "File name too long (os error 36)"
  | .linkLoop => "Too many levels of symbolic links (os error 40)"
  | .nulByte => "file name contained an unexpected NUL byte"
  | .invalidUtf8 => "stream did not contain valid UTF-8"

inductive Failure where
  /-- There is no output to write to. -/
  | noOutput
  /-- There is no input to read from. -/
  | noInput
  /-- The input cannot be read. -/
  | input (cause : IoError)
  /-- The input cannot be read as text. -/
  | inputText (cause : IoError)
  /-- The input cannot be copied. -/
  | inputCopy (cause : IoError)
  /-- A directory is named where a file is wanted. -/
  | directory (name : Text)
  /-- A named file cannot be read. -/
  | file (name : Text) (cause : IoError)
  /-- A number of lines is not a count. -/
  | lineCount (text : Text) (cause : CountError)
  /-- The arguments do not select lines. -/
  | lineArguments
  | unknownOption (option : Text)
  | secondFile
  | noArguments
  /-- A cause of the application's own. -/
  | other (reason : Text)
  deriving DecidableEq, Repr

/-- The wording of a failure, from the outermost cause to the innermost. -/
def Failure.message : Failure → String
  | .noOutput => "Cannot write to stdout as it is null"
  | .noInput => "No input stream to read from"
  | .input cause => cause.message
  | .inputText cause => s!"Failed to read from stdin: {cause.message}"
  | .inputCopy cause => s!"Failed to copy stdin: {cause.message}"
  | .directory name => s!"{String.ofList name}: Is a directory"
  | .file name cause => s!"{String.ofList name}: No such file or directory: {cause.message}"
  | .lineCount text cause => s!"Invalid line count: {String.ofList text}: {cause.message}"
  | .lineArguments => "Invalid arguments: expected [-n COUNT] [FILE]"
  | .unknownOption option => s!"Unknown option: {String.ofList option}"
  | .secondFile => "Only one file can be sorted at a time"
  | .noArguments => "No arguments expected"
  | .other reason => String.ofList reason

/-- What ends the evaluation of a line. -/
inductive ShellError where
  /-- The line, or a pattern in it, is not well-formed. -/
  | malformed
  /-- No application has this name. -/
  | unknownApp (name : Text)
  /-- A command reads and writes one file. -/
  | sameFile
  /-- A redirection pattern matches several files. -/
  | ambiguousPattern
  /-- A redirection pattern matches no file. -/
  | noMatch
  /-- A redirection stands at an end of a command that a pipe occupies. -/
  | pipedRedirection
  /-- A redirection file cannot be opened. -/
  | redirection (path : Text) (cause : IoError)
  /-- A directory cannot be searched for matches. -/
  | search (directory : Text) (cause : IoError)
  /-- An application fails. -/
  | application (name : Text) (failure : Failure)
  deriving DecidableEq, Repr

def ShellError.message : ShellError → String
  | .malformed => "Invalid syntax encountered."
  | .unknownApp _ => "Invalid app."
  | .sameFile => "Input redirection file same as output redirection file."
  | .ambiguousPattern => "Ambigious globbing for IO Redirection."
  | .noMatch => "File not found."
  | .pipedRedirection => "File output redirection and pipe operator cannot be used side by side."
  | .redirection path cause =>
    s!"Cannot open redirection file '{String.ofList path}': {cause.message}"
  | .search directory cause =>
    s!"Cannot read directory '{String.ofList directory}' while globbing: {cause.message}"
  | .application name failure => s!"{String.ofList name}: {failure.message}"

end LineShell
