import LineShell.Application.Registry
import LineShell.Glob.Search
/-!
# Machines

A machine is what lines act on: a file tree, an input and an output, and the record of the
applications that have been called. This module runs the program of one application on a machine.
-/

namespace LineShell

/-- Where lines are evaluated: the scope of patterns, the applications and the time. -/
structure Environment extends Scope where
  registry : Registry
  now : Moment

def Environment.resolvePath (env : Environment) (name : Text) : Text :=
  Path.join env.cwd name

structure Call where
  app : Text
  args : List Text
  input : Option (Except IoError Bytes)

structure Machine where
  tree : FileTree
  /-- What is left of the input, if there is one. -/
  stdin : Option Bytes
  /-- What has been written to the output. -/
  stdout : Bytes
  /-- The calls of applications, in order. -/
  calls : List Call

inductive Source where
  /-- The machine's input. -/
  | stream
  /-- An open file, read up to a position. -/
  | file (location : Location) (position : Nat)
  /-- An open directory, which cannot be read. -/
  | directory
  deriving DecidableEq, Repr

inductive Sink where
  /-- The machine's output. -/
  | stream
  /-- An open file, written at its end. -/
  | file (location : Location)
  deriving DecidableEq, Repr

structure Streams where
  input : Option Source
  output : Option Sink
  deriving DecidableEq, Repr

namespace Machine

def rest (machine : Machine) : Source → Except IoError Bytes
  | .stream => .ok (machine.stdin.getD [])
  | .file location position => .ok ((machine.tree.contentAt location).drop position)
  | .directory => .error .isDirectory

def advance (machine : Machine) (count : Nat) : Source → Source × Machine
  | .stream => (.stream, { machine with stdin := machine.stdin.map (·.drop count) })
  | .file location position => (.file location (position + count), machine)
  | .directory => (.directory, machine)

/-- Read from a source, which then holds only what has not been read. -/
def read (machine : Machine) (limit : Option Nat) (source : Source) :
    Except IoError Bytes × Source × Machine :=
  match machine.rest source with
  | .error cause => (.error cause, source, machine)
  | .ok bytes =>
    let taken := match limit with
      | none => bytes
      | some count => bytes.take count
    (.ok taken, machine.advance taken.length source)

def write (machine : Machine) (bytes : Bytes) : Sink → Machine
  | .stream => { machine with stdout := machine.stdout ++ bytes }
  | .file location => { machine with tree := machine.tree.append location bytes }

end Machine

/-- Run a program. A missing input is at its end, and a missing output takes anything. -/
def Program.run (env : Environment) : Program → Streams → Machine → Except Failure Unit × Machine
  | .exit, _, machine => (.ok (), machine)
  | .fail failure, _, machine => (.error failure, machine)
  | .read limit next, streams, machine =>
    match streams.input with
    | none => (next (.ok [])).run env streams machine
    | some source =>
      let (bytes, source, machine) := machine.read limit source
      (next bytes).run env { streams with input := some source } machine
  | .write bytes next, streams, machine =>
    match streams.output with
    | none => next.run env streams machine
    | some sink => next.run env streams (machine.write bytes sink)
  | .isDirectory path next, streams, machine =>
    (next (machine.tree.isDirectory (env.resolvePath path))).run env streams machine
  | .readFile path next, streams, machine =>
    (next (machine.tree.readFile [] (env.resolvePath path))).run env streams machine
  | .writeFile path bytes next, streams, machine =>
    match machine.tree.writeFile (env.resolvePath path) bytes with
    | .ok tree => (next (.ok ())).run env streams { machine with tree := tree }
    | .error cause => (next (.error cause)).run env streams machine
  | .time next, streams, machine => (next env.now).run env streams machine

def Machine.call (env : Environment) (name : Text) (app : Application) (args : List Text)
    (streams : Streams) (machine : Machine) : Except Failure Unit × Machine :=
  let call : Call := ⟨name, args, streams.input.map machine.rest⟩
  (app ⟨args, streams.input.isSome, streams.output.isSome⟩).run env streams
    { machine with calls := machine.calls ++ [call] }

end LineShell
