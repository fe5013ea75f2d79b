import LineShell.Run.Machine
/-!
# Stages

A stage is a command ready to run: the name of an application, its arguments and its redirections.
The stages of a pipeline run one after the other, and each reads all that the one before it has
written.
-/

namespace LineShell

/-- An action on a machine. If it fails, what it has done stays done. -/
abbrev ShellM := EStateM ShellError Machine

namespace ShellM

def ofTree {α : Type} (question : FileTree → Except ShellError α) : ShellM α := fun machine =>
  match question machine.tree with
  | .ok a => .ok a machine
  | .error e => .error e machine

/-- Run an action with an output of its own, and return what it writes. -/
def collecting (action : ShellM Unit) : ShellM Bytes := fun machine =>
  match action { machine with stdout := [] } with
  | .ok _ after => .ok after.stdout { after with stdout := machine.stdout }
  | .error e after => .error e { after with stdout := machine.stdout }

/-- Run an action with an input of its own, or with none. -/
def feeding {α : Type} (input : Option Bytes) (action : ShellM α) : ShellM α := fun machine =>
  match action { machine with stdin := input } with
  | .ok a after => .ok a { after with stdin := machine.stdin }
  | .error e after => .error e { after with stdin := machine.stdin }

end ShellM

structure Stage where
  app : Text
  args : List Text
  input : Option Text
  output : Option Text
  deriving DecidableEq, Repr

namespace Stage

def application (env : Environment) (stage : Stage) : ShellM Application :=
  match env.registry.find? stage.app with
  | some app => pure app
  | none => throw (.unknownApp stage.app)

def openInput (env : Environment) (stage : Stage) : ShellM (Option Source) := fun machine =>
  match stage.input with
  | none => .ok (machine.stdin.map fun _ => .stream) machine
  | some path =>
    match machine.tree.resolve [] (env.resolvePath path) with
    | .error cause => .error (.redirection path cause) machine
    | .ok location =>
      .ok (some (if machine.tree.isDirectoryAt location then .directory else .file location 0))
        machine

/-- Open the stage's output; a file there is created or emptied. -/
def openOutput (env : Environment) (stage : Stage) : ShellM Sink := fun machine =>
  match stage.output with
  | none => .ok .stream machine
  | some path =>
    match machine.tree.create (env.resolvePath path) with
    | .error cause => .error (.redirection path cause) machine
    | .ok (location, tree) => .ok (.file location) { machine with tree := tree }

def call (env : Environment) (stage : Stage) (app : Application) (streams : Streams) :
    ShellM Unit :=
  fun machine =>
    match machine.call env stage.app app stage.args streams with
    | (.ok _, after) => .ok () after
    | (.error failure, after) => .error (.application stage.app failure) after

/-- Run a stage: find its application, open its input, then its output, and call the application. -/
def run (env : Environment) (stage : Stage) : ShellM Unit := do
  let app ← stage.application env
  let input ← stage.openInput env
  let output ← stage.openOutput env
  stage.call env app ⟨input, some output⟩

/-- Run the stage at an index on the output that has been carried to it. Where nothing has been
carried, the first stage reads the machine's input, and another one has no input. -/
def runCarried (env : Environment) (index : Nat) (carried : Option Bytes) (stage : Stage) :
    ShellM Unit :=
  match carried with
  | some previous => ShellM.feeding (some previous) (stage.run env)
  | none => if index = 0 then stage.run env else ShellM.feeding none (stage.run env)

/-- Run the stages from an index on. The stage at the last index writes to the machine's output; an
earlier one writes to a buffer, which is carried to the next stage. -/
def runFrom (env : Environment) (last : Nat) :
    (index : Nat) → (carried : Option Bytes) → List Stage → ShellM Unit
  | _, _, [] => pure ()
  | index, carried, stage :: stages =>
    if index = last then do
      stage.runCarried env index carried
      runFrom env last (index + 1) none stages
    else do
      let buffer ← ShellM.collecting (stage.runCarried env index carried)
      runFrom env last (index + 1) (some buffer) stages

def runAll (env : Environment) (stages : List Stage) : ShellM Unit :=
  runFrom env (stages.length - 1) 0 none stages

end Stage

end LineShell
