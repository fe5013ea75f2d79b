import LineShell.Run.Evaluation
/-!
# What actions do and what they leave as it was

How a step of an action can end, and how a stage can. A program makes no calls, so that calling an
application adds one call. A capture has an input and an output of its own and leaves those of the
machine alone.
-/

namespace LineShell

/-- The built-in applications in the directory `/w`, at the start of 1970. -/
def Environment.builtin : Environment where
  cwd := "/w".toList
  hidden := false
  registry := .builtin
  now := ⟨0, 0⟩

def Environment.probed : Environment :=
  { Environment.builtin with registry := Registry.builtin.register ['p'] (.probe ['p'] false) }

namespace ShellM

@[simp] theorem pure_apply {α : Type} (a : α) (machine : Machine) :
    (pure a : ShellM α) machine = .ok a machine :=
  rfl

@[simp] theorem throw_apply {α : Type} (e : ShellError) (machine : Machine) :
    (throw e : ShellM α) machine = .error e machine :=
  rfl

@[simp] theorem bind_apply {α β : Type} (action : ShellM α) (next : α → ShellM β)
    (machine : Machine) :
    (action >>= next) machine =
      match action machine with
      | .ok a after => next a after
      | .error e after => .error e after := by
  change EStateM.bind action next machine = _
  unfold EStateM.bind
  cases action machine <;> rfl

/-- The machine after an action, be it successful or not. -/
def final {α : Type} (action : ShellM α) (machine : Machine) : Machine :=
  match action machine with
  | .ok _ after => after
  | .error _ after => after

end ShellM

namespace Machine

@[simp] theorem calls_write (machine : Machine) (bytes : Bytes) (sink : Sink) :
    (machine.write bytes sink).calls = machine.calls := by
  cases sink <;> rfl

@[simp] theorem calls_read (machine : Machine) (limit : Option Nat) (source : Source) :
    (machine.read limit source).2.2.calls = machine.calls := by
  unfold Machine.read
  cases source <;> rfl

end Machine

@[simp] theorem Program.calls_run (env : Environment) (program : Program) (streams : Streams)
    (machine : Machine) : (program.run env streams machine).2.calls = machine.calls := by
  induction program generalizing streams machine with
  | exit => rfl
  | fail failure => rfl
  | read limit next ih =>
    rw [Program.run]
    split
    · exact ih (.ok []) streams machine
    · rename_i source _
      rw [ih, Machine.calls_read]
  | write bytes next ih =>
    rw [Program.run]
    split
    · exact ih streams machine
    · rw [ih, Machine.calls_write]
  | isDirectory path next ih => exact ih _ streams machine
  | readFile path next ih => exact ih _ streams machine
  | writeFile path bytes next ih =>
    rw [Program.run]
    split
    · rw [ih]
    · rw [ih]
  | time next ih => exact ih env.now streams machine

namespace Stage

theorem calls_call (env : Environment) (stage : Stage) (app : Application) (streams : Streams)
    (machine : Machine) :
    ((stage.call env app streams).final machine).calls =
      machine.calls ++ [⟨stage.app, stage.args, streams.input.map machine.rest⟩] := by
  have hcalls : (machine.call env stage.app app stage.args streams).2.calls =
      machine.calls ++ [⟨stage.app, stage.args, streams.input.map machine.rest⟩] := by
    rw [Machine.call, Program.calls_run]
  unfold ShellM.final Stage.call
  cases hresult : machine.call env stage.app app stage.args streams with
  | mk outcome after =>
    rw [hresult] at hcalls
    cases outcome <;> exact hcalls

variable {env : Environment} {stage : Stage} {machine after : Machine}

private theorem openInput_cases (env : Environment) (stage : Stage) (machine : Machine) :
    (∃ path cause, stage.openInput env machine = .error (.redirection path cause) machine) ∨
      ∃ input, stage.openInput env machine = .ok input machine := by
  unfold openInput
  split
  · exact .inr ⟨_, rfl⟩
  · split
    · exact .inl ⟨_, _, rfl⟩
    · exact .inr ⟨_, rfl⟩

private theorem openOutput_cases (env : Environment) (stage : Stage) (machine : Machine) :
    (∃ path cause, stage.openOutput env machine = .error (.redirection path cause) machine) ∨
      ∃ sink opened, stage.openOutput env machine = .ok sink opened := by
  unfold openOutput
  split
  · exact .inr ⟨_, _, rfl⟩
  · split
    · exact .inl ⟨_, _, rfl⟩
    · exact .inr ⟨_, _, rfl⟩

theorem openInput_isSome (hstdin : machine.stdin.isSome) {input : Option Source}
    (h : stage.openInput env machine = .ok input after) : input.isSome := by
  unfold openInput at h
  split at h
  · cases h
    simpa using hstdin
  · split at h
    · cases h
    · cases h
      rfl

theorem openOutput_eq_ok {sink : Sink} (h : stage.openOutput env machine = .ok sink after) :
    after = { machine with tree := after.tree } ∧
      (stage.output = none → sink = .stream ∧ after = machine) := by
  unfold openOutput at h
  split at h
  · cases h
    exact ⟨rfl, fun _ => ⟨rfl, rfl⟩⟩
  · rename_i path hpath
    split at h
    · cases h
    · cases h
      refine ⟨rfl, fun hnone => ?_⟩
      rw [hpath] at hnone
      cases hnone

/-- A stage fails before anything has happened, or it opens its files and calls its application. -/
theorem run_cases (env : Environment) (stage : Stage) (machine : Machine) :
    (∃ e, stage.run env machine = .error e machine ∧
      (e = .unknownApp stage.app ∨ ∃ path cause, e = .redirection path cause)) ∨
    ∃ app input sink opened, env.registry.find? stage.app = some app ∧
      stage.openInput env machine = .ok input machine ∧
        stage.openOutput env machine = .ok sink opened ∧
      stage.run env machine = stage.call env app ⟨input, some sink⟩ opened := by
  unfold run application
  simp only [ShellM.bind_apply]
  cases hfind : env.registry.find? stage.app with
  | none => exact .inl ⟨_, rfl, .inl rfl⟩
  | some app =>
    simp only [ShellM.pure_apply]
    obtain ⟨path, cause, hinput⟩ | ⟨input, hinput⟩ := openInput_cases env stage machine
    · simp only [hinput]
      exact .inl ⟨_, rfl, .inr ⟨path, cause, rfl⟩⟩
    · simp only [hinput]
      obtain ⟨path, cause, houtput⟩ | ⟨sink, opened, houtput⟩ := openOutput_cases env stage machine
      · simp only [houtput]
        exact .inl ⟨_, rfl, .inr ⟨path, cause, rfl⟩⟩
      · simp only [houtput]
        exact .inr ⟨app, input, sink, opened, rfl, rfl, rfl, rfl⟩

end Stage

namespace ShellM

section Inversion

variable {α β : Type} {machine after : Machine} {e : ShellError}

theorem bind_eq_ok {action : ShellM α} {next : α → ShellM β} {b : β}
    (h : (action >>= next) machine = .ok b after) :
    ∃ a middle, action machine = .ok a middle ∧ next a middle = .ok b after := by
  rw [bind_apply] at h
  split at h
  · rename_i a middle haction
    exact ⟨a, middle, haction, h⟩
  · cases h

theorem bind_eq_error {action : ShellM α} {next : α → ShellM β}
    (h : (action >>= next) machine = .error e after) :
    action machine = .error e after ∨ ∃ a middle, action machine = .ok a middle ∧
      next a middle = .error e after := by
  rw [bind_apply] at h
  split at h
  · rename_i a middle haction
    exact .inr ⟨a, middle, haction, h⟩
  · rename_i haction
    cases h
    exact .inl haction

theorem ofTree_eq_ok {question : FileTree → Except ShellError α} {a : α}
    (h : ofTree question machine = .ok a after) :
    question machine.tree = .ok a ∧ after = machine := by
  unfold ofTree at h
  split at h
  · rename_i hanswer
    cases h
    exact ⟨hanswer, rfl⟩
  · cases h

theorem ofTree_eq_error {question : FileTree → Except ShellError α}
    (h : ofTree question machine = .error e after) :
    question machine.tree = .error e ∧ after = machine := by
  unfold ofTree at h
  split at h
  · cases h
  · rename_i hanswer
    cases h
    exact ⟨hanswer, rfl⟩

end Inversion

theorem final_map {α β : Type} (f : α → β) (action : ShellM α) (machine : Machine) :
    ShellM.final (do return f (← action)) machine = action.final machine := by
  simp only [final, bind_apply, pure_apply]
  cases action machine <;> rfl

theorem final_bind_of_ok {α β : Type} {action : ShellM α} {next : α → ShellM β}
    {machine middle : Machine} {a : α} (h : action machine = .ok a middle) :
    (action >>= next).final machine = (next a).final middle := by
  simp only [final, bind_apply, h]

@[simp] theorem stdout_collecting (action : ShellM Unit) (machine : Machine) :
    ((collecting action).final machine).stdout = machine.stdout := by
  unfold final collecting
  cases action { machine with stdout := [] } <;> rfl

theorem stdin_collecting {action : ShellM Unit}
    (h : ∀ machine, (action.final machine).stdin = machine.stdin) (machine : Machine) :
    ((collecting action).final machine).stdin = machine.stdin := by
  have haction := h { machine with stdout := [] }
  unfold final collecting at *
  cases hresult : action { machine with stdout := [] } <;> simpa [hresult] using haction

@[simp] theorem stdin_feeding {α : Type} (input : Option Bytes) (action : ShellM α)
    (machine : Machine) : ((feeding input action).final machine).stdin = machine.stdin := by
  unfold final feeding
  cases action { machine with stdin := input } <;> rfl

end ShellM

theorem runLine_of_ofLine {env : Environment} {line : Text} {machine : Machine}
    {pipelines : List Pipeline}
    (h : Pipeline.ofLine env.toScope machine.tree line = .ok pipelines) :
    runLine env line machine = pipelines.forM (Pipeline.run env (capture env)) machine := by
  simp only [runLine, runLineWith, ShellM.ofTree, ShellM.bind_apply, h]

end LineShell
