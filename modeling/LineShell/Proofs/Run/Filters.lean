import LineShell.Proofs.Run.Pipelines
import LineShell.Proofs.Run.Substitution
import LineShell.Proofs.Text.Decoding
import LineShell.Proofs.Tree.Creation
import Mathlib
/-!
# Filters

A filter reads one text and writes an edited one. Its text is that of a file that it names, of a
file that its input has been redirected from, or of the stream that it is fed with. What it does
with each of them is said here for all filters.
-/

namespace LineShell

namespace ShellM

variable {machine : Machine} {first second : ShellM Unit} {bytes output : Bytes} {e : ShellError}

/-- On a machine the action succeeds, adds bytes to the output and leaves the file tree as it
was. -/
def Writes (action : ShellM Unit) (machine : Machine) (output : Bytes) : Prop :=
  ∃ after, action machine = .ok () after ∧ after.stdout = machine.stdout ++ output ∧
    after.tree = machine.tree

/-- On a machine the action fails, adds nothing to the output and leaves the file tree as it was. -/
def Refuses (action : ShellM Unit) (machine : Machine) (e : ShellError) : Prop :=
  ∃ after, action machine = .error e after ∧ after.stdout = machine.stdout ∧
    after.tree = machine.tree

private theorem pipe_of_writes (h : first.Writes { machine with stdout := [] } bytes)
    (second : ShellM Unit) :
    ∃ (fed : Machine) (stdin : Option Bytes), fed.tree = machine.tree ∧
      fed.stdin = some bytes ∧ fed.stdout = machine.stdout ∧
      pipe first second machine =
        match second fed with
        | .ok _ after => .ok () { after with stdin := stdin }
        | .error e after => .error e { after with stdin := stdin } := by
  obtain ⟨middle, hrun, hbytes, htree⟩ := h
  rw [List.nil_append] at hbytes
  have hpipe := pipe_apply first second machine
  rw [hrun] at hpipe
  exact ⟨{ middle with stdin := some middle.stdout, stdout := machine.stdout }, middle.stdin, htree,
    congrArg some hbytes, rfl, hpipe⟩

theorem Writes.pipe (hfirst : first.Writes { machine with stdout := [] } bytes)
    (hsecond : ∀ fed : Machine, fed.tree = machine.tree → fed.stdin = some bytes →
      second.Writes fed output) :
    (pipe first second).Writes machine output := by
  obtain ⟨fed, stdin, htree, hstdin, hstdout, hpipe⟩ := pipe_of_writes hfirst second
  obtain ⟨after, hrun, houtput, hkept⟩ := hsecond fed htree hstdin
  rw [hrun] at hpipe
  exact ⟨_, hpipe, houtput.trans (by rw [hstdout]), hkept.trans htree⟩

theorem Refuses.pipe (hfirst : first.Writes { machine with stdout := [] } bytes)
    (hsecond : ∀ fed : Machine, fed.tree = machine.tree → fed.stdin = some bytes →
      second.Refuses fed e) :
    (pipe first second).Refuses machine e := by
  obtain ⟨fed, stdin, htree, hstdin, hstdout, hpipe⟩ := pipe_of_writes hfirst second
  obtain ⟨after, hrun, houtput, hkept⟩ := hsecond fed htree hstdin
  rw [hrun] at hpipe
  exact ⟨_, hpipe, houtput.trans hstdout, hkept.trans htree⟩

end ShellM

namespace Machine

/-- The text that a program reads: that of a file it names, with ill-formed parts replaced, or all
that is left of its input. -/
inductive Offers (env : Environment) (machine : Machine) (input : Option Source) :
    (file : Option Text) → Text → Prop
  | input {source : Source} {text : Text} :
      input = some source → machine.rest source = .ok text.utf8 → Offers env machine input none text
  | file {name path : Text} {bytes : Bytes} {units : List (Option Char)} :
      Path.StandsFor env.cwd name path → machine.tree.isDirectory path = false →
      machine.tree.readFile [] path = .ok bytes → Utf8.HasUnits bytes units →
      Offers env machine input (some name) (units.map (·.getD '\ufffd'))

@[simp] theorem rest_with_calls (machine : Machine) (calls : List Call) (source : Source) :
    ({ machine with calls := calls } : Machine).rest source = machine.rest source := by
  cases source <;> rfl

theorem Offers.with_calls {env : Environment} {machine : Machine} {input : Option Source}
    {file : Option Text} {text : Text} (h : machine.Offers env input file text)
    (calls : List Call) :
    Offers env { machine with calls := calls } input file text := by
  cases h with
  | input hsource hrest => exact .input hsource ((rest_with_calls machine calls _).trans hrest)
  | file hpath hdirectory hread hunits => exact .file hpath hdirectory hread hunits

private theorem advance_keeps (machine : Machine) (count : Nat) (source : Source) :
    (machine.advance count source).2.tree = machine.tree ∧
      (machine.advance count source).2.stdout = machine.stdout := by
  cases source <;> exact ⟨rfl, rfl⟩

private theorem rest_of_stdin {machine : Machine} {bytes : Bytes} (h : machine.stdin = some bytes) :
    machine.rest .stream = .ok bytes := by
  simp [rest, h]

private theorem rest_of_namesFile {machine : Machine} {path : Text} {location : Location}
    {content : Bytes} (h : machine.tree.NamesFile path location content) :
    machine.rest (.file location 0) = .ok content := by
  simp [rest, h.contentAt_eq]

end Machine

namespace Program

variable {env : Environment} {machine : Machine}

private theorem run_readText_source {call : Invocation} (hcall : call.hasInput = true)
    {source : Source} {bytes : Bytes} (h : machine.rest source = .ok bytes) (next : Text → Program)
    (output : Option Sink) :
    (readText call none next).run env ⟨some source, output⟩ machine =
      match Utf8.decode? bytes with
      | some text => (next text).run env ⟨some (machine.advance bytes.length source).1, output⟩
          (machine.advance bytes.length source).2
      | none => (.error (.inputText .invalidUtf8), (machine.advance bytes.length source).2) := by
  simp only [readText, readInputText, hcall, if_true, Program.run, Machine.read, h]
  cases Utf8.decode? bytes <;> rfl

private theorem run_readText_input {call : Invocation} (hcall : call.hasInput = true)
    {source : Source} {text : Text} (h : machine.rest source = .ok text.utf8)
    (next : Text → Program) (output : Option Sink) :
    (readText call none next).run env ⟨some source, output⟩ machine =
      (next text).run env ⟨some (machine.advance text.utf8.length source).1, output⟩
        (machine.advance text.utf8.length source).2 := by
  rw [run_readText_source hcall h, Utf8.decode?_utf8]

theorem run_readText (call : Invocation) {input : Option Source}
    (hcall : call.hasInput = input.isSome) {file : Option Text} {text : Text}
    (h : machine.Offers env input file text) (output : Option Sink) :
    ∃ source read, read.tree = machine.tree ∧ read.stdout = machine.stdout ∧
      ∀ next : Text → Program, (readText call file next).run env ⟨input, output⟩ machine =
        (next text).run env ⟨source, output⟩ read := by
  cases h with
  | @input source _ hsource hrest =>
    subst hsource
    obtain ⟨htree, hstdout⟩ := machine.advance_keeps text.utf8.length source
    exact ⟨_, _, htree, hstdout, fun next => run_readText_input hcall hrest next output⟩
  | @file _ path bytes units hpath hdirectory hread hunits =>
    obtain rfl : path = env.resolvePath _ := Path.standsFor_iff.1 hpath
    obtain rfl : Utf8.units bytes = units := Utf8.units_eq_iff.2 hunits
    refine ⟨input, machine, rfl, rfl, fun next => ?_⟩
    simp [readText, readNamed, Program.run, Utf8.decodeLossy, hdirectory, hread]

end Program

/-- With arguments before and after the name of a file the application is a filter: it writes the
edited text of that file, or of its input if no file is named. -/
structure Application.Filters (app : Application) (before after : List Text) (edit : Text → Text) :
    Prop where
  input : ∀ hasInput, app ⟨before ++ after, hasInput, true⟩ =
    .readText ⟨before ++ after, hasInput, true⟩ none fun text => .writeText (edit text) .exit
  file : ∀ name hasInput, name.head? ≠ some '-' →
    app ⟨before ++ name :: after, hasInput, true⟩ =
      .readText ⟨before ++ name :: after, hasInput, true⟩ (some name) fun text =>
        .writeText (edit text) .exit

private theorem Stage.run_reading {env : Environment} {name : Text} {app : Application}
    (happ : env.registry.find? name = some app) (args : List Text) {machine : Machine} {file : Text}
    {location : Location} {content : Bytes}
    (hfile : machine.tree.NamesFile (env.resolvePath file) location content) :
    Stage.run env ⟨name, args, some file, none⟩ machine =
      Stage.call env ⟨name, args, some file, none⟩ app
        ⟨some (.file location 0), some .stream⟩ machine := by
  simp [Stage.run, Stage.application, Stage.openInput, Stage.openOutput, happ, hfile.resolve_eq,
    hfile.isDirectoryAt_eq]

namespace Application.Filters

variable {env : Environment} {name file : Text} {app : Application} {before after : List Text}
  {edit : Text → Text} {machine : Machine} {location : Location} {bytes : Bytes} {text : Text}

private theorem call_source (h : app.Filters before after edit) (input output : Option Text)
    {source : Source} (hrest : machine.rest source = .ok bytes) :
    Stage.call env ⟨name, before ++ after, input, output⟩ app ⟨some source, some .stream⟩ machine =
      match Utf8.decode? bytes with
      | some text => .ok () { (machine.advance bytes.length source).2 with
          stdout := machine.stdout ++ (edit text).utf8
          calls := machine.calls ++ [⟨name, before ++ after, some (.ok bytes)⟩] }
      | none =>
        .error (.application name (.inputText .invalidUtf8))
          { (machine.advance bytes.length source).2 with
            calls := machine.calls ++ [⟨name, before ++ after, some (.ok bytes)⟩] } := by
  have hread : (Program.readText ⟨before ++ after, true, true⟩ none fun text =>
      .writeText (edit text) .exit).run env ⟨some source, some .stream⟩ { machine with
        calls := machine.calls ++ [⟨name, before ++ after, some (.ok bytes)⟩] } = _ :=
    Program.run_readText_source rfl ((machine.rest_with_calls _ source).trans hrest) _ _
  rw [← h.input] at hread
  simp only [Stage.call, Machine.call, Option.isSome_some, Option.map_some, hrest, hread]
  cases Utf8.decode? bytes with
  | none => cases source <;> rfl
  | some text => cases source <;> rfl

private theorem call_writes (h : app.Filters before after edit) (input output : Option Text)
    {source : Source} (hrest : machine.rest source = .ok text.utf8) :
    (Stage.call env ⟨name, before ++ after, input, output⟩ app ⟨some source, some .stream⟩).Writes
      machine (edit text).utf8 := by
  rw [ShellM.Writes, h.call_source input output hrest, Utf8.decode?_utf8]
  exact ⟨_, rfl, rfl, (machine.advance_keeps _ source).1⟩

private theorem call_refuses (h : app.Filters before after edit) (input output : Option Text)
    {source : Source} (hrest : machine.rest source = .ok bytes)
    (hbytes : ∀ text : Text, bytes ≠ text.utf8) :
    (Stage.call env ⟨name, before ++ after, input, output⟩ app ⟨some source, some .stream⟩).Refuses
      machine (.application name (.inputText .invalidUtf8)) := by
  rw [ShellM.Refuses, h.call_source input output hrest, Utf8.decode?_eq_none_iff.2 hbytes]
  obtain ⟨htree, hstdout⟩ := machine.advance_keeps bytes.length source
  exact ⟨_, rfl, hstdout, htree⟩

theorem run_stream (h : app.Filters before after edit) (happ : env.registry.find? name = some app)
    (hinput : machine.stdin = some text.utf8) :
    Stage.run env ⟨name, before ++ after, none, none⟩ machine = .ok () { machine with
      stdin := some []
      stdout := machine.stdout ++ (edit text).utf8
      calls := machine.calls ++ [⟨name, before ++ after, some (.ok text.utf8)⟩] } := by
  rw [Stage.run_plain happ, hinput, Option.map_some,
    h.call_source none none (Machine.rest_of_stdin hinput), Utf8.decode?_utf8]
  simp [Machine.advance, hinput]

theorem writes_stream (h : app.Filters before after edit)
    (happ : env.registry.find? name = some app) (hinput : machine.stdin = some text.utf8) :
    (Stage.run env ⟨name, before ++ after, none, none⟩).Writes machine (edit text).utf8 :=
  ⟨_, h.run_stream happ hinput, rfl, rfl⟩

theorem refuses_stream (h : app.Filters before after edit)
    (happ : env.registry.find? name = some app) (hinput : machine.stdin = some bytes)
    (hbytes : ∀ text : Text, bytes ≠ text.utf8) :
    (Stage.run env ⟨name, before ++ after, none, none⟩).Refuses machine
      (.application name (.inputText .invalidUtf8)) := by
  unfold ShellM.Refuses
  rw [Stage.run_plain happ, hinput]
  exact h.call_refuses none none (Machine.rest_of_stdin hinput) hbytes

theorem writes_redirected (h : app.Filters before after edit)
    (happ : env.registry.find? name = some app)
    (hfile : machine.tree.NamesFile (env.resolvePath file) location text.utf8) :
    (Stage.run env ⟨name, before ++ after, some file, none⟩).Writes machine (edit text).utf8 := by
  unfold ShellM.Writes
  rw [Stage.run_reading happ _ hfile]
  exact h.call_writes (some file) none (Machine.rest_of_namesFile hfile)

theorem refuses_redirected (h : app.Filters before after edit)
    (happ : env.registry.find? name = some app)
    (hfile : machine.tree.NamesFile (env.resolvePath file) location bytes)
    (hbytes : ∀ text : Text, bytes ≠ text.utf8) :
    (Stage.run env ⟨name, before ++ after, some file, none⟩).Refuses machine
      (.application name (.inputText .invalidUtf8)) := by
  unfold ShellM.Refuses
  rw [Stage.run_reading happ _ hfile]
  exact h.call_refuses (some file) none (Machine.rest_of_namesFile hfile) hbytes

theorem writes_named (h : app.Filters before after edit) (happ : env.registry.find? name = some app)
    (hplain : file.head? ≠ some '-')
    (hfile : machine.tree.NamesFile (env.resolvePath file) location bytes) :
    (Stage.run env ⟨name, before ++ file :: after, none, none⟩).Writes machine
      (edit (Utf8.decodeLossy bytes)).utf8 := by
  rw [ShellM.Writes, Stage.run_plain happ]
  generalize (machine.stdin.map fun _ => Source.stream) = input
  have hoffers : machine.Offers env input (some file) (Utf8.decodeLossy bytes) :=
    .file (Path.standsFor_iff.2 rfl) hfile.isDirectory_eq hfile.readFile_eq
      (Utf8.units_eq_iff.1 rfl)
  obtain ⟨source, read, htree, hstdout, hread⟩ :=
    Program.run_readText ⟨before ++ file :: after, input.isSome, true⟩ rfl
      (hoffers.with_calls
        (machine.calls ++ [⟨name, before ++ file :: after, input.map machine.rest⟩]))
      (some .stream)
  have hcall : machine.call env name app (before ++ file :: after) ⟨input, some .stream⟩ =
      (.ok (), read.write (edit (Utf8.decodeLossy bytes)).utf8 .stream) := by
    calc machine.call env name app (before ++ file :: after) ⟨input, some .stream⟩
      _ = (app ⟨before ++ file :: after, input.isSome, true⟩).run env ⟨input, some .stream⟩
          { machine with
            calls := machine.calls ++ [⟨name, before ++ file :: after, input.map machine.rest⟩] } :=
        rfl
      _ = (Program.writeText (edit (Utf8.decodeLossy bytes)) .exit).run env
          ⟨source, some .stream⟩ read := by
        rw [h.file file _ hplain, hread]
  refine ⟨read.write (edit (Utf8.decodeLossy bytes)).utf8 .stream, ?_, ?_, htree⟩
  · simp only [Stage.call, hcall]
  · exact congrArg (· ++ _) hstdout

end Application.Filters

section Pair

variable {env : Environment} {first second : Stage} {machine : Machine} {bytes output : Bytes}
  {e : ShellError}

theorem Stage.writes_pair (hfirst : (first.run env).Writes { machine with stdout := [] } bytes)
    (hsecond : ∀ fed : Machine, fed.tree = machine.tree → fed.stdin = some bytes →
      (second.run env).Writes fed output) :
    (Stage.runAll env [first, second]).Writes machine output := by
  rw [Stage.runAll_cons env first (by simp), Stage.runAll_singleton]
  exact hfirst.pipe hsecond

theorem Stage.refuses_pair (hfirst : (first.run env).Writes { machine with stdout := [] } bytes)
    (hsecond : ∀ fed : Machine, fed.tree = machine.tree → fed.stdin = some bytes →
      (second.run env).Refuses fed e) :
    (Stage.runAll env [first, second]).Refuses machine e := by
  rw [Stage.runAll_cons env first (by simp), Stage.runAll_singleton]
  exact ShellM.Refuses.pipe hfirst hsecond

end Pair

theorem Stage.writes_cat {env : Environment} {name : Text}
    (hcat : env.registry.find? name = some .cat) {machine : Machine} {file : Text}
    {location : Location} {bytes : Bytes}
    (hfile : machine.tree.NamesFile (env.resolvePath file) location bytes) :
    (Stage.run env ⟨name, [file], none, none⟩).Writes machine bytes := by
  refine ⟨{ machine with
    stdout := machine.stdout ++ bytes
    calls := machine.calls ++
      [⟨name, [file], (machine.stdin.map fun _ => Source.stream).map machine.rest⟩] }, ?_, rfl, rfl⟩
  rw [Stage.run_plain hcat]
  simp [Stage.call, Machine.call, Application.cat, Application.copyFiles, Program.needsOutput,
    Program.readNamed, Program.run, Machine.write, hfile.isDirectory_eq, hfile.readFile_eq]

end LineShell
