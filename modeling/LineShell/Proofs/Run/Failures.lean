import LineShell.Proofs.Run.Captures
import LineShell.Proofs.Run.Files
import LineShell.Proofs.Run.Pipelines
import Mathlib
/-!
# What a failing line leaves behind

Only the last application of a pipeline writes to the output, and only it can change files: the
commands in back-quotes apart, whatever fails before it is started leaves no trace. Main statement:
a line that fails has written exactly what the last applications of the pipelines before the failing
one wrote, and then what that of the failing one wrote, if it was started; if it was not, the files
are as the captures of that pipeline left them.
-/

namespace LineShell

/-- The bytes that a program writes to its output, in order, until it ends. -/
def Program.written (env : Environment) : Program → Streams → Machine → Bytes
  | .exit, _, _ => []
  | .fail _, _, _ => []
  | .read limit next, streams, machine =>
    match streams.input with
    | none => (next (.ok [])).written env streams machine
    | some source =>
      let (bytes, source, machine) := machine.read limit source
      (next bytes).written env { streams with input := some source } machine
  | .write bytes next, streams, machine =>
    match streams.output with
    | none => bytes ++ next.written env streams machine
    | some sink => bytes ++ next.written env streams (machine.write bytes sink)
  | .isDirectory path next, streams, machine =>
    (next (machine.tree.isDirectory (env.resolvePath path))).written env streams machine
  | .readFile path next, streams, machine =>
    (next (machine.tree.readFile [] (env.resolvePath path))).written env streams machine
  | .writeFile path bytes next, streams, machine =>
    match machine.tree.writeFile (env.resolvePath path) bytes with
    | .ok tree => (next (.ok ())).written env streams { machine with tree := tree }
    | .error cause => (next (.error cause)).written env streams machine
  | .time next, streams, machine => (next env.now).written env streams machine

@[simp] theorem Machine.stdout_read (machine : Machine) (limit : Option Nat) (source : Source) :
    (machine.read limit source).2.2.stdout = machine.stdout := by
  unfold Machine.read
  cases source <;> rfl

private theorem Program.stdout_run (env : Environment) (program : Program) (streams : Streams)
    (machine : Machine) :
    (program.run env streams machine).2.stdout =
      machine.stdout ++
        if streams.output = some .stream then program.written env streams machine else [] := by
  induction program generalizing streams machine with
  | exit => simp [Program.run, Program.written]
  | fail failure => simp [Program.run, Program.written]
  | read limit next ih =>
    rw [Program.run, Program.written]
    cases hinput : streams.input with
    | none => exact ih _ streams machine
    | some source =>
      dsimp only
      rw [ih, Machine.stdout_read]
  | write bytes next ih =>
    rw [Program.run, Program.written]
    cases houtput : streams.output with
    | none => simp [ih, houtput]
    | some sink => cases sink <;> simp [ih, houtput, Machine.write]
  | isDirectory path next ih => exact ih _ streams machine
  | readFile path next ih => exact ih _ streams machine
  | writeFile path bytes next ih =>
    rw [Program.run, Program.written]
    cases machine.tree.writeFile (env.resolvePath path) bytes with
    | ok tree => exact ih _ streams _
    | error cause => exact ih _ streams machine
  | time next ih => exact ih _ streams machine

namespace Stage

/-- The start of an application: the stage that calls it, what it is attached to, and the machine on
which its call has been recorded. -/
structure Start where
  stage : Stage
  app : Application
  streams : Streams
  machine : Machine

namespace Start

def program (start : Start) : Program :=
  start.app ⟨start.stage.args, start.streams.input.isSome, start.streams.output.isSome⟩

/-- What the application adds to the machine's output: the bytes that it writes, unless its stage
has a file to write. -/
def shown (env : Environment) (start : Start) : Bytes :=
  if start.stage.output.isSome then [] else start.program.written env start.streams start.machine

def FailsWith (env : Environment) (start : Start) (e : ShellError) : Prop :=
  ∃ failure, (start.program.run env start.streams start.machine).1 = .error failure ∧
    e = .application start.stage.app failure

end Start

/-- A stage starts its application: it is found, and the stage's files can be opened. -/
inductive Starts (env : Environment) (stage : Stage) (before : Machine) : Start → Prop
  | mk {app : Application} {input : Option Source} {sink : Sink} {opened : Machine} :
      env.registry.find? stage.app = some app → stage.openInput env before = .ok input before →
      stage.openOutput env before = .ok sink opened →
      Starts env stage before ⟨stage, app, ⟨input, some sink⟩,
        { opened with calls := opened.calls ++ [⟨stage.app, stage.args, input.map opened.rest⟩] }⟩

/-- The stages before the last of a pipeline succeed, and the last one runs on the machine `fed`. -/
inductive Feeds (env : Environment) : (initial : List Stage) → (before fed : Machine) → Prop
  | first {before : Machine} : Feeds env [] before before
  | later {initial : List Stage} {before piped : Machine} :
      initial ≠ [] → runAll env initial { before with stdout := [] } = .ok () piped →
      Feeds env initial before { piped with stdin := some piped.stdout, stdout := before.stdout }

def LastStarts (env : Environment) (stages : List Stage) (before : Machine) (start : Start) :
    Prop :=
  ∃ initial stage fed, stages = initial ++ [stage] ∧ Feeds env initial before fed ∧
    stage.Starts env fed start

variable {env : Environment} {stage : Stage} {before : Machine} {start : Start}

theorem Starts.run (h : stage.Starts env before start) :
    stage.run env before =
      match start.program.run env start.streams start.machine with
      | (.ok _, after) => .ok () after
      | (.error failure, after) => .error (.application start.stage.app failure) after := by
  cases h with
  | mk hfind hinput houtput =>
    simp only [Stage.run, application, hfind, ShellM.bind_apply, ShellM.pure_apply, hinput, houtput]
    rfl

/-- A stage starts its application, or it fails and nothing has happened. -/
theorem starts_or_fails (env : Environment) (stage : Stage) (before : Machine) :
    (∃ start, stage.Starts env before start) ∨
      (∀ start, ¬stage.Starts env before start) ∧ ∃ e, stage.run env before = .error e before := by
  obtain ⟨e, hrun, hcause⟩ | ⟨app, input, sink, opened, hfind, hinput, houtput, -⟩ :=
    run_cases env stage before
  · refine .inr ⟨fun start hstart => ?_, e, hrun⟩
    have hstarted := hstart.run
    rw [hrun] at hstarted
    split at hstarted
    · cases hstarted
    · cases hstarted
      rcases hcause with hcause | ⟨path, cause, hcause⟩ <;> cases hcause
  · exact .inl ⟨_, .mk hfind hinput houtput⟩

private theorem exists_file_of_openOutput {path : Text} {sink : Sink} {after : Machine}
    (hpath : stage.output = some path) (h : stage.openOutput env before = .ok sink after) :
    ∃ location, sink = .file location := by
  simp only [openOutput, hpath] at h
  split at h
  · cases h
  · cases h
    exact ⟨_, rfl⟩

private theorem Starts.stdout_final (h : stage.Starts env before start) :
    ((stage.run env).final before).stdout = before.stdout ++ start.shown env := by
  have hresult : ((stage.run env).final before).stdout =
      (start.program.run env start.streams start.machine).2.stdout := by
    rw [ShellM.final, h.run]
    cases hprogram : start.program.run env start.streams start.machine with
    | mk outcome after => cases outcome <;> rfl
  rw [hresult, Program.stdout_run]
  cases h with
  | @mk app input sink opened hfind hinput houtput =>
    have hstdout : opened.stdout = before.stdout := by rw [(openOutput_eq_ok houtput).1]
    dsimp only
    rw [hstdout]
    congr 1
    cases hfile : stage.output with
    | none =>
      obtain ⟨rfl, -⟩ := (openOutput_eq_ok houtput).2 hfile
      simp [Start.shown, hfile]
    | some path =>
      obtain ⟨location, rfl⟩ := exists_file_of_openOutput hfile houtput
      simp [Start.shown, hfile]

private theorem Starts.failsWith (h : stage.Starts env before start) {e : ShellError}
    {after : Machine} (herror : stage.run env before = .error e after) : start.FailsWith env e := by
  rw [h.run] at herror
  cases hprogram : start.program.run env start.streams start.machine with
  | mk outcome machine =>
    rw [hprogram] at herror
    cases outcome with
    | ok _ => cases herror
    | error failure =>
      cases herror
      exact ⟨failure, by rw [hprogram], rfl⟩

variable {initial : List Stage} {fed : Machine}

theorem Feeds.runAll (h : Feeds env initial before fed) (last : Stage) :
    ∃ stdin : Machine → Option Bytes, Stage.runAll env (initial ++ [last]) before =
      match last.run env fed with
      | .ok _ after => .ok () { after with stdin := stdin after }
      | .error e after => .error e { after with stdin := stdin after } := by
  cases h with
  | first =>
    refine ⟨Machine.stdin, ?_⟩
    rw [List.nil_append, Stage.runAll_singleton]
    cases last.run env before <;> rfl
  | @later _ _ piped hne hinitial =>
    refine ⟨fun _ => piped.stdin, ?_⟩
    have hpipe := ShellM.pipe_apply (Stage.runAll env initial) (last.run env) before
    rw [hinitial] at hpipe
    rw [runAll_append env hne (List.cons_ne_nil last []), runAll_singleton]
    exact hpipe

theorem Feeds.unique {other : Machine} (h : Feeds env initial before fed)
    (hother : Feeds env initial before other) : other = fed := by
  cases h with
  | first =>
    cases hother with
    | first => rfl
    | later hne _ => exact absurd rfl hne
  | later hne hrun =>
    cases hother with
    | first => exact absurd rfl hne
    | later _ hrun' =>
      rw [hrun] at hrun'
      cases hrun'
      rfl

section Applications

variable (happs : ∀ name app, env.registry.find? name = some app → app.WritesNoFile)
include happs

/-- The stages before the last succeed, or the pipeline fails; either way nothing is written by
them. -/
theorem feeds_or_fails (houtput : ∀ stage ∈ initial, stage.output = none) (last : Stage)
    (before : Machine) :
    (∃ fed, Feeds env initial before fed ∧ fed.tree = before.tree ∧ fed.stdout = before.stdout) ∨
      (∀ fed, ¬Feeds env initial before fed) ∧
        ∃ e after, runAll env (initial ++ [last]) before = .error e after ∧
          after.tree = before.tree ∧ after.stdout = before.stdout := by
  by_cases hinitial : initial = []
  · subst hinitial
    exact .inl ⟨before, .first, rfl, rfl⟩
  have hkeep : (runAll env initial).Obeys .keepTree :=
    runAll_obeys Rules.keepTree_ignoreStreams fun stage hstage =>
      run_keepTree happs (houtput stage hstage)
  cases hrun : runAll env initial { before with stdout := [] } with
  | ok _ piped =>
    have htree := hkeep.of_ok hrun
    exact .inl ⟨_, .later hinitial hrun, htree, rfl⟩
  | error e after =>
    refine .inr ⟨fun fed hfed => ?_, e, { after with stdout := before.stdout }, ?_,
      (hkeep.of_error hrun).1, rfl⟩
    · cases hfed with
      | first => exact hinitial rfl
      | later _ hok =>
        rw [hrun] at hok
        cases hok
    · rw [runAll_append env hinitial (List.cons_ne_nil last []), ShellM.pipe_apply, hrun]

private theorem lastStarts_or_fails (houtput : ∀ stage ∈ initial, stage.output = none)
    (last : Stage) (before : Machine) :
    (∃ start, LastStarts env (initial ++ [last]) before start ∧
      ((runAll env (initial ++ [last])).final before).stdout = before.stdout ++ start.shown env ∧
      ∀ e after, runAll env (initial ++ [last]) before = .error e after → start.FailsWith env e) ∨
    (∀ start, ¬LastStarts env (initial ++ [last]) before start) ∧
      ∃ e after, runAll env (initial ++ [last]) before = .error e after ∧ after.tree = before.tree ∧
        after.stdout = before.stdout := by
  have hsplit {start : Start} (h : LastStarts env (initial ++ [last]) before start) :
      ∃ fed, Feeds env initial before fed ∧ last.Starts env fed start := by
    obtain ⟨initial', last', fed, heq, hfed, hstart⟩ := h
    obtain ⟨rfl, hlast⟩ := List.append_inj' heq rfl
    cases hlast
    exact ⟨fed, hfed, hstart⟩
  obtain ⟨fed, hfed, htree, hstdout⟩ | ⟨hfeeds, hfail⟩ := feeds_or_fails happs houtput last before
  · obtain ⟨stdin, hrun⟩ := hfed.runAll last
    obtain ⟨start, hstart⟩ | ⟨hnone, e, hlast⟩ := starts_or_fails env last fed
    · refine .inl ⟨start, ⟨initial, last, fed, rfl, hfed, hstart⟩, ?_, ?_⟩
      · have hshown := hstart.stdout_final
        rw [hstdout] at hshown
        rw [← hshown, ShellM.final, ShellM.final, hrun]
        cases last.run env fed <;> rfl
      · intro e after herror
        rw [hrun] at herror
        cases hlast : last.run env fed with
        | ok _ ended =>
          rw [hlast] at herror
          cases herror
        | error cause ended =>
          rw [hlast] at herror
          cases herror
          exact hstart.failsWith hlast
    · refine .inr ⟨fun start hstart => ?_, e, { fed with stdin := stdin fed }, ?_, htree, hstdout⟩
      · obtain ⟨other, hother, hlater⟩ := hsplit hstart
        rw [hfed.unique hother] at hlater
        exact hnone start hlater
      · rw [hrun, hlast]
  · refine .inr ⟨fun start hstart => ?_, hfail⟩
    obtain ⟨fed, hfed, -⟩ := hsplit hstart
    exact hfeeds fed hfed

end Applications

end Stage

namespace Pipeline

/-- A pipeline starts its last application: all of its commands can be expanded, and the last stage
starts. -/
def Starts (env : Environment) (pipeline : Pipeline) (before : Machine) (start : Stage.Start) :
    Prop :=
  ∃ stages expanded, expand env.toScope (capture env) pipeline before = .ok stages expanded ∧
    Stage.LastStarts env stages expanded start

/-- Pipelines succeed one after the other, and `shown` is what their last applications have written
to the output. -/
inductive Succeed (env : Environment) : List Pipeline → (before : Machine) → (shown : Bytes) →
    (after : Machine) → Prop
  | nil {machine : Machine} : Succeed env [] machine [] machine
  | cons {pipeline : Pipeline} {pipelines : List Pipeline} {before middle after : Machine}
      {start : Stage.Start} {shown : Bytes} :
      Starts env pipeline before start → run env (capture env) pipeline before = .ok () middle →
      Succeed env pipelines middle shown after →
      Succeed env (pipeline :: pipelines) before (start.shown env ++ shown) after

variable {env : Environment} {pipeline : Pipeline}

private theorem exists_last_of_expand {before expanded : Machine} {stages : List Stage}
    (hpipeline : IsWellFormed pipeline)
    (h : expand env.toScope (capture env) pipeline before = .ok stages expanded) :
    ∃ initial last, stages = initial ++ [last] ∧ ∀ stage ∈ initial, stage.output = none := by
  have hfiles := files_of_expand h
  have hne : stages ≠ [] := by
    rintro rfl
    exact hpipeline.ne_nil (List.forall₂_nil_right_iff.1 hfiles)
  refine ⟨stages.dropLast, stages.getLast hne, (List.dropLast_append_getLast hne).symm,
    fun stage hstage => ?_⟩
  have hinitial := List.forall₂_take (stages.length - 1) hfiles
  rw [← List.dropLast_eq_take, ← hfiles.length_eq, ← List.dropLast_eq_take] at hinitial
  obtain ⟨command, hcommand, -, hfile⟩ := exists_of_mem_right hinitial hstage
  rw [hfile, hpipeline.output command hcommand]

section Applications

variable (happs : ∀ name app, env.registry.find? name = some app → app.WritesNoFile)
include happs

/-- A well-formed pipeline starts its last application, and then its output is what that application
shows, or it fails with nothing written and no file changed but by its captures. -/
theorem starts_or_fails (hpipeline : IsWellFormed pipeline) (before : Machine) :
    (∃ start, Starts env pipeline before start ∧
      ((run env (capture env) pipeline).final before).stdout = before.stdout ++ start.shown env ∧
      ∀ e after, run env (capture env) pipeline before = .error e after → start.FailsWith env e) ∨
    (∀ start, ¬Starts env pipeline before start) ∧
      ∃ e after, run env (capture env) pipeline before = .error e after ∧
        after.stdout = before.stdout ∧ ∃ evaluated unevaluated,
          captured pipeline = evaluated ++ unevaluated ∧
            (evaluated.mapM (capture env)).final before =
            (expand env.toScope (capture env) pipeline).final before ∧
          after.tree = ((evaluated.mapM (capture env)).final before).tree := by
  have hevaluates := expand_evaluates env.toScope (capture env) pipeline
  have hstreams := expand_keepStreams env pipeline
  cases hexpand : expand env.toScope (capture env) pipeline before with
  | error e after =>
    obtain ⟨evaluated, unevaluated, hcaptured, hfinal⟩ := hevaluates.of_error hexpand
    refine .inr ⟨?_, e, after, ?_, (hstreams.of_error hexpand).1.2, evaluated, unevaluated,
      hcaptured, ?_, ?_⟩
    · rintro start ⟨stages, expanded, hok, -⟩
      rw [hexpand] at hok
      cases hok
    · simp only [run, ShellM.bind_apply, hexpand]
    · rw [hfinal, ShellM.final, hexpand]
    · rw [hfinal]
  | ok stages expanded =>
    have hstdout : expanded.stdout = before.stdout := (hstreams.of_ok hexpand).2
    have hrun : run env (capture env) pipeline before = Stage.runAll env stages expanded := by
      simp only [run, ShellM.bind_apply, hexpand]
    obtain ⟨initial, last, rfl, houtput⟩ := exists_last_of_expand hpipeline hexpand
    obtain ⟨start, hstart, hshown, herror⟩ | ⟨hnone, e, after, hfail, htree, hafter⟩ :=
      Stage.lastStarts_or_fails happs houtput last expanded
    · refine .inl ⟨start, ⟨_, expanded, hexpand, hstart⟩, ?_, ?_⟩
      · rw [← hstdout, ← hshown, ShellM.final, ShellM.final, hrun]
      · rw [hrun]
        exact herror
    · obtain ⟨outputs, houtputs⟩ := hevaluates.of_ok hexpand
      have hfinal : ((captured pipeline).mapM (capture env)).final before = expanded := by
        rw [ShellM.final, houtputs]
      refine .inr ⟨?_, e, after, hrun.trans hfail, hafter.trans hstdout, captured pipeline, [],
        (List.append_nil _).symm, ?_, ?_⟩
      · rintro start ⟨stages, expanded', hok, hstart⟩
        rw [hexpand] at hok
        cases hok
        exact hnone start hstart
      · rw [hfinal, ShellM.final, hexpand]
      · rw [hfinal, htree]

private theorem succeed_of_forM {pipelines : List Pipeline}
    (hpipelines : ∀ pipeline ∈ pipelines, IsWellFormed pipeline) {before after : Machine}
    (h : pipelines.forM (run env (capture env)) before = .ok () after) :
    ∃ shown, Succeed env pipelines before shown after ∧ after.stdout = before.stdout ++ shown := by
  induction pipelines generalizing before with
  | nil =>
    cases h
    exact ⟨[], .nil, (List.append_nil _).symm⟩
  | cons pipeline pipelines ih =>
    obtain ⟨_, middle, hfirst, hrest⟩ := ShellM.bind_eq_ok h
    obtain ⟨shown, hsucceed, hafter⟩ :=
      ih (fun other hother => hpipelines other (List.mem_cons_of_mem _ hother)) hrest
    obtain ⟨start, hstart, hstdout, -⟩ | ⟨-, e, failed, herror, -⟩ :=
      starts_or_fails happs (hpipelines pipeline List.mem_cons_self) before
    · rw [ShellM.final, hfirst] at hstdout
      refine ⟨start.shown env ++ shown, .cons hstart hfirst hsucceed, ?_⟩
      rw [hafter, hstdout, List.append_assoc]
    · rw [hfirst] at herror
      cases herror

end Applications

end Pipeline

/-- What a failing line leaves behind, if no application writes files of its own. The pipelines
before the failing one have succeeded, those after it are not run, and the output holds what the
last applications of the former have written. If the failing pipeline started its last application,
then what that wrote to the output follows, and it is this application that failed. Otherwise
nothing follows, and the files are as the evaluated captures of the pipeline left them. -/
theorem runLine_failure_leaves (env : Environment) (line : Text) (machine after : Machine)
    (pipelines : List Pipeline) (e : ShellError)
    (happs : ∀ name app, env.registry.find? name = some app → app.WritesNoFile)
    (hread : Pipeline.ofLine env.toScope machine.tree line = .ok pipelines)
    (h : runLine env line machine = .error e after) :
    ∃ done pipeline rest shown middle, pipelines = done ++ pipeline :: rest ∧
      Pipeline.Succeed env done machine shown middle ∧
      Pipeline.run env (capture env) pipeline middle = .error e after ∧
      ((∃ start, Pipeline.Starts env pipeline middle start ∧ start.FailsWith env e ∧
          after.stdout = machine.stdout ++ shown ++ start.shown env) ∨
        (∀ start, ¬Pipeline.Starts env pipeline middle start) ∧
          after.stdout = machine.stdout ++ shown ∧
          ∃ evaluated unevaluated, Pipeline.captured pipeline = evaluated ++ unevaluated ∧
            (evaluated.mapM (capture env)).final middle =
              (Pipeline.expand env.toScope (capture env) pipeline).final middle ∧
            after.tree = ((evaluated.mapM (capture env)).final middle).tree) := by
  rw [runLine_of_ofLine hread] at h
  obtain ⟨done, pipeline, rest, middle, rfl, hdone, hfail⟩ := ShellM.exists_of_forM_eq_error h
  have hwell : ∀ other ∈ done ++ pipeline :: rest, Pipeline.IsWellFormed other :=
    fun other hother => Pipeline.isWellFormed_of_ofLine hread hother
  obtain ⟨shown, hsucceed, hmiddle⟩ :=
    Pipeline.succeed_of_forM happs
      (fun other hother => hwell other (List.mem_append_left _ hother)) hdone
  refine ⟨done, pipeline, rest, shown, middle, rfl, hsucceed, hfail, ?_⟩
  obtain ⟨start, hstart, hstdout, herror⟩ | ⟨hnone, e', failed, hfail', hstdout, htree⟩ :=
    Pipeline.starts_or_fails happs (hwell pipeline (by simp)) middle
  · rw [ShellM.final, hfail] at hstdout
    exact .inl ⟨start, hstart, herror e after hfail, by rw [hstdout, hmiddle]⟩
  · rw [hfail] at hfail'
    cases hfail'
    exact .inr ⟨hnone, hstdout.trans hmiddle, htree⟩

theorem runLine_failure_leaves_of_unknown :
    ∃ after, runLine .probed "p a;p `p b`|q>f".toList ⟨.empty, none, [], []⟩ =
        .error (.unknownApp ['q']) after ∧
      after.stdout = Text.utf8 "p(a)\n".toList ∧ after.tree = .empty ∧
      ∃ done pipeline rest middle,
        done ++ pipeline :: rest = [[⟨[[.pattern ['p']], [.pattern ['a']]], none, none⟩],
          [⟨[[.pattern ['p']], [.command "p b".toList false]], none, none⟩,
            ⟨[[.pattern ['q']]], none, some ['f']⟩]] ∧
        Pipeline.Succeed .probed done ⟨.empty, none, [], []⟩ after.stdout middle ∧
        (∀ start, ¬Pipeline.Starts .probed pipeline middle start) ∧
        ∃ evaluated unevaluated, Pipeline.captured pipeline = evaluated ++ unevaluated ∧
          after.tree = ((evaluated.mapM (capture .probed)).final middle).tree := by
  have hread : Pipeline.ofLine Environment.probed.toScope .empty "p a;p `p b`|q>f".toList =
      .ok [[⟨[[.pattern ['p']], [.pattern ['a']]], none, none⟩],
        [⟨[[.pattern ['p']], [.command "p b".toList false]], none, none⟩,
          ⟨[[.pattern ['q']]], none, some ['f']⟩]] := by
    cbv
  have hrun : runLine .probed "p a;p `p b`|q>f".toList ⟨.empty, none, [], []⟩ =
      .error (.unknownApp ['q']) ⟨.empty, none, Text.utf8 "p(a)\n".toList,
        [⟨['p'], [['a']], none⟩, ⟨['p'], [['b']], none⟩, ⟨['p'], ["p(b)".toList], none⟩]⟩ := by
    cbv
  have happs (name : Text) (app : Application) (hfind : Environment.probed.registry.find? name =
      some app) : app.WritesNoFile := by
    rcases Environment.writesNoFile_probed hfind with hbuiltin | happ
    · exact Application.writesNoFile_of_mem_builtins hbuiltin
    · exact happ
  obtain ⟨done, pipeline, rest, shown, middle, hpipelines, hdone, -, hleft⟩ :=
    runLine_failure_leaves .probed _ ⟨.empty, none, [], []⟩ _ _ _ happs hread hrun
  refine ⟨_, hrun, rfl, rfl, done, pipeline, rest, middle, hpipelines.symm, ?_⟩
  obtain ⟨start, -, ⟨failure, -, happ⟩, -⟩ |
    ⟨hnone, hstdout, evaluated, unevaluated, hcaptured, -, htree⟩ := hleft
  · cases happ
  · rw [hstdout]
    exact ⟨hdone, hnone, evaluated, unevaluated, hcaptured, htree⟩

end LineShell
