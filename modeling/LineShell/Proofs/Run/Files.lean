import LineShell.Proofs.Run.Rules
import LineShell.Proofs.Tree.Directories
import Mathlib
/-!
# Only a written sign changes files

Main statement: a line without a `>` leaves the file tree as it was if its applications write no
files of their own, whatever the files hold, whatever its commands in back-quotes print and wherever
it fails.
-/

namespace LineShell

namespace Program

/-- No step of the program writes a file, whatever the answers to its steps are. -/
def WritesNoFile : Program → Prop
  | .exit => True
  | .fail _ => True
  | .read _ next => ∀ answer, (next answer).WritesNoFile
  | .write _ next => next.WritesNoFile
  | .isDirectory _ next => ∀ answer, (next answer).WritesNoFile
  | .readFile _ next => ∀ answer, (next answer).WritesNoFile
  | .writeFile _ _ _ => False
  | .time next => ∀ answer, (next answer).WritesNoFile

private theorem writesNoFile_needsOutput {program : Program} (call : Invocation)
    (h : program.WritesNoFile) : (needsOutput call program).WritesNoFile := by
  unfold needsOutput
  split
  · exact h
  · trivial

private theorem writesNoFile_readNamed {next : Bytes → Program} (name : Text)
    (h : ∀ bytes, (next bytes).WritesNoFile) : (readNamed name next).WritesNoFile := by
  intro directory
  cases directory with
  | true => trivial
  | false =>
    intro answer
    cases answer with
    | ok bytes => exact h bytes
    | error cause => trivial

private theorem writesNoFile_readInputText {next : Text → Program} (call : Invocation)
    (h : ∀ text, (next text).WritesNoFile) : (readInputText call next).WritesNoFile := by
  unfold readInputText
  split
  · intro answer
    cases answer with
    | error cause => trivial
    | ok bytes =>
      dsimp only
      split
      · exact h _
      · trivial
  · trivial

private theorem writesNoFile_readText {next : Text → Program} (call : Invocation)
    (file : Option Text) (h : ∀ text, (next text).WritesNoFile) :
    (readText call file next).WritesNoFile := by
  cases file with
  | none => exact writesNoFile_readInputText call h
  | some name => exact writesNoFile_readNamed name fun bytes => h _

end Program

namespace Application

/-- The application writes no files of its own, however it is called. -/
def WritesNoFile (app : Application) : Prop :=
  ∀ call, (app call).WritesNoFile

private theorem writesNoFile_echo :
    WritesNoFile echo := fun call => Program.writesNoFile_needsOutput call trivial

private theorem writesNoFile_cat : WritesNoFile cat := by
  intro call
  apply Program.writesNoFile_needsOutput
  split
  · unfold copyInput
    split
    · intro answer
      cases answer <;> trivial
    · trivial
  · induction call.args with
    | nil => trivial
    | cons name names ih => exact Program.writesNoFile_readNamed name fun bytes => ih

private theorem writesNoFile_excerpt (select : Nat → List Text → List Text) :
    WritesNoFile (excerpt select) := by
  intro call
  apply Program.writesNoFile_needsOutput
  split
  · trivial
  · exact Program.writesNoFile_readText call _ fun text => trivial

private theorem writesNoFile_sort : WritesNoFile sort := by
  intro call
  apply Program.writesNoFile_needsOutput
  split
  · trivial
  · exact Program.writesNoFile_readText call _ fun text => trivial

private theorem writesNoFile_date : WritesNoFile date := by
  intro call
  unfold date
  split
  · exact Program.writesNoFile_needsOutput call fun moment => trivial
  · trivial

private theorem writesNoFile_probe (name : Text) (fails : Bool) :
    WritesNoFile (probe name fails) := by
  intro call
  have hreport : (report name fails call).WritesNoFile := by
    apply Program.writesNoFile_needsOutput
    cases fails <;> trivial
  unfold probe
  split
  · intro answer
    cases answer with
    | ok bytes => exact hreport
    | error cause => trivial
  · exact hreport

theorem writesNoFile_of_mem_builtins {app : Application}
    (h : app ∈ Registry.builtins.map Prod.snd) : app.WritesNoFile := by
  simp only [Registry.builtins, List.map_cons, List.map_nil, List.mem_cons, List.not_mem_nil,
    or_false] at h
  rcases h with rfl | rfl | rfl | rfl | rfl | rfl
  · exact writesNoFile_echo
  · exact writesNoFile_cat
  · exact writesNoFile_excerpt List.take
  · exact writesNoFile_excerpt takeLast
  · exact writesNoFile_sort
  · exact writesNoFile_date

end Application

private theorem Registry.mem_of_find?_ofList {apps : List (Text × Application)} {name : Text}
    {app : Application} (h : (Registry.ofList apps).find? name = some app) :
    app ∈ apps.map Prod.snd := by
  -- Later registrations come on top of earlier ones, so the list grows at its end.
  induction apps using List.reverseRecOn with
  | nil => cases h
  | append_singleton apps entry ih =>
    simp only [Registry.ofList, List.foldl_append, List.foldl_cons, List.foldl_nil,
      Registry.register] at h
    split at h
    · cases h
      simp
    · have hmem := ih h
      simp [hmem]

@[simp] theorem Machine.tree_read (machine : Machine) (limit : Option Nat) (source : Source) :
    (machine.read limit source).2.2.tree = machine.tree := by
  unfold Machine.read
  cases source <;> rfl

private theorem Program.tree_run (env : Environment) {program : Program} (h : program.WritesNoFile)
    {streams : Streams} (hsink : streams.output = some .stream) (machine : Machine) :
    (program.run env streams machine).2.tree = machine.tree := by
  induction program generalizing streams machine with
  | exit => rfl
  | fail failure => rfl
  | read limit next ih =>
    rw [Program.run]
    split
    · exact ih _ (h _) hsink machine
    · rename_i source _
      refine (ih (machine.read limit source).1 (h _) ?_ _).trans (machine.tree_read limit source)
      exact hsink
  | write bytes next ih =>
    simp only [Program.run, hsink]
    exact ih h hsink (machine.write bytes .stream)
  | isDirectory path next ih => exact ih _ (h _) hsink machine
  | readFile path next ih => exact ih _ (h _) hsink machine
  | writeFile path bytes next ih => exact h.elim
  | time next ih => exact ih _ (h _) hsink machine

/-- The rules of actions that leave the file tree as it was and may fail for any cause. -/
def Rules.keepTree : Rules where
  moves before after := after.tree = before.tree
  causes _ := True
  refl _ := rfl
  trans hfirst hsecond := hsecond.trans hfirst

theorem Rules.keepTree_ignoreStreams : Rules.keepTree.IgnoreStreams :=
  fun _ _ _ _ h hbefore _ hafter _ => (hafter.trans h).trans hbefore.symm

section Tree

variable {env : Environment} (happs : ∀ name app, env.registry.find? name = some app →
  app.WritesNoFile)
include happs

theorem Stage.run_keepTree {stage : Stage} (houtput : stage.output = none) :
    (stage.run env).Obeys .keepTree := by
  apply Stage.run_obeys trivial (fun _ _ => trivial)
  intro app machine input sink opened hfind hopen
  obtain ⟨rfl, rfl⟩ := (Stage.openOutput_eq_ok hopen).2 houtput
  refine ⟨rfl, Stage.call_obeys (fun _ => trivial) ?_⟩
  intro before
  exact Program.tree_run env (happs _ _ hfind _) rfl _

theorem Pipeline.run_keepTree {capture : Capture} {pipeline : Pipeline}
    (houtput : ∀ command ∈ pipeline, command.output = none)
    (hcapture : ∀ text ∈ Pipeline.captured pipeline, (capture text).Obeys .keepTree) :
    (Pipeline.run env capture pipeline).Obeys .keepTree := by
  have hexpand : (Pipeline.expand env.toScope capture pipeline).Obeys .keepTree :=
    Pipeline.expand_obeys hcapture fun _ _ => ShellM.obeys_ofTree fun _ _ _ => trivial
  apply hexpand.bind
  intro machine stages after hstages
  apply Stage.runAll_obeys Rules.keepTree_ignoreStreams
  intro stage hstage
  obtain ⟨command, hcommand, -, hfile⟩ :=
    exists_of_mem_right (Pipeline.files_of_expand hstages) hstage
  apply Stage.run_keepTree happs
  rw [hfile]
  exact houtput command hcommand

private theorem runLineWith_keepTree {capture : Capture}
    (hcapture : ∀ text, '>' ∉ text → (capture text).Obeys .keepTree) {line : Text}
    (hline : '>' ∉ line) :
    (runLineWith env capture line).Obeys .keepTree := by
  apply runLineWith_obeys (fun _ _ _ => trivial)
  intro tree pipelines hread pipeline hpipeline
  apply Pipeline.run_keepTree happs
  · intro command hcommand
    exact Pipeline.output_eq_none_of_ofLine hline hread hpipeline hcommand
  · intro text htext
    have hsubset := (Pipeline.captured_of_ofLine hread hpipeline htext).1
    exact hcapture text fun hsign => hline (hsubset hsign)

private theorem captureWithin_keepTree (depth : Nat) {text : Text} (htext : '>' ∉ text) :
    (captureWithin env depth text).Obeys .keepTree := by
  induction depth generalizing text with
  | zero => exact ShellM.obeys_throw trivial
  | succ depth ih =>
    have hrun := runLineWith_keepTree happs (fun _ => ih) htext
    have hstreams := Rules.keepTree_ignoreStreams
    exact ((hrun.feeding hstreams none).collecting hstreams).bind fun _ _ _ _ => ShellM.obeys_pure _

end Tree

/-- Only a written sign changes files. A line without a `>` leaves the file tree as it was, be it
successful or not, if every application is built in or writes no files of its own. -/
theorem runLine_without_sign_keeps_tree (env : Environment) (line : Text) (machine : Machine)
    (happs : ∀ name app, env.registry.find? name = some app →
      app ∈ Registry.builtins.map Prod.snd ∨ app.WritesNoFile) (hline : '>' ∉ line) :
    ((runLine env line).final machine).tree = machine.tree := by
  have hall : ∀ name app, env.registry.find? name = some app → app.WritesNoFile := by
    intro name app hfind
    rcases happs name app hfind with hbuiltin | hother
    · exact Application.writesNoFile_of_mem_builtins hbuiltin
    · exact hother
  have hcapture (text : Text) (htext : '>' ∉ text) := captureWithin_keepTree hall maxDepth htext
  exact (runLineWith_keepTree hall hcapture hline).moves_final machine

/-- In the directory `/w`, a file whose content is a redirection to itself and a file with a sign in
its name. -/
def FileTree.ofSigns : FileTree :=
  .ofList [("/w", .directory), ("/w/note", .file (Text.utf8 "> note".toList)), ("/w/>x", .file [])]

theorem Environment.writesNoFile_probed {name : Text} {app : Application}
    (h : Environment.probed.registry.find? name = some app) :
    app ∈ Registry.builtins.map Prod.snd ∨ app.WritesNoFile := by
  simp only [Environment.probed, Registry.register] at h
  split at h
  · cases h
    exact .inr (Application.writesNoFile_probe ['p'] false)
  · exact .inl (Registry.mem_of_find?_ofList h)

theorem runLine_without_sign_keeps_tree_of_signs :
    ((runLine .probed "p `cat note` * ; cat gone".toList).final ⟨.ofSigns, none, [], []⟩).stdout =
        Text.utf8 "p(>,note,>x,note)\n".toList ∧
      ((runLine .probed "p `cat note` * ; cat gone".toList).final ⟨.ofSigns, none, [], []⟩).tree =
        .ofSigns := by
  constructor
  · cbv
  · exact runLine_without_sign_keeps_tree .probed "p `cat note` * ; cat gone".toList
      ⟨.ofSigns, none, [], []⟩ (fun name app => Environment.writesNoFile_probed) (by simp)

end LineShell
