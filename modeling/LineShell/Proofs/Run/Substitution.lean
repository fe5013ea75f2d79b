import LineShell.Proofs.Line.RoundTrip
import LineShell.Proofs.Run.Pipelines
import Mathlib
/-!
# Substituted output is data

Main statement: a line that calls an application with the output of a command calls it once, and the
output reaches it as its arguments, whatever characters the command and its output hold.
-/

namespace LineShell

open Text

namespace Fields

@[simp] theorem toList_close (fields : Fields) : fields.close.toList = fields.toList := by
  simp [toList, close]

@[simp] theorem toList_closeIf (fields : Fields) (condition : Bool) :
    (fields.closeIf condition).toList = fields.toList := by
  cases condition <;> simp [closeIf]

@[simp] theorem toList_addPieces (closed pieces : List Text) :
    ((⟨closed, none⟩ : Fields).addPieces pieces).toList = closed ++ pieces := by
  induction pieces generalizing closed with
  | nil => simp [addPieces, toList, close]
  | cons piece pieces ih =>
    cases pieces with
    | nil => simp [addPieces, toList, close, add]
    | cons next pieces =>
      have hclose : ((⟨closed, none⟩ : Fields).add piece).close = ⟨closed ++ [piece], none⟩ := by
        simp [add, close]
      rw [addPieces, hclose, ih]
      · simp
      · simp

@[simp] theorem toList_addOutput (output : Text) :
    (empty.addOutput output).toList = output.words := by
  have hempty : empty.closeIf output.startsBlank = ⟨[], none⟩ := by
    unfold closeIf
    split <;> rfl
  rw [addOutput, toList_closeIf, hempty, toList_addPieces, List.nil_append]

@[simp] theorem toList_add (text : Text) : (empty.add text).toList = [text] := by
  simp [empty, add, toList, close]

end Fields

def outputArgs (quoted : Bool) (output : Text) : List Text :=
  if quoted then [output] else output.words

/-- The word that a name without wildcards is read as. -/
def Word.ofName (name : Text) : Word :=
  if Token.isFlag name then [.literal name] else [.pattern name]

section Expansion

variable {scope : Scope} {capture : Capture} {name : Text}

private theorem Word.expand_ofName (hplain : Glob.hasWildcard name = false) :
    Word.expand scope capture (Word.ofName name) = pure [name] := by
  unfold Word.ofName
  split
  · simp [Word.expand, Part.expand]
  · funext machine
    simp [Word.expand, ShellM.ofTree, Glob.expandArgument, Glob.expand, hplain]

@[simp] theorem Word.expand_command (command : Text) (quoted : Bool) :
    Word.expand scope capture [.command command quoted] =
      (do return outputArgs quoted (← capture command)) := by
  cases quoted <;> simp [Word.expand, Part.expand, outputArgs]

private theorem Pipeline.run_substitution (env : Environment) (capture : Capture)
    (hplain : Glob.hasWildcard name = false) (command : Text) (quoted : Bool) :
    Pipeline.run env capture [⟨[Word.ofName name, [.command command quoted]], none, none⟩] =
      (do Stage.run env ⟨name, outputArgs quoted (← capture command), none, none⟩) := by
  simp [Pipeline.run, Pipeline.expand, Command.expand, Word.expand_ofName hplain]

end Expansion

private theorem Word.written_ofName {name : Text} (hne : name ≠ [])
    (hname : name.all Token.isBare = true) : Word.Written (Word.ofName name) name := by
  unfold Word.ofName
  split
  · rename_i hflag
    exact .flag hflag
  · rename_i hflag
    have hbare : Word.IsBare [.pattern name] := by
      refine ⟨List.cons_ne_nil _ _, ?_, .singleton _, ?_⟩
      · intro part hpart
        obtain rfl := List.mem_singleton.1 hpart
        simp only [Part.fits, hname]
        simp [hne]
      · intro text htext
        cases htext
        simpa using hflag
    simpa [Word.text, Part.text] using Word.Written.bare hbare

/-- A command in back-quotes, in double quotes or not. -/
def substitutionText (command : Text) (quoted : Bool) : Text :=
  if quoted then '"' :: '`' :: command ++ ['`', '"'] else '`' :: command ++ ['`']

private theorem Word.written_command {command : Text} (hspan : command.isSpan) (quoted : Bool) :
    Word.Written [.command command quoted] (substitutionText command quoted) := by
  have hfits (isPlain : Char → Bool) :
      ∀ part ∈ [Part.command command quoted], part.fits quoted isPlain := by
    intro part hpart
    obtain rfl := List.mem_singleton.1 hpart
    simp [Part.fits, hspan]
  cases quoted with
  | true =>
    have hinter : Word.IsInterpolated [.command command true] :=
      ⟨hfits _, .singleton _, _, List.mem_singleton_self _, rfl⟩
    simpa [Word.text, Part.text, substitutionText] using Word.Written.interpolated hinter
  | false =>
    have hbare : Word.IsBare [.command command false] :=
      ⟨List.cons_ne_nil _ _, hfits _, .singleton _, fun text htext => by cases htext⟩
    simpa [Word.text, Part.text, substitutionText] using Word.Written.bare hbare

/-- The line that calls an application with the output of a command. -/
def substitutionLine (name command : Text) (quoted : Bool) : Text :=
  name ++ ' ' :: substitutionText command quoted

private theorem ofLine_substitutionLine (scope : Scope) (tree : FileTree) {name command : Text}
    (hne : name ≠ []) (hname : name.all Token.isBare = true) (hspan : command.isSpan)
    (quoted : Bool) :
    Pipeline.ofLine scope tree (substitutionLine name command quoted) =
      .ok [[⟨[Word.ofName name, [.command command quoted]], none, none⟩]] := by
  have hfirst := Word.written_ofName hne hname
  have hsecond := Word.written_command hspan quoted
  have hcommand : Command.Written ⟨[Word.ofName name, [.command command quoted]], none, none⟩
      (substitutionLine name command quoted) := by
    have hlast : Word.AllWritten false [[.command command quoted]]
        ([' '] ++ (substitutionText command quoted ++ [])) :=
      .cons (by decide) (by simp) hsecond .nil
    have hwords : Word.AllWritten true [Word.ofName name, [.command command quoted]]
        ([] ++ (name ++ ([' '] ++ (substitutionText command quoted ++ [])))) :=
      .cons rfl (by simp) hfirst hlast
    have hfiles : Redirections.Written ⟨none, none⟩ ([] ++ ([] ++ [])) := .mk .absent .absent rfl
    simpa [substitutionLine] using Command.Written.mk hwords hfiles
  apply Pipeline.ofLine_of_lineWritten
  · simp
  · intro pipeline hpipeline
    obtain rfl := List.mem_singleton.1 hpipeline
    refine ⟨by simp, ?_, by simp, by simp⟩
    intro command' hcommand'
    obtain rfl := List.mem_singleton.1 hcommand'
    refine ⟨by simp, ?_, by simp, by simp, by simp [Command.HasTwoFiles]⟩
    intro word hword
    rcases List.mem_cons.1 hword with rfl | hword
    · exact Word.isWellFormed_iff.2 ⟨_, hfirst⟩
    · obtain rfl := List.mem_singleton.1 hword
      exact Word.isWellFormed_iff.2 ⟨_, hsecond⟩
  · intro pipeline hpipeline command' hcommand' path hpath
    obtain rfl := List.mem_singleton.1 hpipeline
    obtain rfl := List.mem_singleton.1 hcommand'
    simp at hpath
  · refine ⟨[substitutionLine name command quoted], .cons ⟨[_], .cons hcommand .nil, ?_⟩ .nil, ?_⟩
    · exact (List.intercalate_singleton).symm
    · exact (List.intercalate_singleton).symm

@[simp] theorem Machine.rest_stream (machine : Machine) :
    (machine.stdin.map fun _ => Source.stream).map machine.rest = machine.stdin.map .ok := by
  cases hinput : machine.stdin with
  | none => rfl
  | some bytes => simp [Machine.rest, hinput]

theorem Stage.run_plain {env : Environment} {name : Text} {app : Application}
    (happ : env.registry.find? name = some app) (args : List Text) (machine : Machine) :
    Stage.run env ⟨name, args, none, none⟩ machine =
      Stage.call env ⟨name, args, none, none⟩ app
        ⟨machine.stdin.map fun _ => .stream, some .stream⟩ machine := by
  simp [Stage.run, Stage.application, Stage.openInput, Stage.openOutput, happ]

theorem streams_captureWithin (env : Environment) (depth : Nat) (command : Text)
    (machine : Machine) :
    ((captureWithin env depth command).final machine).stdin = machine.stdin ∧
      ((captureWithin env depth command).final machine).stdout = machine.stdout := by
  cases depth with
  | zero => exact ⟨rfl, rfl⟩
  | succ depth =>
    have hfinal : (captureWithin env (depth + 1) command).final machine =
        (ShellM.collecting <| ShellM.feeding none <|
          runLineWith env (captureWithin env depth) command).final machine := by
      rw [captureWithin]
      exact ShellM.final_map _ _ machine
    rw [hfinal]
    constructor
    · apply ShellM.stdin_collecting
      intro inner
      exact ShellM.stdin_feeding none _ inner
    · exact ShellM.stdout_collecting _ machine

private theorem runLine_substitutionLine (env : Environment) {name command : Text} (hne : name ≠ [])
    (hname : name.all Token.isBare = true) (hplain : Glob.hasWildcard name = false)
    (hspan : command.isSpan) (quoted : Bool) :
    runLine env (substitutionLine name command quoted) =
      (do Stage.run env ⟨name, outputArgs quoted (← capture env command), none, none⟩) := by
  funext machine
  have hparse := ofLine_substitutionLine env.toScope machine.tree hne hname hspan quoted
  have hrun := Pipeline.run_substitution env (capture env) hplain command quoted
  have hone (pipeline : Pipeline) : [pipeline].forM (Pipeline.run env (capture env)) =
      Pipeline.run env (capture env) pipeline := by
    simp
  rw [runLine_of_ofLine hparse, hone, hrun]

/-- Substituted output is data. A line that calls an application with the output of a command runs
the command and, if that succeeds, calls the application once: on the machine that the command
leaves, with the line's own input and output and with the output as its arguments. If the command
fails, so does the line, and nothing else happens. -/
theorem runLine_passes_output_as_data (env : Environment) (name command : Text) (app : Application)
    (quoted : Bool) (machine : Machine) (happ : env.registry.find? name = some app)
    (hne : name ≠ []) (hname : ∀ c ∈ name, Token.isBare c = true ∧ c ≠ '*')
    (hcommand : ∀ c ∈ command, c ≠ '`' ∧ c ≠ '\n') :
    match capture env command machine with
    | .ok output after =>
      after.stdin = machine.stdin ∧ after.stdout = machine.stdout ∧
        runLine env (substitutionLine name command quoted) machine =
          Stage.call env ⟨name, outputArgs quoted output, none, none⟩ app
            ⟨machine.stdin.map fun _ => .stream, some .stream⟩ after ∧
        ((runLine env (substitutionLine name command quoted)).final machine).calls =
          after.calls ++ [⟨name, outputArgs quoted output, machine.stdin.map .ok⟩]
    | .error e after =>
      after.stdin = machine.stdin ∧ after.stdout = machine.stdout ∧
        runLine env (substitutionLine name command quoted) machine = .error e after := by
  have hbare : name.all Token.isBare = true := List.all_eq_true.2 fun c hc => (hname c hc).1
  have hplain : Glob.hasWildcard name = false := by
    rw [Glob.hasWildcard, decide_eq_false_iff_not]
    exact fun hstar => (hname '*' hstar).2 rfl
  have hspan : command.isSpan := by
    have hnewline : '\n' ∉ command := fun h => (hcommand _ h).2 rfl
    have hquote : '`' ∉ command := fun h => (hcommand _ h).1 rfl
    simp [Text.isSpan, hnewline, hquote]
  have hline : runLine env (substitutionLine name command quoted) machine = _ :=
    congrFun (runLine_substitutionLine env hne hbare hplain hspan quoted) machine
  have hstreams := streams_captureWithin env maxDepth command machine
  rw [← capture] at hstreams
  unfold ShellM.final at *
  cases hcapture : capture env command machine with
  | error e after =>
    simp only [hcapture] at hstreams
    refine ⟨hstreams.1, hstreams.2, ?_⟩
    simp only [hline, ShellM.bind_apply, hcapture]
  | ok output after =>
    simp only [hcapture] at hstreams
    have hstage : runLine env (substitutionLine name command quoted) machine =
        Stage.call env ⟨name, outputArgs quoted output, none, none⟩ app
          ⟨machine.stdin.map fun _ => .stream, some .stream⟩ after := by
      simp only [hline, ShellM.bind_apply, hcapture]
      rw [Stage.run_plain happ, hstreams.1]
    have hinput : (machine.stdin.map fun _ => Source.stream).map after.rest =
        machine.stdin.map .ok := by
      rw [← hstreams.1]
      exact Machine.rest_stream after
    refine ⟨hstreams.1, hstreams.2, hstage, ?_⟩
    rw [hstage, ← hinput]
    exact Stage.calls_call env _ app _ after

theorem runLine_passes_signs_as_data :
    ∃ after : Machine,
      capture .builtin "echo 'a | \"b\" ;' \"> *\"".toList ⟨.empty, some [65], [66], []⟩ =
          .ok "a | \"b\" ; > *".toList after ∧
        after.stdin = some [65] ∧ after.stdout = [66] ∧
        runLine .builtin "echo `echo 'a | \"b\" ;' \"> *\"`".toList ⟨.empty, some [65], [66], []⟩ =
          Stage.call .builtin
            ⟨"echo".toList, ["a", "|", "\"b\"", ";", ">", "*"].map String.toList, none, none⟩
            .echo ⟨some .stream, some .stream⟩ after := by
  have hcapture :
      capture .builtin "echo 'a | \"b\" ;' \"> *\"".toList ⟨.empty, some [65], [66], []⟩ =
      .ok "a | \"b\" ; > *".toList ⟨.empty, some [65], [66],
        [⟨"echo".toList, ["a | \"b\" ;".toList, "> *".toList], none⟩]⟩ := by
    cbv
  have hname : ∀ c ∈ "echo".toList, Token.isBare c = true ∧ c ≠ '*' := by
    simp [Token.isBare, Text.isBlank]
  have hcommand : ∀ c ∈ "echo 'a | \"b\" ;' \"> *\"".toList, c ≠ '`' ∧ c ≠ '\n' := by
    simp
  have hline := runLine_passes_output_as_data .builtin "echo".toList
    "echo 'a | \"b\" ;' \"> *\"".toList .echo false ⟨.empty, some [65], [66], []⟩ rfl
    (by decide) hname hcommand
  rw [hcapture] at hline
  exact ⟨_, hcapture, hline.1, hline.2.1, hline.2.2.1⟩

end LineShell
