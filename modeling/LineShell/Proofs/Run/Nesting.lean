import LineShell.Proofs.Line.Origin
import LineShell.Proofs.Run.Frames
import Mathlib
/-!
# Captures do not nest

Evaluating a line and capturing the output of a command call each other. A command in back-quotes
has no back-quotes itself, so that capturing its output captures nothing. Main statement: what a
capture within a capture would do makes no difference, and the equations by which the two call each
other have one solution.
-/

namespace LineShell

/-- Run a command with no input and return its output on one line. -/
def captureBy (run : Text → ShellM Unit) : Capture := fun command => do
  let output ← ShellM.collecting (ShellM.feeding none (run command))
  return (Utf8.decodeLossy output).flattenLines

@[simp] theorem captureWithin_succ (env : Environment) (depth : Nat) :
    captureWithin env (depth + 1) = captureBy (runLineWith env (captureWithin env depth)) := rfl

section Congruence

variable {capture other : Capture}

private theorem Part.expand_congr {part : Part}
    (h : ∀ text, part.captured? = some text → capture text = other text) (fields : Fields) :
    Part.expand capture fields part = Part.expand other fields part := by
  cases part with
  | literal text => rfl
  | pattern text => rfl
  | command text quoted => cases quoted <;> simp only [Part.expand, h text rfl]

private theorem Word.expand_congr (scope : Scope) {word : Word}
    (h : ∀ part ∈ word, ∀ text, part.captured? = some text → capture text = other text) :
    Word.expand scope capture word = Word.expand scope other word := by
  have hparts := foldlM_congr (fun part hpart fields => Part.expand_congr (h part hpart) fields)
    Fields.empty
  unfold Word.expand
  split
  · rfl
  · rw [hparts]

private theorem Pipeline.run_congr (env : Environment) {pipeline : Pipeline}
    (h : ∀ text ∈ Pipeline.captured pipeline, capture text = other text) :
    Pipeline.run env capture pipeline = Pipeline.run env other pipeline := by
  have hexpand : Pipeline.expand env.toScope capture pipeline =
      Pipeline.expand env.toScope other pipeline := by
    apply mapM_congr
    intro command hcommand
    have hwords : command.words.mapM (Word.expand env.toScope capture) =
        command.words.mapM (Word.expand env.toScope other) := by
      apply mapM_congr
      intro word hword
      apply Word.expand_congr
      intro part hpart text htext
      exact h text (Pipeline.mem_captured hcommand hword hpart htext)
    simp only [Command.expand, hwords]
  simp only [Pipeline.run, hexpand]

/-- Running a line depends only on the captures of the commands that stand in its back-quotes. -/
theorem runLineWith_congr (env : Environment) {line : Text}
    (h : ∀ text, '`' ∈ line → '`' ∉ text → capture text = other text) :
    runLineWith env capture line = runLineWith env other line := by
  funext machine
  simp only [runLineWith, ShellM.ofTree, ShellM.bind_apply]
  cases hread : Pipeline.ofLine env.toScope machine.tree line with
  | error e => rfl
  | ok pipelines =>
    have hrun : pipelines.forM (Pipeline.run env capture) =
        pipelines.forM (Pipeline.run env other) := by
      apply forM_congr
      intro pipeline hpipeline
      apply Pipeline.run_congr
      intro text htext
      obtain ⟨-, hline, hquote⟩ := Pipeline.captured_of_ofLine hread hpipeline htext
      exact h text hline hquote
    simp only [hrun]

private theorem captureBy_congr (env : Environment) (inner inner' : Capture) {command : Text}
    (h : '`' ∉ command) :
    captureBy (runLineWith env inner) command = captureBy (runLineWith env inner') command := by
  have hrun : runLineWith env inner command = runLineWith env inner' command :=
    runLineWith_congr env fun _ hmem => absurd hmem h
  simp only [captureBy, hrun]

private theorem runLineWith_captureBy (env : Environment) (inner inner' : Capture) :
    runLineWith env (captureBy (runLineWith env inner)) =
      runLineWith env (captureBy (runLineWith env inner')) := by
  funext line
  apply runLineWith_congr
  intro text _ htext
  exact captureBy_congr env inner inner' htext

end Congruence

private theorem runLine_eq (env : Environment) (inner : Capture) :
    runLine env = runLineWith env (captureBy (runLineWith env inner)) := by
  have hdepth : runLine env =
      runLineWith env (captureBy (runLineWith env (captureWithin env 1))) := by
    rw [← captureWithin_succ]
    rfl
  rw [hdepth, runLineWith_captureBy env (captureWithin env 1) inner]

theorem capture_eq (env : Environment) : capture env = captureBy (runLine env) := by
  rw [runLine_eq env (captureWithin env 0), ← captureWithin_succ, ← captureWithin_succ]
  rfl

/-- Captures do not nest. A command in back-quotes has no back-quotes, and what has no back-quotes
has no such commands. So a line is run in the same way whatever a capture within a capture does; and
the equations by which running a line and capturing an output call each other have exactly one
solution. -/
theorem captures_do_not_nest (env : Environment) :
    (∀ tree line pipelines, Pipeline.ofLine env.toScope tree line = .ok pipelines →
      ∀ pipeline ∈ pipelines, (∀ command ∈ Pipeline.captured pipeline, '`' ∉ command) ∧
        ('`' ∉ line → Pipeline.captured pipeline = [])) ∧
    (∀ inner command, '`' ∉ command →
      captureBy (runLineWith env inner) command = capture env command) ∧
    (∀ inner line, runLineWith env (captureBy (runLineWith env inner)) line = runLine env line) ∧
    ∀ run other, run = runLineWith env other ∧ other = captureBy run ↔
      run = runLine env ∧ other = capture env := by
  refine ⟨?_, ?_, ?_, ?_⟩
  · intro tree line pipelines hread pipeline hpipeline
    refine ⟨?_, fun hquote => Pipeline.captured_eq_nil_of_ofLine hquote hread hpipeline⟩
    intro command hcommand
    exact (Pipeline.captured_of_ofLine hread hpipeline hcommand).2.2
  · intro inner command hcommand
    exact captureBy_congr env inner (captureWithin env 1) hcommand
  · intro inner line
    rw [runLine_eq env inner]
  · intro run other
    constructor
    · rintro ⟨hrun, hother⟩
      -- Unfolding the equations once puts `other` where an inner capture makes no difference.
      have hline : run = runLine env := by
        rw [runLine_eq env other, ← hrun, ← hother, ← hrun]
      exact ⟨hline, by rw [hother, hline, capture_eq]⟩
    · rintro ⟨rfl, rfl⟩
      exact ⟨rfl, capture_eq env⟩

theorem captures_do_not_nest_of_marks :
    Pipeline.captured [⟨[[.pattern "echo".toList],
        [.command "echo '\"'".toList false, .pattern ['b']], [.command "echo \"|\"".toList true]],
          none, none⟩] = ["echo '\"'".toList, "echo \"|\"".toList] ∧
      (∀ command ∈ ["echo '\"'".toList, "echo \"|\"".toList], '`' ∉ command) ∧
      runLineWith .builtin (captureBy (runLineWith .builtin fun _ => throw .noMatch))
          "echo `echo '\"'`b \"`echo \"|\"`\"".toList ⟨.empty, none, [], []⟩ =
        .ok () ⟨.empty, none, Text.utf8 "\"b |\n".toList,
          [⟨"echo".toList, [['"']], none⟩, ⟨"echo".toList, [['|']], none⟩,
            ⟨"echo".toList, ["\"b".toList, ['|']], none⟩]⟩ := by
  have hread : Pipeline.ofLine Environment.builtin.toScope .empty
      "echo `echo '\"'`b \"`echo \"|\"`\"".toList =
        .ok [[⟨[[.pattern "echo".toList], [.command "echo '\"'".toList false, .pattern ['b']],
          [.command "echo \"|\"".toList true]], none, none⟩]] := by
    cbv
  have hrun : runLine .builtin "echo `echo '\"'`b \"`echo \"|\"`\"".toList ⟨.empty, none, [], []⟩ =
      .ok () ⟨.empty, none, Text.utf8 "\"b |\n".toList,
        [⟨"echo".toList, [['"']], none⟩, ⟨"echo".toList, [['|']], none⟩,
          ⟨"echo".toList, ["\"b".toList, ['|']], none⟩]⟩ := by
    cbv
  obtain ⟨hcaptured, -, hinner, -⟩ := captures_do_not_nest .builtin
  refine ⟨rfl, (hcaptured _ _ _ hread _ (List.mem_singleton_self _)).1, ?_⟩
  rw [hinner, hrun]

end LineShell
