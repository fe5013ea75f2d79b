import LineShell.Proofs.Run.Fields
import LineShell.Proofs.Run.Rules
import Mathlib
/-!
# What expanding a pipeline evaluates

Expanding a pipeline does nothing to the machine but capture the commands in its back-quotes, from
left to right and up to the first failure. Since captures have streams of their own, an expansion
reads no input and writes no output.
-/

namespace LineShell

namespace ShellM

variable {α β : Type} {capture : Capture}

/-- All that the action does to the machine is to capture commands in order: all of the given
commands if it succeeds, and the first few of them if it fails. -/
structure Evaluates (capture : Capture) (commands : List Text) (action : ShellM α) : Prop where
  of_ok {machine after : Machine} {a : α} :
    action machine = .ok a after → ∃ outputs, commands.mapM capture machine = .ok outputs after
  of_error {machine after : Machine} {e : ShellError} :
    action machine = .error e after →
      ∃ evaluated unevaluated, commands = evaluated ++ unevaluated ∧
        (evaluated.mapM capture).final machine = after

private theorem evaluates_pure (a : α) : Evaluates capture [] (pure a : ShellM α) := by
  constructor
  · intro machine after _ h
    cases h
    exact ⟨[], rfl⟩
  · intro machine after e h
    cases h

private theorem evaluates_ofTree (question : FileTree → Except ShellError α) :
    Evaluates capture [] (ofTree question) := by
  constructor
  · intro machine after a h
    obtain ⟨-, rfl⟩ := ofTree_eq_ok h
    exact ⟨[], rfl⟩
  · intro machine after e h
    obtain ⟨-, rfl⟩ := ofTree_eq_error h
    exact ⟨[], [], rfl, rfl⟩

private theorem evaluates_mapM_capture (commands : List Text) :
    Evaluates capture commands (commands.mapM capture) := by
  constructor
  · intro machine after outputs h
    exact ⟨outputs, h⟩
  · intro machine after e h
    exact ⟨commands, [], (List.append_nil commands).symm, by rw [final, h]⟩

theorem Evaluates.bind {commands later : List Text} {action : ShellM α} {next : α → ShellM β}
    (h : action.Evaluates capture commands) (hnext : ∀ a, (next a).Evaluates capture later) :
    (action >>= next).Evaluates capture (commands ++ later) := by
  constructor
  · intro machine after b hresult
    obtain ⟨a, middle, haction, hlast⟩ := bind_eq_ok hresult
    obtain ⟨outputs, houtputs⟩ := h.of_ok haction
    obtain ⟨outputs', houtputs'⟩ := (hnext a).of_ok hlast
    refine ⟨outputs ++ outputs', ?_⟩
    simp only [List.mapM_append, bind_apply, pure_apply, houtputs, houtputs']
  · intro machine after e hresult
    rcases bind_eq_error hresult with haction | ⟨a, middle, haction, hlast⟩
    · obtain ⟨evaluated, unevaluated, rfl, hfinal⟩ := h.of_error haction
      exact ⟨evaluated, unevaluated ++ later, List.append_assoc _ _ _, hfinal⟩
    · obtain ⟨outputs, houtputs⟩ := h.of_ok haction
      obtain ⟨evaluated, unevaluated, rfl, hfinal⟩ := (hnext a).of_error hlast
      refine ⟨commands ++ evaluated, unevaluated, (List.append_assoc _ _ _).symm, ?_⟩
      rw [← hfinal, List.mapM_append, final_bind_of_ok houtputs, final_map]

theorem Evaluates.map {commands : List Text} {action : ShellM α}
    (h : action.Evaluates capture commands) (f : α → β) :
    Evaluates capture commands (do return f (← action)) := by
  simpa using h.bind fun a => evaluates_pure (f a)

private theorem evaluates_mapM {step : α → ShellM β} {commandsOf : α → List Text} {items : List α}
    (h : ∀ item ∈ items, (step item).Evaluates capture (commandsOf item)) :
    (items.mapM step).Evaluates capture (items.flatMap commandsOf) := by
  induction items with
  | nil => exact evaluates_pure []
  | cons item items ih =>
    have hitems := ih fun other hother => h other (List.mem_cons_of_mem item hother)
    rw [List.mapM_cons, List.flatMap_cons]
    exact (h item List.mem_cons_self).bind fun result => hitems.map (result :: ·)

end ShellM

section Expansion

variable (scope : Scope) (capture : Capture)

theorem Word.expand_evaluates (word : Word) :
    (Word.expand scope capture word).Evaluates capture (Word.captured word) := by
  by_cases hpattern : ∃ text, word = [.pattern text]
  · obtain ⟨text, rfl⟩ := hpattern
    rw [Word.expand]
    exact ShellM.evaluates_ofTree _
  · rw [Word.expand_eq scope capture (not_exists.1 hpattern)]
    exact (ShellM.evaluates_mapM_capture _).map _

theorem Command.expand_evaluates (command : Command) :
    (Command.expand scope capture command).Evaluates capture command.captured := by
  have hcaptured : command.captured = command.words.flatMap Word.captured := List.filterMap_flatten
  rw [hcaptured]
  exact (ShellM.evaluates_mapM fun word _ => Word.expand_evaluates scope capture word).map _

/-- Expanding a pipeline captures its commands in back-quotes, in order and up to the first
failure. -/
theorem Pipeline.expand_evaluates (pipeline : Pipeline) :
    (Pipeline.expand scope capture pipeline).Evaluates capture (Pipeline.captured pipeline) :=
  ShellM.evaluates_mapM fun command _ => Command.expand_evaluates scope capture command

end Expansion

/-- The rules of actions that leave the streams as they were and may fail for any cause. -/
def Rules.keepStreams : Rules where
  moves before after := after.stdin = before.stdin ∧ after.stdout = before.stdout
  causes _ := True
  refl _ := ⟨rfl, rfl⟩
  trans hfirst hsecond := ⟨hsecond.1.trans hfirst.1, hsecond.2.trans hfirst.2⟩

private theorem capture_keepStreams (env : Environment) (command : Text) :
    (capture env command).Obeys .keepStreams := by
  constructor
  · intro machine after output h
    have hstreams := streams_captureWithin env maxDepth command machine
    rwa [← capture, ShellM.final, h] at hstreams
  · intro machine after e h
    have hstreams := streams_captureWithin env maxDepth command machine
    rw [← capture, ShellM.final, h] at hstreams
    exact ⟨hstreams, trivial⟩

theorem Pipeline.expand_keepStreams (env : Environment) (pipeline : Pipeline) :
    (Pipeline.expand env.toScope (capture env) pipeline).Obeys .keepStreams :=
  Pipeline.expand_obeys (fun text _ => capture_keepStreams env text) fun _ _ =>
    ShellM.obeys_ofTree fun _ _ _ => trivial

end LineShell
