import LineShell.Proofs.Run.Pipelines
import LineShell.Proofs.Run.Rules
import Mathlib
/-!
# Errors of reading

A line is read as a whole before any of it runs, and yet a pattern among its words is read only when
its pipeline is expanded. Main statement: a line without back-quotes that ends with an error of
reading has run nothing, unless the error is that of a malformed pattern in a later pipeline, and
then the pipelines before it have run.
-/

namespace LineShell

/-- Whether an error says that a line, a pattern in it or its redirections are not as they should
be. -/
def ShellError.isReading : ShellError → Bool
  | .malformed | .sameFile | .ambiguousPattern | .noMatch | .pipedRedirection => true
  | _ => false

namespace Glob

def isMalformed (pattern : Text) : Bool :=
  hasWildcard pattern && (compile (body pattern)).isNone

private theorem search_eq_error {tree : FileTree} {hidden : Bool} {pieces : List Piece}
    {root : Text} {depth : Nat} {directory : Location} {names : Descent} {e : ShellError}
    (h : search tree hidden pieces root depth directory names = .error e) :
    ∃ path cause, e = .search path cause := by
  induction depth generalizing directory names with
  | zero => cases h
  | succ depth ih =>
    rcases search_succ_eq_error h with ⟨rfl, -⟩ | ⟨name, -, hbelow⟩
    · exact ⟨_, _, rfl⟩
    · exact ih hbelow

private theorem expandArgument_eq_error {scope : Scope} {tree : FileTree} {pattern : Text}
    {e : ShellError} (h : expandArgument scope tree pattern = .error e) :
    e = .malformed ∧ isMalformed pattern = true ∨ ∃ path cause, e = .search path cause := by
  have hexpand : expand scope tree pattern = .error e := by
    rcases bind_eq_error_iff.1 h with hexpand | ⟨paths, -, hpaths⟩
    · exact hexpand
    · cases paths <;> cases hpaths
  unfold expand at hexpand
  split at hexpand
  · rename_i hwild
    split at hexpand
    · rename_i hcompile
      cases hexpand
      exact .inl ⟨rfl, by simp [isMalformed, hwild, hcompile]⟩
    · dsimp only at hexpand
      split at hexpand
      · rcases bind_eq_error_iff.1 hexpand with hsearch | ⟨found, -, hfound⟩
        · exact .inr (search_eq_error hsearch)
        · cases hfound
      · cases hexpand
      · cases hexpand
      · cases hexpand
        exact .inr ⟨_, _, rfl⟩
  · cases hexpand

end Glob

/-- The rules of actions that only ask: they leave the machine as it was, and an error of reading
means that a pattern is malformed. -/
def Rules.asking (doubt : Prop) : Rules where
  moves before after := after = before
  causes e := e.isReading = true → e = .malformed ∧ doubt
  refl _ := rfl
  trans hfirst hsecond := hsecond.trans hfirst

/-- The rules of actions that are not about reading: they may change the machine and fail with no
error of reading. -/
def Rules.acting : Rules where
  moves _ _ := True
  causes e := e.isReading = false
  refl _ := trivial
  trans _ _ := trivial

private theorem Stage.runAll_acting (env : Environment) (stages : List Stage) :
    (Stage.runAll env stages).Obeys .acting := by
  apply Stage.runAll_obeys fun _ _ _ _ _ _ _ _ _ => trivial
  intro stage _
  apply Stage.run_obeys rfl fun _ _ => rfl
  intro app _ input sink _ _ _
  exact ⟨trivial, Stage.call_obeys (fun _ => rfl) fun _ => trivial⟩

namespace Pipeline

variable {env : Environment} {capture : Capture} {pipeline : Pipeline} {machine after : Machine}

def hasMalformedPattern (pipeline : Pipeline) : Bool :=
  (Pipeline.patterns pipeline).any Glob.isMalformed

private theorem expand_asking (scope : Scope) (hcaptured : Pipeline.captured pipeline = []) :
    (Pipeline.expand scope capture pipeline).Obeys
    (.asking (hasMalformedPattern pipeline = true)) := by
  apply Pipeline.expand_obeys
  · simp [hcaptured]
  · intro pattern hpattern
    apply ShellM.obeys_ofTree
    intro tree e herror hreading
    rcases Glob.expandArgument_eq_error herror with ⟨rfl, hmalformed⟩ | ⟨path, cause, rfl⟩
    · exact ⟨rfl, List.any_eq_true.2 ⟨pattern, hpattern, hmalformed⟩⟩
    · cases hreading

/-- A pipeline without captures that fails with an error of reading fails before its first stage,
over a pattern. -/
theorem of_run_eq_error (hcaptured : Pipeline.captured pipeline = []) {e : ShellError}
    (hreading : e.isReading = true)
    (h : Pipeline.run env capture pipeline machine = .error e after) :
    after = machine ∧ e = .malformed ∧ hasMalformedPattern pipeline = true := by
  rcases ShellM.bind_eq_error h with hexpand | ⟨stages, middle, -, hstages⟩
  · obtain ⟨hmachine, hcause⟩ := (expand_asking env.toScope hcaptured).of_error hexpand
    exact ⟨hmachine, hcause hreading⟩
  · have hcause : e.isReading = false := ((Stage.runAll_acting env stages).of_error hstages).2
    rw [hcause] at hreading
    cases hreading

private theorem calls_of_run_eq_ok (hcaptured : Pipeline.captured pipeline = [])
    (hne : pipeline ≠ []) (h : Pipeline.run env capture pipeline machine = .ok () after) :
    machine.calls.length < after.calls.length := by
  obtain ⟨stages, middle, hexpand, hstages⟩ := ShellM.bind_eq_ok h
  have hmiddle : middle = machine := (expand_asking env.toScope hcaptured).of_ok hexpand
  have hlength : pipeline.length = stages.length := (Pipeline.files_of_expand hexpand).length_eq
  obtain ⟨calls, hcalls, -, hmade⟩ := Stage.calls_runAll env stages middle
  simp only [ShellM.final, hstages] at hcalls
  have hpositive : 0 < pipeline.length := List.length_pos_iff.2 hne
  have hnew := hmade after hstages
  rw [hcalls, hmiddle, List.length_append]
  omega

private theorem calls_of_forM_eq_ok {pipelines : List Pipeline}
    (hall : ∀ pipeline ∈ pipelines, Pipeline.captured pipeline = [] ∧ pipeline ≠ [])
    (h : pipelines.forM (Pipeline.run env capture) machine = .ok () after) :
    machine.calls.length + pipelines.length ≤ after.calls.length := by
  induction pipelines generalizing machine with
  | nil =>
    cases h
    exact le_rfl
  | cons pipeline pipelines ih =>
    obtain ⟨_, middle, hfirst, hrest⟩ := ShellM.bind_eq_ok h
    obtain ⟨hcaptured, hne⟩ := hall pipeline List.mem_cons_self
    have hone := calls_of_run_eq_ok hcaptured hne hfirst
    have hmore := ih (fun other hother => hall other (List.mem_cons_of_mem pipeline hother)) hrest
    rw [List.length_cons]
    omega

end Pipeline

/-- An error of reading comes before everything else, but for one cause. A line without back-quotes
that fails with such an error has called no application, written nothing and changed no file,
exactly unless the error is that of a malformed pattern among the words of a pipeline that is not
the first: then the pipelines before it have run. -/
theorem runLine_reading_error_iff (env : Environment) (line : Text) (machine after : Machine)
    (e : ShellError) (hquote : '`' ∉ line) (hreading : e.isReading = true)
    (h : runLine env line machine = .error e after) :
    (after.calls = machine.calls ∧ after.stdout = machine.stdout ∧ after.tree = machine.tree) ↔
      ¬(e = .malformed ∧ ∃ done pipeline rest,
        Pipeline.ofLine env.toScope machine.tree line = .ok (done ++ pipeline :: rest) ∧
          done ≠ [] ∧ done.forM (Pipeline.run env (capture env)) machine = .ok () after ∧
          pipeline.hasMalformedPattern = true) := by
  rcases ShellM.bind_eq_error h with hread | ⟨pipelines, start, hread, hrun⟩
  · obtain ⟨hread, rfl⟩ := ShellM.ofTree_eq_error hread
    simp [hread]
  · obtain ⟨hread, rfl⟩ := ShellM.ofTree_eq_ok hread
    have hall : ∀ pipeline ∈ pipelines, Pipeline.captured pipeline = [] ∧ pipeline ≠ [] :=
      fun pipeline hpipeline =>
      ⟨Pipeline.captured_eq_nil_of_ofLine hquote hread hpipeline,
        Pipeline.ne_nil_of_ofLine hread hpipeline⟩
    obtain ⟨done, pipeline, rest, middle, rfl, hdone, hfailing⟩ :=
      ShellM.exists_of_forM_eq_error hrun
    obtain ⟨rfl, rfl, hmalformed⟩ :=
      Pipeline.of_run_eq_error (hall pipeline (by simp)).1 hreading hfailing
    constructor
    · -- Each pipeline that has run has made a call, so none has run if the calls are the same.
      rintro ⟨hcalls, -, -⟩ ⟨-, done', pipeline', rest', hsame, hne, hdone', -⟩
      rw [hread, Except.ok.injEq] at hsame
      have hgrown := Pipeline.calls_of_forM_eq_ok (fun other hother =>
        hall other (by simp [hsame, hother])) hdone'
      have hpositive : 0 < done'.length := List.length_pos_iff.2 hne
      rw [hcalls] at hgrown
      omega
    · intro hlate
      cases done with
      | nil =>
        cases hdone
        exact ⟨rfl, rfl, rfl⟩
      | cons first done =>
        exact absurd ⟨rfl, first :: done, pipeline, rest, hread, by simp, hdone, hmalformed⟩ hlate

/-- The pattern of the second pipeline is malformed, and the first pipeline has run. -/
theorem reading_error_after_output :
    ¬∀ (env : Environment) (line : Text) (machine after : Machine) (e : ShellError), '`' ∉ line →
      e.isReading = true → runLine env line machine = .error e after →
      after.calls = machine.calls ∧ after.stdout = machine.stdout ∧ after.tree = machine.tree := by
  intro hall
  have hrun : runLine .builtin "echo out ; echo ***".toList ⟨.empty, none, [], []⟩ =
      .error .malformed ⟨.empty, none, Text.utf8 "out\n".toList,
        [⟨"echo".toList, ["out".toList], none⟩]⟩ := by
    cbv
  have hcalls := (hall _ _ _ _ _ (by simp) rfl hrun).1
  simp at hcalls

theorem runLine_reading_error_iff_of_sameFile :
    ∃ after, runLine .builtin "echo out > f ; sort < f > f".toList ⟨.empty, none, [], []⟩ =
      .error .sameFile after ∧ after.calls = [] ∧ after.stdout = [] ∧ after.tree = .empty := by
  have hrun : runLine .builtin "echo out > f ; sort < f > f".toList ⟨.empty, none, [], []⟩ =
      .error .sameFile ⟨.empty, none, [], []⟩ := by
    cbv
  have hnothing := runLine_reading_error_iff .builtin "echo out > f ; sort < f > f".toList
    ⟨.empty, none, [], []⟩ ⟨.empty, none, [], []⟩ .sameFile (by simp) rfl hrun
  exact ⟨_, hrun, hnothing.2 (by simp)⟩

end LineShell
