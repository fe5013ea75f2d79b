import LineShell.Proofs.Run.Filters
import LineShell.Proofs.Run.Frames
import Mathlib
/-!
# Redirected output

Main statement: what a stage writes to a file is what is read back from the same path, whatever
stood there before and however the path leads to it, and no other file changes.
-/

namespace LineShell

open Application

namespace Stage

variable {env : Environment} {machine opened : Machine}

private theorem openOutput_file {stage : Stage} {file : Text} {sink : Sink}
    (hfile : stage.output = some file) (h : stage.openOutput env machine = .ok sink opened) :
    ∃ location made, machine.tree.create (env.resolvePath file) = .ok (location, made) ∧
      sink = .file location ∧
      opened = { machine with tree := made } := by
  simp only [openOutput, hfile] at h
  cases hcreate : machine.tree.create (env.resolvePath file) with
  | error cause => simp [hcreate] at h
  | ok created =>
    rw [hcreate] at h
    cases h
    exact ⟨created.1, created.2, rfl, rfl, rfl⟩

private theorem call_echo (stage : Stage) (source : Option Source) (sink : Sink)
    (machine : Machine) :
    stage.call env echo ⟨source, some sink⟩ machine = .ok () (Machine.write
      { machine with
        calls := machine.calls ++ [⟨stage.app, stage.args, source.map machine.rest⟩] }
      (echoLine stage.args).utf8 sink) :=
  rfl

end Stage

/-- If echo writes to a file, then nothing goes to the output, and cat writes the line when it reads
the same name. The name stands for a path in the working directory, the path leads to a regular file
that holds the line and nothing else, and all other nodes of the tree are as before. -/
theorem cat_of_redirected_echo {env : Environment} {echoName catName : Text}
    (hecho : env.registry.find? echoName = some echo)
    (hcat : env.registry.find? catName = some cat) {args : List Text} {input : Option Text}
    {file : Text} {machine after : Machine}
    (h : Stage.run env ⟨echoName, args, input, some file⟩ machine = .ok () after) :
    after.stdout = machine.stdout ∧
      (∀ reader : Machine, reader.tree = after.tree →
        (Stage.run env ⟨catName, [file], none, none⟩).Writes reader
          (Text.utf8 (List.intercalate [' '] args ++ ['\n']))) ∧
      ∃ path location, Path.StandsFor env.cwd file path ∧
        after.tree.NamesFile path location (Text.utf8 (List.intercalate [' '] args ++ ['\n'])) ∧
        ∀ other, other ≠ location → after.tree.get? other = machine.tree.get? other := by
  obtain ⟨e, herror, -⟩ | ⟨app, source, sink, opened, happ, -, hopen, hrun⟩ :=
    Stage.run_cases env ⟨echoName, args, input, some file⟩ machine
  · rw [h] at herror
    cases herror
  · obtain rfl : echo = app := Option.some.inj (hecho.symm.trans happ)
    obtain ⟨location, made, hcreate, rfl, rfl⟩ := Stage.openOutput_file rfl hopen
    rw [h, Stage.call_echo] at hrun
    cases hrun
    obtain ⟨hnamed, hothers⟩ := FileTree.append_of_create hcreate (echoLine args).utf8
    refine ⟨rfl, fun reader hreader => ?_, _, location, Path.standsFor_iff.2 rfl, hnamed, hothers⟩
    apply Stage.writes_cat hcat
    rw [hreader]
    exact hnamed

/-- In the directory `/w`, a link to a file that is longer than what is written to it and a link to
one that is missing. The root has other files of these names. -/
def machineWithTargets : Machine where
  tree := .ofList [("/full", .file [0x31]), ("/dangling", .file [0x32]), ("/w", .directory),
    ("/w/d", .directory), ("/w/d/f", .file (Text.utf8 "an older and longer line\n".toList)),
    ("/w/full", .link "d/f".toList), ("/w/dangling", .link "d/../d/new".toList)]
  stdin := none
  stdout := []
  calls := []

theorem cat_of_redirected_echo_of_links :
    (∃ after,
      Stage.run .builtin ⟨"echo".toList, [['a'], [], ['b']], none, some "d/../full".toList⟩
        machineWithTargets = .ok () after ∧
      (Stage.run .builtin ⟨"cat".toList, ["d/../full".toList], none, none⟩).Writes after
        (Text.utf8 "a  b\n".toList) ∧
      after.tree.NamesFile "/w/d/../full".toList (Location.ofPath "/w/d/f".toList)
        (Text.utf8 "a  b\n".toList) ∧
      after.tree.get? (Location.ofPath "/full".toList) = some (.file [0x31])) ∧
    ∃ after,
      Stage.run .builtin ⟨"echo".toList, [], none, some "/w/dangling".toList⟩ machineWithTargets =
        .ok () after ∧
      (Stage.run .builtin ⟨"cat".toList, ["/w/dangling".toList], none, none⟩).Writes after
        (Text.utf8 ['\n']) ∧
      after.tree.NamesFile "/w/dangling".toList (Location.ofPath "/w/d/new".toList)
        (Text.utf8 ['\n']) ∧
      after.tree.get? (Location.ofPath "/dangling".toList) = some (.file [0x32]) := by
  have hecho : Environment.builtin.registry.find? "echo".toList = some echo := rfl
  have hcat : Environment.builtin.registry.find? "cat".toList = some cat := rfl
  constructor
  · have hrun : Stage.run .builtin ⟨"echo".toList, [['a'], [], ['b']], none,
        some "d/../full".toList⟩ machineWithTargets = .ok ()
        ⟨(machineWithTargets.tree.insert (Location.ofPath "/w/d/f".toList) (.file [])).append
          (Location.ofPath "/w/d/f".toList) (Text.utf8 "a  b\n".toList), none, [],
          [⟨"echo".toList, [['a'], [], ['b']], none⟩]⟩ := by
      cbv
    obtain ⟨-, hreads, path, location, hpath, hnamed, hothers⟩ :=
      cat_of_redirected_echo hecho hcat hrun
    obtain rfl : path = "/w/d/../full".toList := Path.standsFor_iff.1 hpath
    obtain rfl : location = Location.ofPath "/w/d/f".toList :=
      Except.ok.inj (hnamed.resolve_eq.symm.trans (by cbv))
    exact ⟨_, hrun, hreads _ rfl, hnamed, hothers _ (by decide)⟩
  · have hrun : Stage.run .builtin ⟨"echo".toList, [], none, some "/w/dangling".toList⟩
        machineWithTargets = .ok ()
        ⟨(machineWithTargets.tree.insert (Location.ofPath "/w/d/new".toList) (.file [])).append
          (Location.ofPath "/w/d/new".toList) (Text.utf8 ['\n']), none, [],
          [⟨"echo".toList, [], none⟩]⟩ := by
      cbv
    obtain ⟨-, hreads, path, location, hpath, hnamed, hothers⟩ :=
      cat_of_redirected_echo hecho hcat hrun
    obtain rfl : path = "/w/dangling".toList := Path.standsFor_iff.1 hpath
    obtain rfl : location = Location.ofPath "/w/d/new".toList :=
      Except.ok.inj (hnamed.resolve_eq.symm.trans (by cbv))
    exact ⟨_, hrun, hreads _ rfl, hnamed, hothers _ (by decide)⟩

end LineShell
