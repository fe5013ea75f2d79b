import LineShell.Proofs.Application.LineOrder
import LineShell.Proofs.Run.Filters
import LineShell.Proofs.Text.Lines
import Mathlib
/-!
# What sort writes

Main statements: sort writes the lines of its input in order, and what it writes depends on the
lines alone, not on the order in which they come; sorting what has been sorted changes nothing
exactly if no line ends with a carriage return.
-/

namespace LineShell

open Application

namespace Application

/-- The arguments ask to sort by numbers if the flag is among them, and to sort the file that the
others name. -/
structure Sorting.Asks (args : List Text) (numeric : Bool) (file : Option Text) : Prop where
  numeric_iff : numeric = true ↔ ['-', 'n'] ∈ args
  files : args.filter (· ≠ ['-', 'n']) = file.toList
  plain : ∀ name ∈ file, name.head? ≠ some '-'

-- The induction is on the arguments that are left, so a file may have been named before them.
private theorem Sorting.ofArgs_eq_ok {args : List Text} {sorting : Sorting} {file : Option Text}
    (hfiles : sorting.file.toList ++ args.filter (· ≠ ['-', 'n']) = file.toList)
    (hplain : ∀ name ∈ file, name.head? ≠ some '-') :
    sorting.ofArgs args = .ok ⟨sorting.numeric || decide (['-', 'n'] ∈ args), file⟩ := by
  induction args generalizing sorting with
  | nil =>
    have hfile : sorting.file = file := by
      rw [List.filter_nil, List.append_nil] at hfiles
      simpa using congrArg List.head? hfiles
    simp [ofArgs, ← hfile]
  | cons arg args ih =>
    by_cases hflag : arg = ['-', 'n']
    · rw [ofArgs, if_pos hflag, ih (by simpa [hflag] using hfiles)]
      simp [hflag]
    · rw [List.filter_cons_of_pos (by simpa using hflag)] at hfiles
      have hlength := congrArg List.length hfiles
      cases hnamed : sorting.file with
      | some name =>
        cases file <;> simp [hnamed] at hlength
      | none =>
        cases file with
        | none => simp at hlength
        | some name =>
          obtain ⟨rfl, hrest⟩ :
              arg = name ∧ args.filter (· ≠ ['-', 'n']) = [] := by simpa [hnamed] using hfiles
          have hhead : arg.head? ≠ some '-' := hplain arg rfl
          rw [ofArgs, if_neg hflag, if_neg hhead, hnamed, if_neg (by simp), ih (by rw [hrest]; rfl)]
          simp [Ne.symm hflag]

private theorem Sorting.Asks.sort_eq {args : List Text} {numeric : Bool} {file : Option Text}
    (h : Sorting.Asks args numeric file) (hasInput : Bool) :
    sort ⟨args, hasInput, true⟩ = .readText ⟨args, hasInput, true⟩ file fun text =>
      .writeText (sortLines numeric text) .exit := by
  have hnumeric : decide (['-', 'n'] ∈ args) = numeric := by
    rw [Bool.eq_iff_iff, decide_eq_true_eq, h.numeric_iff]
  have hargs : Sorting.ofArgs ⟨false, none⟩ args =
      .ok ⟨false || decide (['-', 'n'] ∈ args), file⟩ :=
    Sorting.ofArgs_eq_ok (by simpa using h.files) h.plain
  rw [Bool.false_or, hnumeric] at hargs
  simp only [sort, Program.needsOutput, if_true, hargs]

private theorem Sorting.Asks.with_file {before after : List Text} {numeric : Bool}
    (h : Sorting.Asks (before ++ after) numeric none) {file : Text}
    (hplain : file.head? ≠ some '-') :
    Sorting.Asks (before ++ file :: after) numeric (some file) := by
  have hflag : file ≠ ['-', 'n'] := by
    rintro rfl
    exact hplain rfl
  refine ⟨?_, ?_, by simpa using hplain⟩
  · rw [h.numeric_iff]
    simp [Ne.symm hflag]
  · have hbefore := h.files
    rw [List.filter_append, Option.toList_none, List.append_eq_nil_iff] at hbefore
    rw [List.filter_append, hbefore.1, List.filter_cons_of_pos (by simpa using hflag), hbefore.2]
    rfl

theorem Sorting.Asks.filters {before after : List Text} {numeric : Bool}
    (h : Sorting.Asks (before ++ after) numeric none) :
    Filters sort before after (sortLines numeric) where
  input := h.sort_eq
  file _ hasInput hplain := (h.with_file hplain).sort_eq hasInput

section Twice

variable {numeric : Bool} {text : Text} {lines : List Text}

private theorem length_sortLines (h : text.HasLines lines) :
    (sortLines numeric text).length = (lines.map fun line => line.length + 1).sum := by
  have hperm := (List.mergeSort_perm text.lines (lineOrder numeric)).map fun line => line.length + 1
  rw [h.lines_eq] at hperm
  rw [sortLines, h.lines_eq, List.length_flatten, List.map_map, ← hperm.sum_eq]
  simp [Function.comp_def]

private theorem hasLines_sortLines (h : text.HasLines lines) :
    (sortLines numeric text).HasLines
      ((lines.mergeSort (lineOrder numeric)).map Text.withoutReturn) := by
  rw [sortLines, h.lines_eq]
  refine Text.hasLines_flatten fun line hline => h.feed_notMem line ?_
  exact (List.mergeSort_perm lines _).mem_iff.1 hline

private theorem sortLines_sortLines (h : text.HasLines lines)
    (hplain : ∀ line ∈ lines, line.getLast? ≠ some '\r') :
    sortLines numeric (sortLines numeric text) = sortLines numeric text := by
  have hperm := List.mergeSort_perm lines (lineOrder numeric)
  have hkept := Text.map_withoutReturn fun line hline => hplain line (hperm.mem_iff.1 hline)
  have hagain : (sortLines numeric text).HasLines _ := hasLines_sortLines h
  rw [hkept] at hagain
  rw [sortLines, hagain.lines_eq, mergeSort_lineOrder_of_perm numeric hperm, sortLines, h.lines_eq]

-- A carriage return that is lost makes the text shorter, and nothing makes it longer.
private theorem length_sortLines_sortLines_lt (h : text.HasLines lines) {line : Text}
    (hline : line ∈ lines) (hreturn : line.getLast? = some '\r') :
    (sortLines numeric (sortLines numeric text)).length < (sortLines numeric text).length := by
  have hperm := (List.mergeSort_perm lines (lineOrder numeric)).map fun line =>
    line.withoutReturn.length + 1
  rw [length_sortLines (hasLines_sortLines h), length_sortLines h, List.map_map]
  calc ((lines.mergeSort (lineOrder numeric)).map
        ((fun line => line.length + 1) ∘ Text.withoutReturn)).sum
    _ = (lines.map fun line => line.withoutReturn.length + 1).sum := hperm.sum_eq
    _ < (lines.map fun line => line.length + 1).sum := by
      refine List.sum_lt_sum _ _ (fun line _ => ?_) ⟨line, hline, ?_⟩
      · have hle := (Text.withoutReturn_sublist line).length_le
        omega
      · have hlt := Text.length_withoutReturn_lt hreturn
        omega

private theorem sortLines_sortLines_iff (h : text.HasLines lines) :
    sortLines numeric (sortLines numeric text) = sortLines numeric text ↔
      ∀ line ∈ lines, line.getLast? ≠ some '\r' := by
  constructor
  · intro hsame line hline hreturn
    have hlt : (sortLines numeric (sortLines numeric text)).length < _ :=
      length_sortLines_sortLines_lt h hline hreturn
    rw [hsame] at hlt
    exact absurd hlt (lt_irrefl _)
  · exact sortLines_sortLines h

end Twice

end Application

private theorem Stage.run_sort {env : Environment} {name : Text}
    (happ : env.registry.find? name = some sort) {args : List Text} {numeric : Bool}
    (hargs : Sorting.Asks args numeric none) {machine : Machine} {text : Text}
    (hinput : machine.stdin = some text.utf8) :
    Stage.run env ⟨name, args, none, none⟩ machine = .ok ()
      { machine with
        stdin := some []
        stdout := machine.stdout ++ (sortLines numeric text).utf8
        calls := machine.calls ++ [⟨name, args, some (.ok text.utf8)⟩] } := by
  have hasks : Sorting.Asks (args ++ []) numeric none := by rwa [List.append_nil]
  have hrun := hasks.filters.run_stream happ hinput
  rwa [List.append_nil] at hrun

/-- Sorting what has been sorted changes nothing exactly if no line ends with a carriage return; one
that does loses it, since it is then taken for a part of the line's end. -/
theorem sort_of_sort_iff {env : Environment} {name : Text}
    (happ : env.registry.find? name = some sort) {args : List Text} {numeric : Bool}
    (hargs : Sorting.Asks args numeric none) {machine : Machine} {text : Text}
    (hinput : machine.stdin = some text.utf8) {lines : List Text} (hlines : text.HasLines lines) :
    ∃ once twice, Stage.runAll env [⟨name, args, none, none⟩] machine = .ok () once ∧
      Stage.runAll env [⟨name, args, none, none⟩, ⟨name, args, none, none⟩] machine = .ok () twice ∧
      twice.tree = once.tree ∧ twice.stdin = once.stdin ∧
      (twice.stdout = once.stdout ↔ ∀ line ∈ lines, line.getLast? ≠ some '\r') := by
  have hfirst : Stage.run env ⟨name, args, none, none⟩ { machine with stdout := [] } = _ :=
    Stage.run_sort happ hargs hinput
  refine ⟨_, { machine with
    stdin := some []
    stdout := machine.stdout ++ (sortLines numeric (sortLines numeric text)).utf8
    calls := machine.calls ++ [⟨name, args, some (.ok text.utf8)⟩] ++
      [⟨name, args, some (.ok (sortLines numeric text).utf8)⟩] },
    (congrFun (Stage.runAll_singleton env _) machine).trans (Stage.run_sort happ hargs hinput), ?_,
    rfl, rfl, ?_⟩
  · rw [Stage.runAll_cons env _ (by simp), ShellM.pipe_apply, hfirst]
    dsimp only
    rw [Stage.runAll_singleton, List.nil_append, Stage.run_sort happ hargs rfl]
  · rw [List.append_cancel_left_eq, ← sortLines_sortLines_iff hlines]
    exact ⟨Text.utf8_injective, congrArg Text.utf8⟩

/-- Carriage returns at the end of a line and inside one. -/
def machineWithReturns : Machine :=
  ⟨.empty, some (Text.utf8 "10 b\r\n9\ra\n-\n1.2.3".toList), [], []⟩

theorem sort_of_sort_iff_of_returns :
    ∃ once twice, Stage.runAll .builtin [⟨"sort".toList, [['-', 'n']], none, none⟩]
        machineWithReturns = .ok () once ∧
      Stage.runAll .builtin [⟨"sort".toList, [['-', 'n']], none, none⟩,
        ⟨"sort".toList, [['-', 'n']], none, none⟩] machineWithReturns = .ok () twice ∧
      twice.stdout = once.stdout := by
  have hsort : Environment.builtin.registry.find? "sort".toList = some sort := rfl
  have hasks : Sorting.Asks [['-', 'n']] true none := ⟨by decide, rfl, by simp⟩
  have hinput : machineWithReturns.stdin =
      some (Text.utf8 "10 b\r\n9\ra\n-\n1.2.3".toList) := rfl
  have hlines : Text.HasLines "10 b\r\n9\ra\n-\n1.2.3".toList
      ["10 b".toList, "9\ra".toList, "-".toList, "1.2.3".toList] := Text.lines_eq_iff.1 (by decide)
  obtain ⟨once, twice, honce, htwice, -, -, hsame⟩ :=
    sort_of_sort_iff hsort hasks hinput hlines
  exact ⟨once, twice, honce, htwice, hsame.2 (by decide)⟩

/-- Of two carriage returns before a line feed, each of two passes drops one. -/
theorem sort_of_sort_drops_return :
    Stage.runAll .builtin [⟨"sort".toList, [], none, none⟩]
        ⟨.empty, some (Text.utf8 "a\r\r\n".toList), [], []⟩ =
      .ok () ⟨.empty, some [], Text.utf8 "a\r\n".toList,
        [⟨"sort".toList, [], some (.ok (Text.utf8 "a\r\r\n".toList))⟩]⟩ ∧
    Stage.runAll .builtin [⟨"sort".toList, [], none, none⟩, ⟨"sort".toList, [], none, none⟩]
        ⟨.empty, some (Text.utf8 "a\r\r\n".toList), [], []⟩ =
      .ok () ⟨.empty, some [], Text.utf8 "a\n".toList,
        [⟨"sort".toList, [], some (.ok (Text.utf8 "a\r\r\n".toList))⟩,
          ⟨"sort".toList, [], some (.ok (Text.utf8 "a\r\n".toList))⟩]⟩ ∧
    Text.utf8 "a\n".toList ≠ Text.utf8 "a\r\n".toList := by
  refine ⟨?_, ?_, by decide⟩
  · cbv
  · rw [Stage.runAll_cons _ _ (by simp), ShellM.pipe_apply]
    cbv

end LineShell
