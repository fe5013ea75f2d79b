import LineShell.Proofs.Run.Nesting
import LineShell.Proofs.Text.Decoding
import LineShell.Proofs.Text.Lines
import LineShell.Proofs.Tree.Directories
import Mathlib
/-!
# What a capture returns

Main statement: a capture returns the lines that its command writes, joined by single spaces.
-/

namespace LineShell

/-- A capture returns the lines of what its command writes, in order and unchanged, with a space
between any two; so what it returns is on one line. Each maximal ill-formed part of the output
stands for the character U+FFFD. The command runs with no input and with an output of its own, and
the machine keeps its streams. -/
theorem capture_joins_lines (env : Environment) (command : Text) (machine after : Machine)
    (h : runLine env command { machine with stdin := none, stdout := [] } = .ok () after) :
    ∃ units lines, Utf8.HasUnits after.stdout units ∧
      Text.HasLines (units.map (·.getD '\ufffd')) lines ∧
      capture env command machine = .ok (List.intercalate [' '] lines)
        { after with stdin := machine.stdin, stdout := machine.stdout } ∧
      '\n' ∉ List.intercalate [' '] lines := by
  obtain ⟨lines, hlines⟩ := Text.exists_hasLines (Utf8.decodeLossy after.stdout)
  refine ⟨Utf8.units after.stdout, lines, Utf8.units_eq_iff.1 rfl, hlines, ?_, ?_⟩
  · rw [capture_eq, ← hlines.flattenLines_eq]
    simp [captureBy, ShellM.collecting, ShellM.feeding, h]
  · exact notMem_intercalate (by decide) hlines.feed_notMem

/-- Two line ends, several carriage returns and a byte that is not text. -/
def returnBytes : Bytes :=
  [97, 13, 13, 10, 10, 13, 255, 98, 13]

/-- A file of that name in the directory `/w`, and another one at the root. -/
def treeWithReturns : FileTree :=
  .ofList [("/f", .file [65]), ("/w", .directory), ("/w/f", .file returnBytes)]

theorem capture_joins_lines_of_returns :
    runLine .builtin "cat f".toList ⟨treeWithReturns, none, [], []⟩ =
      .ok () ⟨treeWithReturns, none, returnBytes, [⟨"cat".toList, [['f']], none⟩]⟩ ∧
    Utf8.HasUnits returnBytes
      [some 'a', some '\r', some '\r', some '\n', some '\n', some '\r', none, some 'b', some '\r'] ∧
    Text.HasLines "a\r\r\n\n\r\ufffdb\r".toList
      ["a\r".toList, [], "\r\ufffdb\r".toList] ∧
    capture .builtin "cat f".toList ⟨treeWithReturns, some [65], [66], []⟩ =
      .ok "a\r  \r\ufffdb\r".toList
        ⟨treeWithReturns, some [65], [66], [⟨"cat".toList, [['f']], none⟩]⟩ := by
  have hrun : runLine .builtin "cat f".toList ⟨treeWithReturns, none, [], []⟩ =
      .ok () ⟨treeWithReturns, none, returnBytes, [⟨"cat".toList, [['f']], none⟩]⟩ := by
    cbv
  obtain ⟨units, lines, hunits, hlines, hcapture, -⟩ :=
    capture_joins_lines .builtin _ ⟨treeWithReturns, some [65], [66], []⟩ _ hrun
  obtain rfl := hunits.unique (Utf8.units_eq_iff.1 rfl)
  obtain rfl := hlines.lines_eq
  exact ⟨hrun, hunits, hlines, hcapture⟩

end LineShell
