import LineShell.Proofs.Run.Excerpts
import LineShell.Proofs.Run.Sorting
import Mathlib
/-!
# Ways of feeding a file to a filter

Head, tail and sort take a file that they name, a file that their input is redirected from, or what
cat writes to them. Main statement: the three ways agree on every well-formed text, and on any other
file only the named one is read, with its ill-formed parts replaced.
-/

namespace LineShell

open Application

/-- The built-in filters, with their arguments before and after the name of a file. -/
inductive Application.IsFilter : Application → (before after : List Text) → Prop
  | head {args : List Text} {count : Nat} : Selection.Asks args count → IsFilter .head args []
  | tail {args : List Text} {count : Nat} : Selection.Asks args count → IsFilter .tail args []
  | sort {before after : List Text} {numeric : Bool} :
      Sorting.Asks (before ++ after) numeric none → IsFilter .sort before after

private theorem Application.IsFilter.exists_filters {app : Application} {before after : List Text}
    (h : app.IsFilter before after) : ∃ edit, app.Filters before after edit := by
  cases h with
  | head hargs => exact ⟨_, hargs.filters List.take⟩
  | tail hargs => exact ⟨_, hargs.filters takeLast⟩
  | sort hargs => exact ⟨_, hargs.filters⟩

/-- A filter writes the same for a well-formed file that it names, that its input comes from, or
that cat writes to it: what it writes when it is fed with the text. If the file is not well-formed,
then the filter that names it writes what it writes when each maximal ill-formed part is replaced,
and the other two fail without output. -/
theorem filter_of_file_agrees {env : Environment} {name catName : Text} {app : Application}
    {before after : List Text} (hfilter : app.IsFilter before after)
    (happ : env.registry.find? name = some app)
    (hcat : env.registry.find? catName = some cat) {machine : Machine} {file : Text}
    (hplain : file.head? ≠ some '-') {location : Location} {bytes : Bytes}
    (hfile : machine.tree.NamesFile (env.resolvePath file) location bytes) :
    (∀ text : Text, bytes = text.utf8 → ∃ output,
      (∀ fed : Machine, fed.stdin = some text.utf8 →
        (Stage.runAll env [⟨name, before ++ after, none, none⟩]).Writes fed output) ∧
      (Stage.runAll env [⟨name, before ++ file :: after, none, none⟩]).Writes machine output ∧
      (Stage.runAll env [⟨name, before ++ after, some file, none⟩]).Writes machine output ∧
      (Stage.runAll env [⟨catName, [file], none, none⟩, ⟨name, before ++ after, none, none⟩]).Writes
        machine output) ∧
    ((∀ text : Text, bytes ≠ text.utf8) → ∃ units output, Utf8.HasUnits bytes units ∧
      (∀ fed : Machine, fed.stdin = some (Text.utf8 (units.map (·.getD '\ufffd'))) →
        (Stage.runAll env [⟨name, before ++ after, none, none⟩]).Writes fed output) ∧
      (Stage.runAll env [⟨name, before ++ file :: after, none, none⟩]).Writes machine output ∧
      (Stage.runAll env [⟨name, before ++ after, some file, none⟩]).Refuses machine
        (.application name (.inputText .invalidUtf8)) ∧
      (Stage.runAll env [⟨catName, [file], none, none⟩,
        ⟨name, before ++ after, none, none⟩]).Refuses machine
          (.application name (.inputText .invalidUtf8))) := by
  obtain ⟨edit, hedit⟩ := hfilter.exists_filters
  have hnamed := hedit.writes_named happ hplain hfile
  have hcopied :
      (Stage.run env ⟨catName, [file], none, none⟩).Writes { machine with stdout := [] } bytes :=
    Stage.writes_cat hcat hfile
  simp only [Stage.runAll_singleton]
  constructor
  · rintro text rfl
    rw [Utf8.decodeLossy_utf8] at hnamed
    exact ⟨(edit text).utf8, fun fed hfed => hedit.writes_stream happ hfed, hnamed,
      hedit.writes_redirected happ hfile,
      Stage.writes_pair hcopied fun fed _ hfed => hedit.writes_stream happ hfed⟩
  · intro hbytes
    refine ⟨Utf8.units bytes, (edit (Utf8.decodeLossy bytes)).utf8, Utf8.units_eq_iff.1 rfl,
      fun fed hfed => hedit.writes_stream happ hfed, hnamed,
        hedit.refuses_redirected happ hfile hbytes, ?_⟩
    exact Stage.refuses_pair hcopied fun fed _ hfed => hedit.refuses_stream happ hfed hbytes

/-- In the directory `/w`, a text in another directory through a link, and a file with a character
that is cut short and a byte that starts none. The root has other files of these names. -/
def machineWithIllFormed : Machine where
  tree := .ofList [("/l", .file [0x31]), ("/g", .file [0x32]), ("/v", .directory),
    ("/v/f", .file (Text.utf8 "10\n9\né".toList)), ("/w", .directory),
      ("/w/l", .link "../v/f".toList),
    ("/w/g", .file [0x62, 0x0A, 0xE2, 0x82, 0x0A, 0xFF])]
  stdin := none
  stdout := []
  calls := []

theorem filter_of_file_agrees_of_illFormed :
    (∃ output,
      (Stage.runAll .builtin [⟨"sort".toList, [['l'], ['-', 'n']], none, none⟩]).Writes
        machineWithIllFormed output ∧
      (Stage.runAll .builtin [⟨"sort".toList, [['-', 'n']], some ['l'], none⟩]).Writes
        machineWithIllFormed output ∧
      (Stage.runAll .builtin [⟨"cat".toList, [['l']], none, none⟩,
        ⟨"sort".toList, [['-', 'n']], none, none⟩]).Writes machineWithIllFormed output) ∧
    ∃ output,
      Utf8.HasUnits [0x62, 0x0A, 0xE2, 0x82, 0x0A, 0xFF]
        [some 'b', some '\n', none, some '\n', none] ∧
      (Stage.runAll .builtin [⟨"head".toList, [['g']], none, none⟩]).Writes
        machineWithIllFormed output ∧
      (Stage.runAll .builtin [⟨"head".toList, [], some ['g'], none⟩]).Refuses machineWithIllFormed
        (.application "head".toList (.inputText .invalidUtf8)) ∧
      (Stage.runAll .builtin [⟨"cat".toList, [['g']], none, none⟩,
        ⟨"head".toList, [], none, none⟩]).Refuses machineWithIllFormed
          (.application "head".toList (.inputText .invalidUtf8)) := by
  have hlink : machineWithIllFormed.tree.NamesFile (Environment.builtin.resolvePath ['l'])
      (Location.ofPath "/v/f".toList) (Text.utf8 "10\n9\né".toList) := ⟨by cbv, by cbv⟩
  have hbroken : machineWithIllFormed.tree.NamesFile (Environment.builtin.resolvePath ['g'])
      (Location.ofPath "/w/g".toList) [0x62, 0x0A, 0xE2, 0x82, 0x0A, 0xFF] := ⟨by cbv, by cbv⟩
  have hcat : Environment.builtin.registry.find? "cat".toList = some cat := rfl
  constructor
  · have hsort : IsFilter .sort [] [['-', 'n']] :=
      .sort (⟨by decide, rfl, by simp⟩ : Sorting.Asks ([] ++ [['-', 'n']]) true none)
    have hfound : Environment.builtin.registry.find? "sort".toList = some sort := rfl
    obtain ⟨output, -, hways⟩ :=
      (filter_of_file_agrees hsort hfound hcat (by decide) hlink).1 _ rfl
    exact ⟨output, hways⟩
  · have hfound : Environment.builtin.registry.find? "head".toList = some head := rfl
    obtain ⟨units, output, hunits, -, hways⟩ :=
      (filter_of_file_agrees (.head .default) hfound hcat (by decide) hbroken).2
        (Utf8.decode?_eq_none_iff.1 (by decide))
    obtain rfl := hunits.unique (Utf8.units_eq_iff.1 rfl)
    exact ⟨output, hunits, hways⟩

end LineShell
