import LineShell.Proofs.Run.Filters
import LineShell.Proofs.Text.Counts
import LineShell.Proofs.Text.Lines
import Mathlib
/-!
# What head and tail write

Main statement: head and tail cut a text between two of its lines, and at the same place if their
counts add up to the number of lines. Of two cuts in a row the smaller count decides.
-/

namespace LineShell

open Application

namespace Application

/-- The arguments, apart from the name of a file, ask for a number of lines. -/
inductive Selection.Asks : List Text → Nat → Prop
  | default : Asks [] defaultLines
  | count {text : Text} {count : Nat} : text.WritesCount count → Asks [['-', 'n'], text] count

private theorem Selection.Asks.ofArgs_eq {args : List Text} {count : Nat}
    (h : Selection.Asks args count) {file : Option Text}
    (hplain : ∀ name ∈ file, name.head? ≠ some '-') :
    Selection.ofArgs defaultLines (args ++ file.toList) = .ok ⟨count, file⟩ := by
  cases h with
  | default =>
    cases file with
    | none => rfl
    | some name => exact if_neg (hplain name rfl)
  | count hcount =>
    have hread := Text.parseCount_eq_ok_iff.2 hcount
    cases file <;> simp [ofArgs, readCount, hread]

theorem Selection.Asks.filters {args : List Text} {count : Nat} (h : Selection.Asks args count)
    (select : Nat → List Text → List Text) :
    Filters (excerpt select) args [] fun text => (select count (splitAfter '\n' text)).flatten where
  input hasInput := by
    have hargs : ofArgs defaultLines (args ++ (none : Option Text).toList) = .ok ⟨count, none⟩ :=
      h.ofArgs_eq (by simp)
    rw [Option.toList_none] at hargs
    simp only [excerpt, Program.needsOutput, if_true, hargs]
  file name hasInput hplain := by
    have hargs : ofArgs defaultLines (args ++ (some name).toList) = .ok ⟨count, some name⟩ :=
      h.ofArgs_eq (by simpa using hplain)
    rw [Option.toList_some] at hargs
    simp only [excerpt, Program.needsOutput, if_true, hargs]

section TakeLast

variable {α : Type} {list : List α} {count : Nat}

private theorem takeLast_of_length_le (h : list.length ≤ count) : takeLast count list = list := by
  rw [takeLast, Nat.sub_eq_zero_of_le h, List.drop_zero]

private theorem take_append_takeLast {first : Nat} (h : first + count = list.length) :
    list.take first ++ takeLast count list = list := by
  rw [takeLast, ← h, Nat.add_sub_cancel, List.take_append_drop]

@[simp] theorem takeLast_takeLast (first second : Nat) (list : List α) :
    takeLast second (takeLast first list) = takeLast (min first second) list := by
  simp only [takeLast, List.drop_drop, List.length_drop]
  congr 1
  omega

@[simp] theorem length_takeLast (count : Nat) (list : List α) :
    (takeLast count list).length = min count list.length := by
  rw [takeLast, List.length_drop]
  omega

end TakeLast

end Application

section Excerpts

variable {env : Environment} {name : Text} {select : Nat → List Text →
  List Text} {machine : Machine} {text : Text} {pieces : List Text}

private theorem Stage.writes_excerpt (happ : env.registry.find? name = some (excerpt select))
    {args : List Text} {count : Nat} (hargs : Selection.Asks args count)
    (hinput : machine.stdin = some text.utf8)
    (hpieces : HasPieces '\n' text pieces) :
    (Stage.run env ⟨name, args, none, none⟩).Writes machine
      (Text.utf8 (select count pieces).flatten) := by
  have hwrites := (hargs.filters select).writes_stream happ hinput
  rwa [List.append_nil, hpieces.splitAfter_eq] at hwrites

private theorem Stage.writes_excerpt_twice (happ : env.registry.find? name = some (excerpt select))
    {first second : List Text} {a b : Nat} (hfirst : Selection.Asks first a)
    (hsecond : Selection.Asks second b)
    (hinput : machine.stdin = some text.utf8) (hpieces : HasPieces '\n' text pieces)
    (hselected : HasPieces '\n' (select a pieces).flatten (select a pieces)) :
    (Stage.runAll env [⟨name, first, none, none⟩, ⟨name, second, none, none⟩]).Writes machine
      (Text.utf8 (select b (select a pieces)).flatten) := by
  refine Stage.writes_pair (Stage.writes_excerpt happ hfirst hinput hpieces) fun fed _ hfed => ?_
  exact Stage.writes_excerpt happ hsecond hfed hselected

end Excerpts

def Stage.counting (name count : Text) : Stage :=
  ⟨name, [['-', 'n'], count], none, none⟩

/-- Head and tail of a text, by its lines with their ends. Each count of 64 bits can be asked for. A
head and a tail whose counts add up to the number of lines make up the text; a count that is not
smaller than that number gives all of it; and two heads or two tails in a row give as much as the
one with the smaller count. Tail always cuts within the text. -/
theorem head_and_tail_divide_text {env : Environment} {headName tailName : Text}
    (hhead : env.registry.find? headName = some head)
    (htail : env.registry.find? tailName = some tail)
    {machine : Machine} {text : Text} (hinput : machine.stdin = some text.utf8) :
    (∀ k, k < 2 ^ 64 → Text.WritesCount (Nat.toDigits 10 k) k) ∧
    ∃ pieces : List Text, (∀ others, HasPieces '\n' text others ↔ others = pieces) ∧
      (∀ j k first last, Text.WritesCount first j → Text.WritesCount last k →
        j + k = pieces.length →
        ∃ front back, (Stage.runAll env [.counting headName first]).Writes machine front ∧
          (Stage.runAll env [.counting tailName last]).Writes machine back ∧
          front ++ back = text.utf8) ∧
      (∀ k count, Text.WritesCount count k → pieces.length ≤ k →
        (Stage.runAll env [.counting headName count]).Writes machine text.utf8 ∧
          (Stage.runAll env [.counting tailName count]).Writes machine text.utf8) ∧
      (∀ a b first second least, Text.WritesCount first a → Text.WritesCount second b →
        Text.WritesCount least (min a b) → ∀ name ∈ [headName, tailName],
        ∃ output,
          (Stage.runAll env [.counting name first, .counting name second]).Writes machine output ∧
          (Stage.runAll env [.counting name least]).Writes machine output) ∧
      ∀ k count, Text.WritesCount count k → ∃ skipped kept : List Text, pieces = skipped ++ kept ∧
        kept.length = min k pieces.length ∧
        (Stage.runAll env [.counting tailName count]).Writes machine (Text.utf8 kept.flatten) := by
  have hpieces := hasPieces_splitAfter '\n' text
  generalize splitAfter '\n' text = pieces at hpieces
  have hfront {count : Text} {k : Nat} (hcount : count.WritesCount k) :
      (Stage.runAll env [.counting headName count]).Writes machine
        (Text.utf8 (pieces.take k).flatten) := by
    rw [Stage.runAll_singleton]
    exact Stage.writes_excerpt hhead (.count hcount) hinput hpieces
  have hback {count : Text} {k : Nat} (hcount : count.WritesCount k) :
      (Stage.runAll env [.counting tailName count]).Writes machine
        (Text.utf8 (takeLast k pieces).flatten) := by
    rw [Stage.runAll_singleton]
    exact Stage.writes_excerpt htail (.count hcount) hinput hpieces
  refine ⟨fun k hk => Text.writesCount_toDigits hk, pieces, fun others => ?_, ?_, ?_, ?_, ?_⟩
  · rw [← splitAfter_eq_iff, hpieces.splitAfter_eq, eq_comm]
  · intro j k first last hfirst hlast hsum
    refine ⟨_, _, hfront hfirst, hback hlast, ?_⟩
    rw [← Text.utf8_append, ← List.flatten_append, take_append_takeLast hsum, hpieces.flatten_eq]
  · intro k count hcount hle
    have hall := hfront hcount
    have hlast := hback hcount
    rw [List.take_of_length_le hle, hpieces.flatten_eq] at hall
    rw [takeLast_of_length_le hle, hpieces.flatten_eq] at hlast
    exact ⟨hall, hlast⟩
  · intro a b first second least hfirst hsecond hleast name hname
    obtain rfl | rfl : name = headName ∨ name = tailName := by simpa using hname
    · have htwice := Stage.writes_excerpt_twice hhead (.count hfirst) (.count hsecond) hinput
        hpieces (hpieces.take a)
      rw [List.take_take, min_comm] at htwice
      exact ⟨_, htwice, hfront hleast⟩
    · have htwice := Stage.writes_excerpt_twice htail (.count hfirst) (.count hsecond) hinput
        hpieces (hpieces.drop _)
      rw [takeLast_takeLast] at htwice
      exact ⟨_, htwice, hback hleast⟩
  · intro k count hcount
    exact ⟨pieces.take (pieces.length - k), takeLast k pieces, (List.take_append_drop _ _).symm,
      length_takeLast k pieces, hback hcount⟩

/-- Four lines, one of them empty and the last without its end. -/
def unevenText : Text :=
  "a\n\nb\r\nc".toList

def machineWithUnevenText : Machine :=
  ⟨.empty, some unevenText.utf8, [], []⟩

theorem head_and_tail_divide_text_of_unevenText :
    (∃ front back,
      (Stage.runAll .builtin [.counting "head".toList ['+', '0', '1']]).Writes
        machineWithUnevenText front ∧
      (Stage.runAll .builtin [.counting "tail".toList ['3']]).Writes machineWithUnevenText back ∧
      front ++ back = unevenText.utf8) ∧
    (Stage.runAll .builtin [.counting "head".toList (Nat.toDigits 10 Text.maxCount)]).Writes
      machineWithUnevenText unevenText.utf8 ∧
    ∃ output,
      (Stage.runAll .builtin [.counting "tail".toList ['3'],
        .counting "tail".toList ['+', '0', '1']]).Writes machineWithUnevenText output ∧
      (Stage.runAll .builtin [.counting "tail".toList ['+', '0', '1']]).Writes
        machineWithUnevenText output := by
  have hone : Text.WritesCount ['+', '0', '1'] 1 :=
    .signed ⟨by decide, by simp, by decide, by norm_num⟩
  have hthree : Text.WritesCount ['3'] 3 := .plain ⟨by decide, by simp, by decide, by norm_num⟩
  have hhead : Environment.builtin.registry.find? "head".toList = some head := rfl
  have htail : Environment.builtin.registry.find? "tail".toList = some tail := rfl
  have hinput : machineWithUnevenText.stdin = some unevenText.utf8 := rfl
  obtain ⟨hcounts, pieces, hunique, hdivide, hall, htwice, -⟩ :=
    head_and_tail_divide_text hhead htail hinput
  have hpieces : ["a\n".toList, "\n".toList, "b\r\n".toList, "c".toList] = pieces :=
    (hunique _).1 (splitAfter_eq_iff.1 (by decide))
  have hlength : pieces.length = 4 := by rw [← hpieces]; rfl
  refine ⟨hdivide 1 3 _ _ hone hthree hlength.symm, ?_, ?_⟩
  · have hmax : Text.maxCount < 2 ^ 64 := Text.le_maxCount_iff.1 le_rfl
    refine (hall _ _ (hcounts _ hmax) ?_).1
    rw [hlength]
    decide
  · exact htwice 3 1 _ _ _ hthree hone hone "tail".toList (by simp)

end LineShell
