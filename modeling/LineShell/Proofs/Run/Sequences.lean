import LineShell.Proofs.Line.WellFormed
import LineShell.Proofs.Run.Frames
import LineShell.Proofs.Tree.Directories
import Mathlib
/-!
# Lines in sequence

Two lines with a `;` between them are read as the pipelines of the one and then of the other.
Reading depends on the files only through wildcards in redirections. Main statement: without such
wildcards in the second line, running the two lines joined is running the first and, if it succeeds,
the second.
-/

namespace LineShell

open Text

namespace Redirections

/-- The names of files in the text of redirections: what stands between signs and blanks. -/
def names (text : Text) : List Text :=
  (text.splitOnP fun c => isBlank c || c = '<' || c = '>').filter (· ≠ [])

end Redirections

def Command.targets (text : Text) : List Text :=
  match text.trim.tokenize with
  | .ok (_, rest) => Redirections.names rest
  | .error _ => []

def Pipeline.targets (text : Text) : List Text :=
  match text.splitUnquoted '|' with
  | .ok texts => texts.flatMap Command.targets
  | .error _ => []

def Text.targets (line : Text) : List Text :=
  match line.segments with
  | .ok segments => segments.flatMap Pipeline.targets
  | .error _ => []

namespace Redirections

private theorem wildcard_notMem_of_names {text : Text} (h : ∀ name ∈ names text, '*' ∉ name) :
    '*' ∉ text := by
  intro hmem
  obtain ⟨name, hname, hin⟩ :=
    exists_mem_splitOnP (fun c => isBlank c || c = '<' || c = '>') hmem (by decide)
  refine h name (List.mem_filter.2 ⟨hname, ?_⟩) hin
  simpa using List.ne_nil_of_mem hin

private theorem ofText_congr_tree (scope : Scope) (tree other : FileTree) {text : Text}
    (hstar : '*' ∉ text) : ofText scope tree text = ofText scope other text := by
  rcases ofText_sound scope tree hstar with ⟨redirections, hwritten⟩ | hmalformed
  · have hplain := plain_of_written hwritten hstar
    rw [ofText_complete hwritten hplain, ofText_complete hwritten hplain]
  · rcases ofText_sound scope other hstar with ⟨redirections, hwritten⟩ | hmalformed'
    · have hplain := plain_of_written hwritten hstar
      rw [ofText_complete hwritten hplain, ofText_complete hwritten hplain]
    · rw [hmalformed, hmalformed']

end Redirections

private theorem Command.ofText_congr_tree (scope : Scope) (tree other : FileTree) {text : Text}
    (h : ∀ target ∈ Command.targets text, '*' ∉ target) :
    Command.ofText scope tree text = Command.ofText scope other text := by
  unfold Command.ofText
  cases htokens : text.trim.tokenize with
  | error e => simp only [error_bind]
  | ok found =>
    have hstar : '*' ∉ found.2 := by
      apply Redirections.wildcard_notMem_of_names
      simpa only [Command.targets, htokens] using h
    simp only [ok_bind, Redirections.ofText_congr_tree scope tree other hstar]

namespace Pipeline

private theorem ofText_congr_tree (scope : Scope) (tree other : FileTree) {text : Text}
    (h : ∀ target ∈ targets text, '*' ∉ target) :
    ofText scope tree text = ofText scope other text := by
  unfold ofText
  cases htexts : text.splitUnquoted '|' with
  | error e => simp only [error_bind]
  | ok texts =>
    have hcommands : (texts.mapM fun text =>
          if text.all isBlank then .error .malformed else Command.ofText scope tree text) =
        texts.mapM fun text =>
          if text.all isBlank then .error .malformed else Command.ofText scope other text := by
      apply mapM_congr
      intro text htext
      have hcommand : Command.ofText scope tree text = Command.ofText scope other text := by
        apply Command.ofText_congr_tree
        intro target htarget
        apply h
        simp only [targets, htexts]
        exact List.mem_flatMap.2 ⟨text, htext, htarget⟩
      rw [hcommand]
    simp only [ok_bind, hcommands]

/-- A line without wildcards in its redirections is read in the same way in every tree. -/
theorem ofLine_congr_tree (scope : Scope) (tree other : FileTree) {line : Text}
    (h : ∀ target ∈ line.targets, '*' ∉ target) :
    ofLine scope tree line = ofLine scope other line := by
  unfold ofLine
  cases hsegments : line.segments with
  | error e => simp only [error_bind]
  | ok segments =>
    have hpipelines : segments.mapM (ofText scope tree) = segments.mapM (ofText scope other) := by
      apply mapM_congr
      intro segment hsegment
      apply ofText_congr_tree
      intro target htarget
      apply h
      simp only [Text.targets, hsegments]
      exact List.mem_flatMap.2 ⟨segment, hsegment, htarget⟩
    simp only [ok_bind, hpipelines]

end Pipeline

namespace Text

private theorem unquotedPieces_append_separator {separator : Char}
    (hbare : Quoting.bare.step separator = .bare) {quoting : Quoting} {left : Text}
    (hleft : left.foldl Quoting.step quoting = .bare) (right : Text) :
    unquotedPieces separator quoting (left ++ separator :: right) =
      unquotedPieces separator quoting left ++ unquotedPieces separator .bare right := by
  induction left generalizing quoting with
  | nil =>
    obtain rfl : quoting = .bare := hleft
    simp [unquotedPieces, hbare]
  | cons c left ih =>
    obtain ⟨first, pieces, hpieces⟩ :=
      List.exists_cons_of_ne_nil (unquotedPieces_ne_nil separator (quoting.step c) left)
    rw [List.cons_append, unquotedPieces, unquotedPieces, ih hleft]
    split
    · rfl
    · rw [hpieces]
      rfl

private theorem segments_eq_ok_iff {line : Text} {pieces : List Text}
    (hline : line.all isBlank = false) :
    segments line = .ok pieces ↔ line.foldl Quoting.step .bare = .bare ∧
      unquotedPieces ';' .bare line = pieces ∧ pieces.any (·.all isBlank) = false := by
  simp only [segments, hline, splitUnquoted, balanced, Bool.false_eq_true, if_false,
    decide_eq_true_eq]
  by_cases hbalanced : line.foldl Quoting.step .bare = .bare
  · simp only [hbalanced, true_and, if_true, ok_bind]
    cases hblank : (unquotedPieces ';' .bare line).any (·.all isBlank) with
    | true =>
      simp only [if_true, reduceCtorEq, false_iff, not_and]
      rintro rfl
      simp [hblank]
    | false =>
      simp only [Bool.false_eq_true, if_false, Except.ok.injEq]
      constructor
      · rintro rfl
        exact ⟨rfl, hblank⟩
      · exact fun h => h.1
  · simp [hbalanced]

private theorem segments_append {first second : Text} {firsts seconds : List Text}
    (hfirst : first.all isBlank = false) (hsecond : second.all isBlank = false)
    (hfirsts : segments first = .ok firsts)
    (hseconds : segments second = .ok seconds) :
    segments (first ++ ';' :: second) = .ok (firsts ++ seconds) := by
  obtain ⟨hbare, rfl, hblank⟩ := (segments_eq_ok_iff hfirst).1 hfirsts
  obtain ⟨hbare', rfl, hblank'⟩ := (segments_eq_ok_iff hsecond).1 hseconds
  have hline : (first ++ ';' :: second).all isBlank = false := by
    rw [List.all_append, hfirst, Bool.false_and]
  rw [segments_eq_ok_iff hline]
  refine ⟨?_, unquotedPieces_append_separator rfl hbare second, ?_⟩
  · rw [List.foldl_append, hbare, List.foldl_cons]
    exact hbare'
  · rw [List.any_append, hblank, hblank']
    rfl

end Text

private theorem Pipeline.ofLine_append {scope : Scope} {tree : FileTree} {first second : Text}
    {firsts seconds : List Pipeline} (hfirst : first.all isBlank = false)
    (hsecond : second.all isBlank = false)
    (hfirsts : ofLine scope tree first = .ok firsts)
    (hseconds : ofLine scope tree second = .ok seconds) :
    ofLine scope tree (first ++ ';' :: second) = .ok (firsts ++ seconds) := by
  obtain ⟨segments, hsegments, hread⟩ := exists_segments_of_ofLine hfirsts
  obtain ⟨segments', hsegments', hread'⟩ := exists_segments_of_ofLine hseconds
  rw [ofLine, segments_append hfirst hsecond hsegments hsegments']
  exact mapM_eq_ok_iff.2 (List.rel_append hread hread')

/-- A `;` puts lines in sequence. Two lines that can be read, with a `;` between them, are read as
the pipelines of the one and then of the other. If no redirection of the second is written with a
wildcard, then running the joined line is running the first line and, only if that succeeds, the
second on the machine that the first has left. -/
theorem runLine_puts_in_sequence (env : Environment) (first second : Text) (machine : Machine)
    (firsts seconds : List Pipeline) (hfirst : first.all isBlank = false)
    (hsecond : second.all isBlank = false)
    (hfirsts : Pipeline.ofLine env.toScope machine.tree first = .ok firsts)
    (hseconds : Pipeline.ofLine env.toScope machine.tree second = .ok seconds)
    (htargets : ∀ target ∈ second.targets, '*' ∉ target) :
    Pipeline.ofLine env.toScope machine.tree (first ++ ';' :: second) = .ok (firsts ++ seconds) ∧
      runLine env (first ++ ';' :: second) machine =
        match runLine env first machine with
        | .ok _ middle => runLine env second middle
        | .error e after => .error e after := by
  have hjoined := Pipeline.ofLine_append hfirst hsecond hfirsts hseconds
  refine ⟨hjoined, ?_⟩
  rw [runLine_of_ofLine hjoined, runLine_of_ofLine hfirsts]
  have happend : (firsts ++ seconds).forM (Pipeline.run env (capture env)) =
      (do
        firsts.forM (Pipeline.run env (capture env))
        seconds.forM (Pipeline.run env (capture env))) := by
    simp
  rw [happend, ShellM.bind_apply]
  cases firsts.forM (Pipeline.run env (capture env)) machine with
  | error e after => rfl
  | ok _ middle =>
    -- The second line is read again after the first has run, perhaps in another tree.
    have hagain : Pipeline.ofLine env.toScope middle.tree second = .ok seconds := by
      rw [Pipeline.ofLine_congr_tree env.toScope middle.tree machine.tree htargets, hseconds]
    exact (runLine_of_ofLine hagain).symm

def machineWithDirectory : Machine where
  tree := .ofList [("/w", .directory), ("/f", .file [65])]
  stdin := none
  stdout := []
  calls := []

/-- The second line reads the file that the first has made, and a wildcard among its words matches
it. -/
theorem runLine_puts_in_sequence_of_files :
    runLine .builtin ("echo 'a;b' > f".toList ++ ';' :: " cat < f; echo *".toList)
        machineWithDirectory =
        (match runLine .builtin "echo 'a;b' > f".toList machineWithDirectory with
        | .ok _ middle => runLine .builtin " cat < f; echo *".toList middle
        | .error e after => .error e after) ∧
      ((runLine .builtin "echo 'a;b' > f; cat < f; echo *".toList).final
        machineWithDirectory).stdout = Text.utf8 "a;b\nf\n".toList := by
  have hfirst : Pipeline.ofLine Environment.builtin.toScope machineWithDirectory.tree
      "echo 'a;b' > f".toList =
        .ok [[⟨[[.pattern "echo".toList], [.literal "a;b".toList]], none, some ['f']⟩]] := by
    cbv
  have hsecond : Pipeline.ofLine Environment.builtin.toScope machineWithDirectory.tree
      " cat < f; echo *".toList = .ok [[⟨[[.pattern "cat".toList]], some ['f'], none⟩],
        [⟨[[.pattern "echo".toList], [.pattern ['*']]], none, none⟩]] := by
    cbv
  have htargets : ∀ target ∈ Text.targets " cat < f; echo *".toList, '*' ∉ target := by
    have hnames : Text.targets " cat < f; echo *".toList = [['f']] := by
      cbv
    rw [hnames]
    decide
  constructor
  · exact (runLine_puts_in_sequence .builtin "echo 'a;b' > f".toList " cat < f; echo *".toList
      machineWithDirectory _ _ (by decide) (by decide) hfirst hsecond htargets).2
  · cbv

end LineShell
