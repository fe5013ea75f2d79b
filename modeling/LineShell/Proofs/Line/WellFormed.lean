import LineShell.Proofs.Glob.Descents
import LineShell.Proofs.Line.Commands
import LineShell.Proofs.Line.Quoting
import LineShell.Proofs.Traversal
import Mathlib
/-!
# What is read is well-formed

Main statement: every pipeline that is read from a line has commands, each of its commands has
well-formed words and named files, and only the commands at its ends have files.
-/

namespace LineShell

open Text

namespace Glob

variable {tree : FileTree} {hidden : Bool} {pieces : List Piece} {root : Text}

private theorem ne_nil_of_search {depth : Nat} {directory : Location} {names : Descent}
    {found : List Descent} (h : search tree hidden pieces root depth directory names = .ok found) :
    ∀ descent ∈ found, descent ≠ [] := by
  intro descent hdescent
  rw [search_eq_filter h, List.mem_filter, List.mem_map] at hdescent
  obtain ⟨⟨below, hbelow, rfl⟩, -⟩ := hdescent
  have hne := (mem_descents.1 hbelow).1.ne_nil
  simp [hne]

theorem text_ne_nil {descent : Descent} (h : descent ≠ []) : descent.text ≠ [] := by
  match descent, h with
  | name :: names, _ =>
    have hname : name.text ≠ [] := by
      have := name.valid
      simp only [isName, Bool.and_eq_true, decide_eq_true_eq] at this
      exact this.1.1.1
    unfold Descent.text
    cases names with
    | nil => simpa using hname
    | cons next names => simp [List.intercalate_cons_cons]

private theorem ne_nil_of_expandRedirection {scope : Scope} {pattern path : Text}
    (hwild : hasWildcard pattern = true) (h : expandRedirection scope tree pattern = .ok path) :
    path ≠ [] := by
  obtain ⟨paths, hpaths, hpath⟩ : ∃ paths, expand scope tree pattern = .ok paths ∧
      path ∈ paths := by
    obtain ⟨paths, hpaths, h⟩ := bind_eq_ok_iff.1 h
    split at h
    · cases h
    · cases h
      exact ⟨_, hpaths, List.mem_singleton_self _⟩
    · cases h
  rw [expand, if_pos hwild] at hpaths
  split at hpaths
  · cases hpaths
  · dsimp only at hpaths
    split at hpaths
    · obtain ⟨found, hfound, hpaths⟩ := bind_eq_ok_iff.1 hpaths
      cases hpaths
      obtain ⟨descent, hdescent, rfl⟩ := List.mem_map.1 hpath
      have := text_ne_nil (ne_nil_of_search hfound descent hdescent)
      simp [this]
    all_goals cases hpaths
    all_goals cases hpath

end Glob

namespace Redirections

variable {scope : Scope} {tree : FileTree}

private theorem ne_nil_of_read {sign : Char} {text rest path : Text}
    (h : read scope tree sign text = .ok (some path, rest)) : path ≠ [] := by
  obtain ⟨hfile, -⟩ | ⟨_, _, name, path', -, -, -, hne, -, hpath, hfile⟩ := read_eq_ok h
  · cases hfile
  · cases hfile
    unfold resolveName at hpath
    split at hpath
    · rename_i hwild
      exact Glob.ne_nil_of_expandRedirection hwild hpath
    · cases hpath
      exact hne

private theorem ofText_eq_ok {text : Text} {redirections : Redirections}
    (h : ofText scope tree text = .ok redirections) :
    (∀ path, redirections.input = some path → path ≠ []) ∧
    (∀ path, redirections.output = some path → path ≠ []) ∧ ∀ path, redirections.input = some path →
    redirections.output ≠ some path := by
  obtain ⟨rest, gap, hinput, houtput, hsame⟩ := exists_reads_of_ofText h
  refine ⟨?_, ?_, ?_⟩
  · intro path hpath
    rw [hpath] at hinput
    exact ne_nil_of_read hinput
  · intro path hpath
    rw [hpath] at houtput
    exact ne_nil_of_read houtput
  · intro path hpath hpath'
    exact hsame ⟨by rw [hpath]; rfl, hpath.trans hpath'.symm⟩

end Redirections

theorem Command.exists_tokens_of_ofText {scope : Scope} {tree : FileTree} {text : Text}
    {command : Command} (h : Command.ofText scope tree text = .ok command) :
    ∃ tokens rest redirections, text.trim.tokenize = .ok (tokens, rest) ∧ tokens ≠ [] ∧
      Redirections.ofText scope tree rest = .ok redirections ∧
      command = ⟨tokens.map Word.ofToken, redirections.input, redirections.output⟩ := by
  obtain ⟨⟨tokens, rest⟩, htokens, h⟩ := bind_eq_ok_iff.1 h
  obtain ⟨redirections, hredirections, h⟩ := bind_eq_ok_iff.1 h
  split at h
  · cases h
  · rename_i hne
    cases h
    exact ⟨tokens, rest, redirections, htokens, hne, hredirections, rfl⟩

theorem Command.isWellFormed_of_ofText {scope : Scope} {tree : FileTree} {text : Text}
    {command : Command} (h : Command.ofText scope tree text = .ok command) :
    command.IsWellFormed := by
  obtain ⟨tokens, rest, redirections, htokens, hne, hredirections, rfl⟩ :=
    Command.exists_tokens_of_ofText h
  obtain ⟨written, -, hwords⟩ := tokenize_sound true htokens (fun h => by cases h)
  obtain ⟨hinput, houtput, hfiles⟩ := Redirections.ofText_eq_ok hredirections
  exact ⟨by simpa using hne, hwords.isWellFormed, hinput, houtput, hfiles⟩

namespace Pipeline

variable {scope : Scope} {tree : FileTree}

theorem exists_texts_of_ofText {text : Text} {pipeline : Pipeline}
    (h : ofText scope tree text = .ok pipeline) :
    ∃ texts, text.splitUnquoted '|' = .ok texts ∧ isPlaced pipeline = true ∧
      List.Forall₂ (fun text command => Command.ofText scope tree text = .ok command)
        texts pipeline := by
  obtain ⟨texts, htexts, h⟩ := bind_eq_ok_iff.1 h
  obtain ⟨commands, hcommands, h⟩ := bind_eq_ok_iff.1 h
  split at h
  · rename_i hplaced
    cases h
    refine ⟨texts, htexts, hplaced, (mapM_eq_ok_iff.1 hcommands).imp fun text command hread => ?_⟩
    split at hread
    · cases hread
    · exact hread
  · cases h

theorem exists_segments_of_ofLine {line : Text} {pipelines : List Pipeline}
    (h : ofLine scope tree line = .ok pipelines) :
    ∃ segments, line.segments = .ok segments ∧
      List.Forall₂ (fun segment pipeline => ofText scope tree segment = .ok pipeline)
        segments pipelines := by
  obtain ⟨segments, hsegments, hread⟩ := bind_eq_ok_iff.1 h
  exact ⟨segments, hsegments, mapM_eq_ok_iff.1 hread⟩

theorem isWellFormed_of_ofText {text : Text} {pipeline : Pipeline}
    (h : ofText scope tree text = .ok pipeline) : IsWellFormed pipeline := by
  obtain ⟨texts, htexts, hplaced, hcommands⟩ := exists_texts_of_ofText h
  simp only [isPlaced, Bool.and_eq_true, List.all_eq_true, decide_eq_true_eq] at hplaced
  refine ⟨?_, ?_, hplaced.1, hplaced.2⟩
  · rintro rfl
    rw [List.forall₂_nil_right_iff] at hcommands
    subst hcommands
    exact splitUnquoted_ne_nil htexts rfl
  · intro command hcommand
    obtain ⟨text, -, hread⟩ := exists_of_mem_right hcommands hcommand
    exact Command.isWellFormed_of_ofText hread

/-- All that is read from a line are well-formed pipelines, whatever the files are; and where
commands are read, a text is split into at least one, so that a pipeline has a last command. -/
theorem ofLine_yields_wellFormed (scope : Scope) (tree : FileTree) :
    (∀ line pipelines, ofLine scope tree line = .ok pipelines →
      ∀ pipeline ∈ pipelines, IsWellFormed pipeline) ∧
    ∀ text texts, splitUnquoted '|' text = .ok texts → texts ≠ [] := by
  constructor
  · intro line pipelines h pipeline hpipeline
    obtain ⟨segments, -, hsegments⟩ := exists_segments_of_ofLine h
    obtain ⟨segment, -, hread⟩ := exists_of_mem_right hsegments hpipeline
    exact isWellFormed_of_ofText hread
  · intro text texts h
    exact splitUnquoted_ne_nil h

theorem ofLine_yields_wellFormed_of_signs :
    ofLine ⟨"/w".toList, false⟩ .empty "cat 'a | b' < in | sort -r `echo '>'` > out".toList = .ok
      [[⟨[[.pattern "cat".toList], [.literal "a | b".toList]], some "in".toList, none⟩,
        ⟨[[.pattern "sort".toList], [.literal "-r".toList], [.command "echo '>'".toList false]],
          none, some "out".toList⟩]] ∧
    IsWellFormed [⟨[[.pattern "cat".toList], [.literal "a | b".toList]], some "in".toList, none⟩,
      ⟨[[.pattern "sort".toList], [.literal "-r".toList], [.command "echo '>'".toList false]],
        none, some "out".toList⟩] := by
  have hread : ofLine ⟨"/w".toList, false⟩ .empty
      "cat 'a | b' < in | sort -r `echo '>'` > out".toList = .ok
      [[⟨[[.pattern "cat".toList], [.literal "a | b".toList]], some "in".toList, none⟩,
        ⟨[[.pattern "sort".toList], [.literal "-r".toList], [.command "echo '>'".toList false]],
          none, some "out".toList⟩]] := by
    cbv
  have hwf := (ofLine_yields_wellFormed ⟨"/w".toList, false⟩ .empty).1
  exact ⟨hread, hwf _ _ hread _ (List.mem_singleton_self _)⟩

end Pipeline

end LineShell
