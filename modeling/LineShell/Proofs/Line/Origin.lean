import LineShell.Proofs.Line.WellFormed
import Mathlib
/-!
# Where what is read comes from

All characters of a word stand in the line that it is read from. So a line without back-quotes has
no commands to capture, a command to capture has no back-quotes itself, and only a line with a `>`
names a file to write.
-/

namespace LineShell

open Text

def Part.captured? : Part → Option Text
  | .command text _ => some text
  | _ => none

def Word.captured (word : Word) : List Text :=
  word.filterMap Part.captured?

/-- The text of a word that is a single pattern. -/
def Word.pattern? : Word → Option Text
  | [.pattern text] => some text
  | _ => none

def Command.captured (command : Command) : List Text :=
  command.words.flatten.filterMap Part.captured?

def Command.patterns (command : Command) : List Text :=
  command.words.filterMap Word.pattern?

def Pipeline.captured (pipeline : Pipeline) : List Text :=
  pipeline.flatMap Command.captured

def Pipeline.patterns (pipeline : Pipeline) : List Text :=
  pipeline.flatMap Command.patterns

namespace Word

@[simp] theorem captured_literal_cons (text : Text) (word : Word) :
    captured (.literal text :: word) = captured word :=
  rfl

@[simp] theorem captured_pattern_cons (text : Text) (word : Word) :
    captured (.pattern text :: word) = captured word :=
  rfl

@[simp] theorem captured_command_cons (text : Text) (quoted : Bool) (word : Word) :
    captured (.command text quoted :: word) = text :: captured word :=
  rfl

end Word

private theorem Part.captured?_eq_some {part : Part} {text : Text} :
    part.captured? = some text ↔ ∃ quoted, part = .command text quoted := by
  cases part <;> simp [Part.captured?]

theorem Command.mem_captured {command : Command} {text : Text} :
    text ∈ command.captured ↔ ∃ word ∈ command.words, ∃ quoted,
      Part.command text quoted ∈ word := by
  simp only [Command.captured, List.mem_filterMap, List.mem_flatten, Part.captured?_eq_some]
  constructor
  · rintro ⟨part, ⟨word, hword, hpart⟩, quoted, rfl⟩
    exact ⟨word, hword, quoted, hpart⟩
  · rintro ⟨word, hword, quoted, hpart⟩
    exact ⟨_, ⟨word, hword, hpart⟩, quoted, rfl⟩

theorem Command.mem_patterns {command : Command} {text : Text} :
    text ∈ command.patterns ↔ [Part.pattern text] ∈ command.words := by
  have hpattern (word : Word) : word.pattern? = some text ↔ word = [.pattern text] := by
    unfold Word.pattern?
    split <;> simp_all
  simp [Command.patterns, hpattern]

theorem Pipeline.mem_captured {pipeline : Pipeline} {command : Command} {word : Word} {part : Part}
    {text : Text} (hcommand : command ∈ pipeline) (hword : word ∈ command.words)
    (hpart : part ∈ word) (htext : part.captured? = some text) :
    text ∈ Pipeline.captured pipeline := by
  obtain ⟨quoted, rfl⟩ := Part.captured?_eq_some.1 htext
  exact List.mem_flatMap.2 ⟨command, hcommand, Command.mem_captured.2 ⟨word, hword, quoted, hpart⟩⟩

namespace Text

private theorem subset_of_mem_unquotedPieces {separator : Char} {quoting : Quoting}
    {text piece : Text} (h : piece ∈ unquotedPieces separator quoting text) : piece ⊆ text := by
  induction text generalizing quoting piece with
  | nil => simp_all [unquotedPieces]
  | cons c text ih =>
    rw [unquotedPieces] at h
    split at h
    · rcases List.mem_cons.1 h with rfl | h
      · exact List.nil_subset _
      · exact List.subset_cons_of_subset c (ih h)
    · cases hpieces : unquotedPieces separator (quoting.step c) text with
      | nil => exact absurd hpieces (unquotedPieces_ne_nil separator _ text)
      | cons first pieces =>
        rw [hpieces, List.modifyHead_cons] at h
        rcases List.mem_cons.1 h with rfl | h
        · exact List.cons_subset_cons c (ih (hpieces ▸ List.mem_cons_self))
        · exact List.subset_cons_of_subset c (ih (hpieces ▸ List.mem_cons_of_mem first h))

private theorem subset_of_mem_splitUnquoted {separator : Char} {text piece : Text}
    {pieces : List Text} (h : splitUnquoted separator text = .ok pieces) (hpiece : piece ∈ pieces) :
    piece ⊆ text := by
  unfold splitUnquoted at h
  split at h
  · cases h
    exact subset_of_mem_unquotedPieces hpiece
  · cases h

private theorem subset_of_mem_segments {line segment : Text} {pieces : List Text}
    (h : segments line = .ok pieces) (hsegment : segment ∈ pieces) : segment ⊆ line :=
  subset_of_mem_splitUnquoted (splitUnquoted_of_mem_segments h hsegment) hsegment

private theorem trim_subset (text : Text) : text.trim ⊆ text := by
  intro c hc
  have hend := (List.dropWhile_sublist _).subset (List.mem_reverse.1 hc)
  exact (List.dropWhile_sublist _).subset (List.mem_reverse.1 hend)

end Text

theorem Word.Written.subset {word : Word} {raw : Text} (h : Word.Written word raw) :
    ∀ part ∈ word, part.text ⊆ raw := by
  intro part hpart c hc
  have htext : c ∈ Word.text word := List.mem_flatMap.2 ⟨part, hpart, hc⟩
  cases h with
  | single | double =>
    obtain rfl := List.mem_singleton.1 hpart
    rw [Part.text] at hc
    simp [hc]
  | flag =>
    obtain rfl := List.mem_singleton.1 hpart
    exact hc
  | bare => exact htext
  | interpolated => simp [htext]

theorem Word.AllWritten.subset {first : Bool} {words : List Word} {written : Text}
    (h : Word.AllWritten first words written) :
    ∀ word ∈ words, ∀ part ∈ word, part.text ⊆ written := by
  induction h with
  | nil => simp
  | cons _ _ hword _ ih =>
    intro word hmem part hpart c hc
    rcases List.mem_cons.1 hmem with rfl | hmem
    · simp [hword.subset part hpart hc]
    · simp [ih word hmem part hpart hc]

/-- A file to write is read only where its sign stands. -/
theorem Redirections.mem_of_output {scope : Scope} {tree : FileTree} {text path : Text}
    {redirections : Redirections} (h : Redirections.ofText scope tree text = .ok redirections)
    (hpath : redirections.output = some path) :
    '>' ∈ text := by
  obtain ⟨rest, gap, hinput, houtput, -⟩ := exists_reads_of_ofText h
  have hrest : '>' ∈ rest := by
    obtain ⟨hnone, -⟩ | ⟨_, _, _, _, rfl, -⟩ := read_eq_ok houtput
    · rw [hpath] at hnone
      cases hnone
    · simp
  obtain ⟨-, rfl⟩ | ⟨_, _, _, _, rfl, -⟩ := read_eq_ok hinput
  · exact hrest
  · simp [hrest]

namespace Command

variable {scope : Scope} {tree : FileTree} {text : Text} {command : Command}

private theorem parts_subset_of_ofText (h : ofText scope tree text = .ok command) :
    ∀ word ∈ command.words, ∀ part ∈ word, part.text ⊆ text := by
  obtain ⟨tokens, rest, redirections, htokens, -, -, rfl⟩ := exists_tokens_of_ofText h
  obtain ⟨written, htext, hwords⟩ := tokenize_sound true htokens (fun h => by cases h)
  intro word hword part hpart c hc
  apply trim_subset text
  rw [htext]
  exact List.mem_append_left rest (hwords.subset word hword part hpart hc)

private theorem mem_of_output (h : ofText scope tree text = .ok command) {path : Text}
    (hpath : command.output = some path) : '>' ∈ text := by
  obtain ⟨tokens, rest, redirections, htokens, -, hredirections, rfl⟩ := exists_tokens_of_ofText h
  obtain ⟨written, htext, -⟩ := tokenize_sound true htokens (fun h => by cases h)
  apply trim_subset text
  rw [htext]
  exact List.mem_append_right written (Redirections.mem_of_output hredirections hpath)

private theorem backquote_notMem_of_captured (h : command.IsWellFormed) {captured : Text}
    (hmem : captured ∈ command.captured) : '`' ∉ captured := by
  obtain ⟨word, hword, quoted, hpart⟩ := mem_captured.1 hmem
  have hspan : captured.isSpan = true := by
    rcases h.words word hword with ⟨text, rfl, -⟩ | hbare | hinterpolated
    · simp at hpart
    · have := hbare.fits _ hpart
      simp_all [Part.fits]
    · have := hinterpolated.fits _ hpart
      simp_all [Part.fits]
  simp_all [Text.isSpan]

end Command

namespace Pipeline

variable {scope : Scope} {tree : FileTree} {line : Text} {pipelines : List Pipeline}
  {pipeline : Pipeline}

private theorem exists_text_of_mem (h : ofLine scope tree line = .ok pipelines)
    (hpipeline : pipeline ∈ pipelines) {command : Command} (hcommand : command ∈ pipeline) :
    ∃ text, text ⊆ line ∧ Command.ofText scope tree text = .ok command := by
  obtain ⟨segments, hsegments, hpipelines⟩ := exists_segments_of_ofLine h
  obtain ⟨segment, hsegment, hread⟩ := exists_of_mem_right hpipelines hpipeline
  obtain ⟨texts, htexts, -, hcommands⟩ := exists_texts_of_ofText hread
  obtain ⟨text, htext, hcommand⟩ := exists_of_mem_right hcommands hcommand
  refine ⟨text, fun c hc => ?_, hcommand⟩
  exact subset_of_mem_segments hsegments hsegment (subset_of_mem_splitUnquoted htexts htext hc)

theorem isWellFormed_of_ofLine (h : ofLine scope tree line = .ok pipelines)
    (hpipeline : pipeline ∈ pipelines) : IsWellFormed pipeline := by
  obtain ⟨segments, -, hpipelines⟩ := exists_segments_of_ofLine h
  obtain ⟨segment, -, hread⟩ := exists_of_mem_right hpipelines hpipeline
  exact isWellFormed_of_ofText hread

theorem ne_nil_of_ofLine (h : ofLine scope tree line = .ok pipelines)
    (hpipeline : pipeline ∈ pipelines) : pipeline ≠ [] :=
  (isWellFormed_of_ofLine h hpipeline).ne_nil

/-- A command in back-quotes stands in the line, back-quotes included, and has no back-quotes
itself. -/
theorem captured_of_ofLine (h : ofLine scope tree line = .ok pipelines)
    (hpipeline : pipeline ∈ pipelines) {captured : Text}
    (hcaptured : captured ∈ Pipeline.captured pipeline) :
    captured ⊆ line ∧ '`' ∈ line ∧ '`' ∉ captured := by
  obtain ⟨command, hcommand, hmem⟩ := List.mem_flatMap.1 hcaptured
  obtain ⟨text, htext, hread⟩ := exists_text_of_mem h hpipeline hcommand
  obtain ⟨word, hword, quoted, hpart⟩ := Command.mem_captured.1 hmem
  have hsubset := Command.parts_subset_of_ofText hread word hword _ hpart
  refine ⟨fun c hc => ?_, ?_, ?_⟩
  · exact htext (hsubset (by simp [Part.text, hc]))
  · exact htext (hsubset (by simp [Part.text]))
  · exact Command.backquote_notMem_of_captured (Command.isWellFormed_of_ofText hread) hmem

theorem captured_eq_nil_of_ofLine (hquote : '`' ∉ line) (h : ofLine scope tree line = .ok pipelines)
    (hpipeline : pipeline ∈ pipelines) : Pipeline.captured pipeline = [] := by
  rw [List.eq_nil_iff_forall_not_mem]
  intro captured hcaptured
  exact hquote (captured_of_ofLine h hpipeline hcaptured).2.1

/-- Only a line with the sign for it names a file to write. -/
theorem output_eq_none_of_ofLine (hsign : '>' ∉ line) (h : ofLine scope tree line = .ok pipelines)
    (hpipeline : pipeline ∈ pipelines) {command : Command} (hcommand : command ∈ pipeline) :
    command.output = none := by
  obtain ⟨text, htext, hread⟩ := exists_text_of_mem h hpipeline hcommand
  rw [Option.eq_none_iff_forall_ne_some]
  intro path hpath
  exact hsign (htext (Command.mem_of_output hread hpath))

end Pipeline

end LineShell
