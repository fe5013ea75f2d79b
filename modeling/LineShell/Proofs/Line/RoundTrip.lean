import LineShell.Proofs.Line.Commands
import LineShell.Proofs.Line.Quoting
import LineShell.Proofs.Traversal
/-!
# Reading undoes writing

Main statement: every written form of well-formed pipelines is read as these pipelines. Blanks at
the ends of a command do not matter, a command's written form is left whole where a line is split,
and the parts are read one by one.
-/

namespace LineShell

open Text

namespace Text

theorem endsBlank_append {left right : Text} (hne : right ≠ []) :
    endsBlank (left ++ right) = endsBlank right := by
  rw [endsBlank, endsBlank, List.getLast?_append_of_ne_nil left hne]

private theorem endsBlank_append_of_false {left right : Text} (hleft : endsBlank left = false)
    (hright : endsBlank right = false) : endsBlank (left ++ right) = false := by
  cases right with
  | nil => rwa [List.append_nil]
  | cons => rwa [endsBlank_append (List.cons_ne_nil _ _)]

private theorem trimEnd_append_gap {text gap : Text} (htext : endsBlank text = false)
    (hgap : gap.all isBlank = true) : trimEnd (text ++ gap) = text := by
  have hgap' : ∀ c ∈ gap.reverse, isBlank c = true :=
    fun c hc => List.all_eq_true.1 hgap c (List.mem_reverse.1 hc)
  rw [trimEnd, List.reverse_append, List.dropWhile_append_of_pos hgap']
  cases hrev : text.reverse with
  | nil =>
    rw [List.reverse_eq_nil_iff] at hrev
    rw [hrev]
    rfl
  | cons c rest =>
    have hlast : text.getLast? = some c := by rw [List.getLast?_eq_head?_reverse, hrev,
      List.head?_cons]
    have hc : isBlank c = false := by simpa [endsBlank, hlast] using htext
    rw [List.dropWhile_cons_of_neg (by simp [hc]), ← hrev, List.reverse_reverse]

end Text

theorem Word.AllWritten.endsBlank {first : Bool} {words : List Word} {written : Text}
    (h : Word.AllWritten first words written) : written.endsBlank = false := by
  induction h with
  | nil => rfl
  | @cons _ _ _ gap raw rest _ _ hword _ ih =>
    obtain ⟨init, c, rfl, hc⟩ := hword.last
    rw [endsBlank_append (by simp)]
    apply endsBlank_append_of_false _ ih
    simp [Text.endsBlank, hc]

theorem Redirections.FileWritten.endsBlank {sign : Char} {file : Option Text} {written : Text}
    (h : Redirections.FileWritten sign file written) : written.endsBlank = false := by
  cases h with
  | absent => rfl
  | @present before after name _ _ hne hname =>
    have hlast : name.endsBlank = false := by
      rw [Text.endsBlank, List.getLast?_eq_some_getLast hne]
      exact Redirections.isBlank_of_isNameChar (List.all_eq_true.1 hname _ (List.getLast_mem hne))
    rw [endsBlank_append (by simp), show sign :: (after ++ name) = (sign :: after) ++ name from rfl,
      endsBlank_append hne, hlast]

theorem Redirections.Written.trimStart {redirections : Redirections} {text : Text}
    (h : Redirections.Written redirections text) :
    Redirections.Written redirections text.trimStart := by
  cases h with
  | @mk input output inputText outputText gap hinput houtput hgap =>
    cases hinput with
    | @present before after name hbefore hafter hne hname =>
      rw [List.append_assoc, trimStart_gap_append _ hbefore, List.cons_append,
        trimStart_cons _ (by decide)]
      have hfile : Redirections.FileWritten '<' (some name) ([] ++ '<' :: (after ++ name)) :=
        .present rfl hafter hne hname
      exact .mk hfile houtput hgap
    | absent =>
      cases houtput with
      | @present before after name hbefore hafter hne hname =>
        rw [List.nil_append, List.append_assoc, trimStart_gap_append _ hbefore, List.cons_append,
          trimStart_cons _ (by decide)]
        have hfile : Redirections.FileWritten '>' (some name) ([] ++ '>' :: (after ++ name)) :=
          .present rfl hafter hne hname
        exact .mk .absent hfile hgap
      | absent =>
        rw [List.nil_append, List.nil_append, trimStart_gap hgap]
        have hnone : Redirections.Written ⟨none, none⟩ ([] ++ ([] ++ [])) := .mk .absent .absent rfl
        exact hnone

namespace Command

theorem Written.trimEnd {command : Command} {text : Text} (h : Written command text) :
    Written command text.trimEnd := by
  cases h with
  | @mk words input output written rest hwords hrest =>
    cases hrest with
    | @mk _ _ inputText outputText gap hinput houtput hgap =>
      have hends : (written ++ (inputText ++ outputText)).endsBlank = false :=
        endsBlank_append_of_false hwords.endsBlank
          (endsBlank_append_of_false hinput.endsBlank houtput.endsBlank)
      have htrim : (written ++ (inputText ++ (outputText ++ gap))).trimEnd =
          written ++ (inputText ++ (outputText ++ [])) := by
        simpa using trimEnd_append_gap hends hgap
      rw [htrim]
      exact .mk hwords (.mk hinput houtput rfl)

theorem Written.trimStart {command : Command} {text : Text} (h : Written command text) :
    Written command text.trimStart := by
  cases h with
  | @mk words input output written rest hwords hrest =>
    cases hwords with
    | @cons _ _ _ gap raw written hgap _ hword hwords =>
      obtain ⟨c, tail, rfl, hc⟩ := hword.head
      rw [List.append_assoc, trimStart_gap_append _ hgap, List.cons_append, List.cons_append,
        trimStart_cons _ (isBlank_of_isDelimiter hc)]
      have hfirst : Word.AllWritten true _ ([] ++ (c :: tail ++ written)) :=
        .cons rfl (fun h => by cases h) hword hwords
      exact .mk hfirst hrest
    | nil => exact .mk .nil hrest.trimStart

theorem Written.trim {command : Command} {text : Text} (h : Written command text) :
    Written command text.trim :=
  h.trimStart.trimEnd

variable {scope : Scope} {tree : FileTree}

private theorem Written.not_blank {command : Command} {text : Text} (h : Written command text)
    (hwords : command.words ≠ []) : text.all isBlank = false := by
  cases h with
  | mk hwritten _ =>
    cases hwritten with
    | nil => exact absurd rfl hwords
    | cons _ _ hword _ =>
      obtain ⟨c, tail, rfl, hc⟩ := hword.head
      rw [List.all_eq_false]
      exact ⟨c, by simp, by simp [isBlank_of_isDelimiter hc]⟩

private theorem ofText_written {command : Command} {text : Text} (hwf : command.IsWellFormed)
    (hplain : command.HasPlainFiles) (h : Written command text) :
    ofText scope tree text = .ok command := by
  rw [ofText_complete scope tree h.trim fun path hpath => (hplain path hpath).2,
    if_neg (hasTwoFiles_iff.1 hwf.files), if_neg hwf.words_ne_nil]

private theorem exists_written {command : Command} (hwf : command.IsWellFormed)
    (hplain : command.HasPlainFiles) : ∃ text, Written command text := by
  have hfile (sign : Char) {file : Option Text} (hne : ∀ path, file = some path → path ≠ [])
      (hname : ∀ path, file = some path → path.all Redirections.isNameChar) :
      ∃ written, Redirections.FileWritten sign file written := by
    cases file with
    | none => exact ⟨[], .absent⟩
    | some path =>
      exact ⟨[] ++ sign :: ([] ++ path), .present rfl rfl (hne path rfl) (hname path rfl)⟩
  obtain ⟨written, hwritten⟩ := Word.exists_allWritten true hwf.words
  obtain ⟨inputText, hinput⟩ := hfile '<' hwf.input fun path hpath => (hplain path (.inl hpath)).1
  obtain ⟨outputText, houtput⟩ :=
    hfile '>' hwf.output fun path hpath => (hplain path (.inr hpath)).1
  exact ⟨written ++ (inputText ++ (outputText ++ [])), .mk hwritten (.mk hinput houtput rfl)⟩

end Command

namespace Pipeline

variable {scope : Scope} {tree : FileTree}

theorem IsWellFormed.isPlaced {pipeline : Pipeline} (h : IsWellFormed pipeline) :
    isPlaced pipeline = true := by
  simp only [Pipeline.isPlaced, Bool.and_eq_true, List.all_eq_true, decide_eq_true_eq]
  exact ⟨h.input, h.output⟩

theorem Written.passes {pipeline : Pipeline} {text : Text} (h : Written pipeline text) :
    Quoting.Passes ';' .bare text .bare := by
  obtain ⟨texts, htexts, rfl⟩ := h
  apply passes_intercalate rfl (by decide)
  intro text htext
  obtain ⟨command, -, hcommand⟩ := exists_of_mem_right htexts htext
  exact hcommand.passes (.inl rfl)

private theorem ofText_written {pipeline : Pipeline} {text : Text} (hwf : IsWellFormed pipeline)
    (hplain : ∀ command ∈ pipeline, command.HasPlainFiles) (h : Written pipeline text) :
    ofText scope tree text = .ok pipeline := by
  obtain ⟨texts, htexts, rfl⟩ := h
  have hne : texts ≠ [] := by
    rintro rfl
    exact hwf.ne_nil (List.forall₂_nil_right_iff.1 htexts)
  have hsplit : splitUnquoted '|' (List.intercalate ['|'] texts) = .ok texts := by
    apply splitUnquoted_intercalate (by decide) hne
    intro text htext
    obtain ⟨command, -, hcommand⟩ := exists_of_mem_right htexts htext
    exact hcommand.passes (.inr rfl)
  have hread : (texts.mapM fun text =>
      if text.all isBlank then .error .malformed else Command.ofText scope tree text) =
        .ok pipeline := by
    rw [mapM_eq_ok_iff]
    apply forall₂_swap htexts
    intro command hcommand text hwritten
    have hcommand' := hwf.commands command hcommand
    rw [hwritten.not_blank hcommand'.words_ne_nil]
    exact Command.ofText_written hcommand' (hplain command hcommand) hwritten
  simp only [ofText, hsplit, hread, ok_bind, hwf.isPlaced, if_true, pure_eq_ok]

private theorem Written.not_blank {pipeline : Pipeline} {text : Text} (hwf : IsWellFormed pipeline)
    (h : Written pipeline text) : text.all isBlank = false := by
  obtain ⟨texts, htexts, rfl⟩ := h
  cases htexts with
  | nil => exact absurd rfl hwf.ne_nil
  | @cons command text pipeline texts hcommand _ =>
    have hwords := (hwf.commands command List.mem_cons_self).words_ne_nil
    exact not_blank_intercalate _ (hcommand.not_blank hwords)

theorem ofLine_of_lineWritten {pipelines : List Pipeline} {line : Text} (hne : pipelines ≠ [])
    (hwf : ∀ pipeline ∈ pipelines, IsWellFormed pipeline)
    (hplain : ∀ pipeline ∈ pipelines, ∀ command ∈ pipeline, command.HasPlainFiles)
    (h : LineWritten pipelines line) : ofLine scope tree line = .ok pipelines := by
  obtain ⟨texts, htexts, rfl⟩ := h
  have hne' : texts ≠ [] := by
    rintro rfl
    exact hne (List.forall₂_nil_right_iff.1 htexts)
  have hsegments : segments (List.intercalate [';'] texts) = .ok texts := by
    apply segments_intercalate hne'
    · intro text htext
      obtain ⟨pipeline, -, hwritten⟩ := exists_of_mem_right htexts htext
      exact hwritten.passes
    · intro text htext
      obtain ⟨pipeline, hpipeline, hwritten⟩ := exists_of_mem_right htexts htext
      exact hwritten.not_blank (hwf pipeline hpipeline)
  have hread : texts.mapM (ofText scope tree) = .ok pipelines := by
    rw [mapM_eq_ok_iff]
    apply forall₂_swap htexts
    intro pipeline hpipeline text hwritten
    exact ofText_written (hwf pipeline hpipeline) (hplain pipeline hpipeline) hwritten
  rw [ofLine, hsegments]
  exact hread

/-- Reading undoes writing: well-formed pipelines whose files are plain names have written forms,
and each of these is read as the pipelines, whatever blanks and quotes have been chosen and whatever
the files are. -/
theorem ofLine_undoes_writing (scope : Scope) (tree : FileTree) (pipelines : List Pipeline)
    (hne : pipelines ≠ []) (hwf : ∀ pipeline ∈ pipelines, IsWellFormed pipeline)
    (hplain : ∀ pipeline ∈ pipelines, ∀ command ∈ pipeline, command.HasPlainFiles) :
    (∃ line, LineWritten pipelines line) ∧
      ∀ line, LineWritten pipelines line → ofLine scope tree line = .ok pipelines := by
  constructor
  · have hpipeline : ∀ pipeline ∈ pipelines, ∃ text, Written pipeline text := by
      intro pipeline hpipeline
      have hcommand : ∀ command ∈ pipeline, ∃ text, Command.Written command text :=
        fun command hmem =>
        Command.exists_written ((hwf pipeline hpipeline).commands command hmem)
          (hplain pipeline hpipeline command hmem)
      obtain ⟨texts, htexts⟩ := exists_forall₂ hcommand
      exact ⟨_, texts, htexts, rfl⟩
    obtain ⟨texts, htexts⟩ := exists_forall₂ hpipeline
    exact ⟨_, texts, htexts, rfl⟩
  · intro line hline
    exact ofLine_of_lineWritten hne hwf hplain hline

/-- Pipelines with a word of each kind, with quotes and signs inside back-quotes, and with files at
both ends of a pipeline. -/
def signedPipelines : List Pipeline :=
  [[⟨[[.pattern "cat".toList], [.literal "it's; a".toList]], some "in".toList, none⟩,
    ⟨[[.pattern "sort".toList], [.literal "-n".toList],
      [.pattern "x*".toList, .command "a | \"b".toList false]], none, none⟩,
    ⟨[[.literal "p ".toList, .command "q > \"r\" '".toList true]], none, some "out".toList⟩],
  [⟨[[.literal []]], none, none⟩]]

private theorem lineWritten_signedPipelines :
    LineWritten signedPipelines
      "cat \"it's; a\"<in|sort -n x*`a | \"b`|\"p `q > \"r\" '`\">out;''".toList := by
  have hempty : ([] : Text).all isBlank = true := rfl
  have hblank : " ".toList.all isBlank = true := by decide
  have hnone : Redirections.Written ⟨none, none⟩ [] := .mk .absent .absent hempty
  have hcat : Command.Written ⟨[[.pattern "cat".toList], [.literal "it's; a".toList]],
      some "in".toList, none⟩ "cat \"it's; a\"<in".toList :=
    .mk (.cons hempty (by simp) (.bare (by decide))
        (.cons hblank (by decide) (.double (by decide)) .nil))
      (.mk (.present hempty hempty (by decide) (by decide)) .absent hempty)
  have hsort : Command.Written ⟨[[.pattern "sort".toList], [.literal "-n".toList],
      [.pattern "x*".toList, .command "a | \"b".toList false]], none, none⟩
      "sort -n x*`a | \"b`".toList :=
    .mk (.cons hempty (by simp) (.bare (by decide))
      (.cons hblank (by decide) (.flag (by decide))
        (.cons hblank (by decide) (.bare (by decide)) .nil))) hnone
  have hprint : Command.Written ⟨[[.literal "p ".toList, .command "q > \"r\" '".toList true]],
      none, some "out".toList⟩ "\"p `q > \"r\" '`\">out".toList :=
    .mk (.cons hempty (by simp) (.interpolated (by decide)) .nil)
      (.mk .absent (.present hempty hempty (by decide) (by decide)) hempty)
  have hnothing : Command.Written ⟨[[.literal []]], none, none⟩ "''".toList :=
    .mk (.cons hempty (by simp) (.single (by decide) (by decide)) .nil) hnone
  exact ⟨_, .cons ⟨_, .cons hcat (.cons hsort (.cons hprint .nil)), rfl⟩
    (.cons ⟨_, .cons hnothing .nil, rfl⟩ .nil), rfl⟩

theorem ofLine_undoes_writing_of_signs :
    LineWritten signedPipelines
      "cat \"it's; a\"<in|sort -n x*`a | \"b`|\"p `q > \"r\" '`\">out;''".toList ∧
    ofLine ⟨"/w".toList, false⟩ .empty
      "cat \"it's; a\"<in|sort -n x*`a | \"b`|\"p `q > \"r\" '`\">out;''".toList =
      .ok signedPipelines := by
  refine ⟨lineWritten_signedPipelines, ?_⟩
  exact (ofLine_undoes_writing ⟨"/w".toList, false⟩ .empty signedPipelines (by decide) (by decide)
    (by decide)).2 _ lineWritten_signedPipelines

end Pipeline

end LineShell
