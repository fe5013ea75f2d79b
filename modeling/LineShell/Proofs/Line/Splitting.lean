import LineShell.Proofs.Line.Quoting
/-!
# Splitting at separators

A balanced text is split where a separator is read in the bare state. Main statement: splitting a
text and joining pieces that are balanced and have no such separator are inverse to each other. So
what a line is split into can be scanned again, piece by piece.
-/

namespace LineShell

namespace Text

variable {separator : Char}

theorem scan_eq_ok_iff {text : Text} {marks : List Mark} :
    scan text = .ok marks ↔ text.foldl Quoting.step .bare = .bare ∧
      marks = marksFrom 0 .bare text := by
  unfold scan balanced
  by_cases h : text.foldl Quoting.step .bare = .bare
  · simp [h, eq_comm]
  · simp [h]

theorem passes_iff_marksFrom {start after : Quoting} {text : Text} (offset : Nat) :
    Quoting.Passes separator start text after ↔ text.foldl Quoting.step start = after ∧
      ∀ mark ∈ marksFrom offset start text, mark.quoting = .bare → mark.char ≠ separator := by
  induction text generalizing start offset with
  | nil =>
    constructor
    · intro h
      cases h
      exact ⟨rfl, by simp [marksFrom]⟩
    · rintro ⟨rfl, -⟩
      exact .nil
  | cons c text ih =>
    rw [marksFrom, List.forall_mem_cons, List.foldl_cons]
    constructor
    · intro h
      cases h with
      | cons hc hrest =>
        obtain ⟨hafter, hmarks⟩ := (ih _).1 hrest
        exact ⟨hafter, hc, hmarks⟩
    · rintro ⟨hafter, hc, hmarks⟩
      exact .cons hc ((ih _).2 ⟨hafter, hmarks⟩)

/-- A text that can be scanned, and in which no separator is read in the bare state. -/
def Undivided (separator : Char) (text : Text) : Prop :=
  ∃ marks, scan text = .ok marks ∧ ∀ mark ∈ marks, mark.quoting = .bare → mark.char ≠ separator

private theorem undivided_iff_passes {text : Text} :
    Undivided separator text ↔ Quoting.Passes separator .bare text .bare := by
  simp only [Undivided, scan_eq_ok_iff, passes_iff_marksFrom 0]
  constructor
  · rintro ⟨marks, ⟨hbare, rfl⟩, hmarks⟩
    exact ⟨hbare, hmarks⟩
  · intro ⟨hbare, hmarks⟩
    exact ⟨_, ⟨hbare, rfl⟩, hmarks⟩

@[simp] theorem intercalate_unquotedPieces (separator : Char) (quoting : Quoting) (text : Text) :
    List.intercalate [separator] (unquotedPieces separator quoting text) = text := by
  induction text generalizing quoting with
  | nil => rfl
  | cons c text ih =>
    have hrest := ih (quoting.step c)
    obtain ⟨first, pieces, hpieces⟩ :=
      List.exists_cons_of_ne_nil (unquotedPieces_ne_nil separator (quoting.step c) text)
    rw [hpieces] at hrest
    rw [unquotedPieces, hpieces]
    split
    · rename_i hc
      rw [List.intercalate_cons_cons, hrest, hc.1]
      rfl
    · cases pieces <;> simp_all

/-- The first piece is read from the state in which the text starts, and the others from the bare
state. -/
theorem passes_of_unquotedPieces (hbare : Quoting.bare.step separator = .bare) {start : Quoting}
    {text : Text} (hend : text.foldl Quoting.step start = .bare) {first : Text} {pieces : List Text}
    (h : unquotedPieces separator start text = first :: pieces) :
    Quoting.Passes separator start first .bare ∧ ∀ piece ∈ pieces,
      Quoting.Passes separator .bare piece .bare := by
  induction text generalizing start first pieces with
  | nil =>
    obtain ⟨rfl, rfl⟩ : [] = first ∧ [] = pieces := by simpa [unquotedPieces] using h
    obtain rfl : start = .bare := hend
    exact ⟨.nil, by simp⟩
  | cons c text ih =>
    obtain ⟨next, others, hpieces⟩ :=
      List.exists_cons_of_ne_nil (unquotedPieces_ne_nil separator (start.step c) text)
    obtain ⟨hnext, hothers⟩ := ih hend hpieces
    rw [unquotedPieces, hpieces] at h
    split at h
    · rename_i hc
      obtain ⟨rfl, rfl⟩ := hc
      obtain ⟨rfl, rfl⟩ := List.cons.inj h
      rw [hbare] at hnext
      exact ⟨.nil, List.forall_mem_cons.2 ⟨hnext, hothers⟩⟩
    · rename_i hc
      obtain ⟨rfl, rfl⟩ := List.cons.inj h
      exact ⟨.cons (fun hquoting heq => hc ⟨heq, hquoting⟩) hnext, hothers⟩

private theorem splitUnquoted_eq_error_iff {text : Text} {e : ShellError} :
    splitUnquoted separator text = .error e ↔ e = .malformed ∧ ∃ cause,
      scan text = .error cause := by
  unfold splitUnquoted scan
  cases balanced text <;> simp [eq_comm]

private theorem splitUnquoted_eq_ok_iff (hquote : separator ∉ ['\'', '"', '`']) {text : Text}
    {pieces : List Text} :
    splitUnquoted separator text = .ok pieces ↔
      pieces ≠ [] ∧ text = List.intercalate [separator] pieces ∧
        ∀ piece ∈ pieces, Undivided separator piece := by
  constructor
  · intro h
    have hne := splitUnquoted_ne_nil h
    simp only [splitUnquoted, balanced, decide_eq_true_eq] at h
    split at h
    · rename_i hend
      cases h
      refine ⟨hne, (intercalate_unquotedPieces separator .bare text).symm, ?_⟩
      obtain ⟨first, pieces, hpieces⟩ := List.exists_cons_of_ne_nil hne
      obtain ⟨hfirst, hothers⟩ :=
        passes_of_unquotedPieces (Quoting.step_bare_of_notMem hquote) hend hpieces
      rw [hpieces, List.forall_mem_cons]
      exact ⟨undivided_iff_passes.2 hfirst, fun piece hpiece =>
        undivided_iff_passes.2 (hothers piece hpiece)⟩
    · cases h
  · rintro ⟨hne, rfl, hpieces⟩
    exact splitUnquoted_intercalate hquote hne fun piece hpiece =>
      undivided_iff_passes.1 (hpieces piece hpiece)

private theorem exists_pieces_of_scan (hquote : separator ∉ ['\'', '"', '`']) {text : Text}
    {marks : List Mark} (h : scan text = .ok marks) :
    ∃ pieces, splitUnquoted separator text = .ok pieces ∧ ∀ piece ∈ pieces, ∃ marks,
      scan piece = .ok marks := by
  have hsplit : splitUnquoted separator text = .ok (unquotedPieces separator .bare text) := by
    rw [splitUnquoted, balanced, (scan_eq_ok_iff.1 h).1]
    rfl
  refine ⟨_, hsplit, fun piece hpiece => ?_⟩
  obtain ⟨marks, hmarks, -⟩ := ((splitUnquoted_eq_ok_iff hquote).1 hsplit).2.2 piece hpiece
  exact ⟨marks, hmarks⟩

/-- Splitting and joining are inverse to each other. A text cannot be split exactly if it cannot be
scanned. Otherwise it is split into the undivided pieces that, joined by the separator, make it up;
and every such list of pieces is what some text is split into. So each segment of a line can be
scanned by itself, and so can each command of the segment. -/
theorem splitUnquoted_inverts_joining (separator : Char) (hquote : separator ∉ ['\'', '"', '`']) :
    (∀ text e, splitUnquoted separator text = .error e ↔
      e = .malformed ∧ ∃ cause, scan text = .error cause) ∧
    (∀ text pieces, splitUnquoted separator text = .ok pieces →
      pieces ≠ [] ∧ List.intercalate [separator] pieces = text ∧
        ∀ piece ∈ pieces, Undivided separator piece) ∧
    (∀ pieces, pieces ≠ [] → (∀ piece ∈ pieces, Undivided separator piece) →
      splitUnquoted separator (List.intercalate [separator] pieces) = .ok pieces) ∧
    ∀ line found, segments line = .ok found → ∀ segment ∈ found,
      (∃ marks, scan segment = .ok marks) ∧
      ∃ commands, splitUnquoted '|' segment = .ok commands ∧
        ∀ command ∈ commands, ∃ marks, scan command = .ok marks := by
  refine ⟨fun text e => splitUnquoted_eq_error_iff, ?_, ?_, ?_⟩
  · intro text pieces h
    obtain ⟨hne, htext, hpieces⟩ := (splitUnquoted_eq_ok_iff hquote).1 h
    exact ⟨hne, htext.symm, hpieces⟩
  · intro pieces hne hpieces
    exact (splitUnquoted_eq_ok_iff hquote).2 ⟨hne, rfl, hpieces⟩
  · intro line found h segment hsegment
    have hsplit := splitUnquoted_of_mem_segments h hsegment
    obtain ⟨marks, hmarks, -⟩ :=
      ((splitUnquoted_eq_ok_iff (by decide)).1 hsplit).2.2 segment hsegment
    exact ⟨⟨marks, hmarks⟩, exists_pieces_of_scan (by decide) hmarks⟩

theorem splitUnquoted_inverts_joining_of_quotes :
    splitUnquoted ';' "echo 'a;b' ;\"c`;'`;\"; d".toList = .ok
      ["echo 'a;b' ".toList, "\"c`;'`;\"".toList, " d".toList] := by
  have hpieces : ∀ piece ∈ ["echo 'a;b' ".toList, "\"c`;'`;\"".toList, " d".toList],
      Undivided ';' piece := by
    simp only [List.forall_mem_cons]
    refine ⟨⟨_, rfl, by decide⟩, ⟨_, rfl, by decide⟩, ⟨_, rfl, by decide⟩, by simp⟩
  exact (splitUnquoted_inverts_joining ';' (by decide)).2.2.1 _ (by simp) hpieces

end Text

end LineShell
