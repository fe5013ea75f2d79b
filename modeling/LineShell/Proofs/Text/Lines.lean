import LineShell.Text.Lines
import Mathlib
/-!
# What the lines of a text are

The lines of a text are said by a relation, without a way to find them. The functions that divide a
text into lines and that put it on one line agree with the relation; lines that are written out are
read back, except for a carriage return at the end of a line, which is then taken for a part of the
line's end.
-/

namespace LineShell

section Pieces

variable {α : Type} {mark : α} {list : List α} {pieces : List (List α)}

/-- The pieces of a list: each ends with its only mark, except that the last one may have none. No
piece is empty. -/
inductive HasPieces (mark : α) : List α → List (List α) → Prop
  | nil : HasPieces mark [] []
  | last {piece : List α} : piece ≠ [] → mark ∉ piece → HasPieces mark piece [piece]
  | ended {piece rest : List α} {pieces : List (List α)} :
      mark ∉ piece → HasPieces mark rest pieces →
      HasPieces mark (piece ++ mark :: rest) ((piece ++ [mark]) :: pieces)

theorem HasPieces.flatten_eq (h : HasPieces mark list pieces) : pieces.flatten = list := by
  induction h with
  | nil => rfl
  | last => simp
  | ended _ _ ih => simp [ih]

theorem HasPieces.take (h : HasPieces mark list pieces) (count : Nat) :
    HasPieces mark (pieces.take count).flatten (pieces.take count) := by
  induction h generalizing count with
  | nil => simpa using .nil
  | last hne hmark =>
    cases count with
    | zero => exact .nil
    | succ count => simpa using .last hne hmark
  | ended hmark _ ih =>
    cases count with
    | zero => exact .nil
    | succ count => simpa using .ended hmark (ih count)

theorem HasPieces.drop (h : HasPieces mark list pieces) (count : Nat) :
    HasPieces mark (pieces.drop count).flatten (pieces.drop count) := by
  induction h generalizing count with
  | nil => simpa using .nil
  | last hne hmark =>
    cases count with
    | zero => simpa using .last hne hmark
    | succ count => simpa using .nil
  | ended hmark hrest ih =>
    cases count with
    | zero => simpa [hrest.flatten_eq] using .ended hmark hrest
    | succ count => exact ih count

end Pieces

section SplitAfter

variable {α : Type} [DecidableEq α] {mark : α} {list piece : List α} {pieces : List (List α)}

private theorem splitAfter_append (h : mark ∉ piece) (rest : List α) :
    splitAfter mark (piece ++ mark :: rest) = (piece ++ [mark]) :: splitAfter mark rest := by
  induction piece with
  | nil => simp [splitAfter]
  | cons a piece ih =>
    rw [List.mem_cons, not_or] at h
    rw [List.cons_append, splitAfter, if_neg (Ne.symm h.1), ih h.2]
    rfl

private theorem splitAfter_of_notMem (h : mark ∉ piece) (hne : piece ≠ []) :
    splitAfter mark piece = [piece] := by
  induction piece with
  | nil => exact absurd rfl hne
  | cons a piece ih =>
    rw [List.mem_cons, not_or] at h
    rw [splitAfter, if_neg (Ne.symm h.1)]
    by_cases hpiece : piece = []
    · rw [hpiece]
      rfl
    · rw [ih h.2 hpiece]

theorem HasPieces.splitAfter_eq (h : HasPieces mark list pieces) :
    splitAfter mark list = pieces := by
  induction h with
  | nil => rfl
  | last hne hmark => exact splitAfter_of_notMem hmark hne
  | ended hmark _ ih => rw [splitAfter_append hmark, ih]

theorem hasPieces_splitAfter (mark : α) (list : List α) :
    HasPieces mark list (splitAfter mark list) := by
  induction hlength : list.length using Nat.strong_induction_on generalizing list with
  | _ length ih =>
    by_cases hmark : mark ∈ list
    · obtain ⟨piece, rest, rfl, hpiece⟩ := List.eq_append_cons_of_mem hmark
      rw [splitAfter_append hpiece]
      exact .ended hpiece (ih rest.length (by simp at hlength; omega) rest rfl)
    · by_cases hne : list = []
      · subst hne
        exact .nil
      · rw [splitAfter_of_notMem hmark hne]
        exact .last hne hmark

theorem splitAfter_eq_iff : splitAfter mark list = pieces ↔ HasPieces mark list pieces :=
  ⟨fun h => h ▸ hasPieces_splitAfter mark list, HasPieces.splitAfter_eq⟩

end SplitAfter

namespace Text

def withoutReturn (text : Text) : Text :=
  if text.getLast? = some '\r' then text.dropLast else text

/-- The lines of a text. A line feed ends a line, and one carriage return before it does not belong
to the line. What follows the last line feed is kept whole, and it is a line unless it is empty. -/
inductive HasLines : Text → List Text → Prop
  | nil : HasLines [] []
  | last {line : Text} : line ≠ [] → '\n' ∉ line → HasLines line [line]
  | ended {line rest : Text} {lines : List Text} :
      '\n' ∉ line → HasLines rest lines → HasLines (line ++ '\n' :: rest)
        (withoutReturn line :: lines)

variable {text line : Text} {lines : List Text}

@[simp] theorem withoutReturn_concat (body : Text) (c : Char) :
    withoutReturn (body ++ [c]) = if c = '\r' then body else body ++ [c] := by
  simp [withoutReturn]

theorem withoutReturn_sublist (text : Text) : (withoutReturn text).Sublist text := by
  unfold withoutReturn
  split
  · exact List.dropLast_sublist text
  · exact List.Sublist.refl text

theorem map_withoutReturn (h : ∀ line ∈ lines, line.getLast? ≠ some '\r') :
    lines.map withoutReturn = lines := by
  nth_rewrite 2 [← List.map_id lines]
  refine List.map_congr_left fun line hline => ?_
  rw [withoutReturn, if_neg (h line hline), id]

theorem length_withoutReturn_lt (h : text.getLast? = some '\r') :
    text.withoutReturn.length < text.length := by
  have hne : text ≠ [] := by
    rintro rfl
    cases h
  have hpos := List.length_pos_iff.2 hne
  rw [withoutReturn, if_pos h, List.length_dropLast]
  omega

@[simp] theorem withoutReturn_append_feed (front body : Text) :
    withoutReturn (front ++ '\n' :: body) = front ++ '\n' :: withoutReturn body := by
  obtain rfl | ⟨body, c, rfl⟩ := List.eq_nil_or_concat' body
  · simp [withoutReturn]
  · have hassoc : front ++ '\n' :: (body ++ [c]) = (front ++ '\n' :: body) ++ [c] := by simp
    rw [hassoc, withoutReturn_concat, withoutReturn_concat]
    split <;> simp

private theorem chomp_concat {c : Char} (h : c ≠ '\n') (body : Text) :
    chomp (body ++ [c]) = body ++ [c] := by
  unfold chomp
  split <;> simp_all

private theorem chomp_of_notMem (h : '\n' ∉ line) : chomp line = line := by
  obtain rfl | ⟨body, c, rfl⟩ := List.eq_nil_or_concat' line
  · rfl
  · refine chomp_concat ?_ body
    rintro rfl
    simp at h

@[simp] theorem chomp_feed (line : Text) : chomp (line ++ ['\n']) = withoutReturn line := by
  obtain rfl | ⟨body, c, rfl⟩ := List.eq_nil_or_concat' line
  · rfl
  · rw [withoutReturn_concat]
    by_cases hc : c = '\r'
    · simp [chomp, hc]
    · simp [chomp, hc]

theorem HasLines.lines_eq (h : HasLines text lines) : text.lines = lines := by
  induction h with
  | nil => rfl
  | last hne hfeed =>
    rw [Text.lines, splitAfter_of_notMem hfeed hne, List.map_singleton, chomp_of_notMem hfeed]
  | ended hfeed _ ih =>
    rw [Text.lines, splitAfter_append hfeed, List.map_cons, chomp_feed, ← ih]
    rfl

private theorem hasLines_of_hasPieces {pieces : List Text} (h : HasPieces '\n' text pieces) :
    HasLines text (pieces.map chomp) := by
  induction h with
  | nil => exact .nil
  | last hne hfeed =>
    rw [List.map_singleton, chomp_of_notMem hfeed]
    exact .last hne hfeed
  | ended hfeed _ ih =>
    rw [List.map_cons, chomp_feed]
    exact .ended hfeed ih

theorem exists_hasLines (text : Text) : ∃ lines, HasLines text lines :=
  ⟨_, hasLines_of_hasPieces (hasPieces_splitAfter '\n' text)⟩

theorem lines_eq_iff : text.lines = lines ↔ HasLines text lines := by
  constructor
  · rintro rfl
    obtain ⟨lines, h⟩ := exists_hasLines text
    rwa [h.lines_eq]
  · exact HasLines.lines_eq

theorem HasLines.feed_notMem (h : HasLines text lines) : ∀ line ∈ lines, '\n' ∉ line := by
  induction h with
  | nil => simp
  | last _ hfeed => simpa using hfeed
  | ended hfeed _ ih =>
    rw [List.forall_mem_cons]
    exact ⟨fun hmem => hfeed ((withoutReturn_sublist _).subset hmem), ih⟩

private theorem spaceLineEnds_of_notMem (h : '\n' ∉ line) : spaceLineEnds line = line := by
  fun_induction spaceLineEnds line with
  | case1 => rfl
  | case2 rest => simp at h
  | case3 c rest _ ih =>
    rw [List.mem_cons, not_or] at h
    rw [ih h.2, if_neg (Ne.symm h.1)]

private theorem spaceLineEnds_cons {c : Char} {rest : Text} (hfeed : c ≠ '\n')
    (hreturn : c = '\r' → rest.head? ≠ some '\n') :
    spaceLineEnds (c :: rest) = c :: spaceLineEnds rest := by
  rw [spaceLineEnds, if_neg hfeed]
  rintro tail rfl rfl
  exact hreturn rfl rfl

private theorem spaceLineEnds_ended (h : '\n' ∉ line) (rest : Text) :
    spaceLineEnds (line ++ '\n' :: rest) = withoutReturn line ++ ' ' :: spaceLineEnds rest := by
  induction line with
  | nil => simp [spaceLineEnds, withoutReturn]
  | cons c line ih =>
    rw [List.mem_cons, not_or] at h
    have hline := ih h.2
    cases line with
    | nil =>
      by_cases hc : c = '\r'
      · subst hc
        rfl
      · rw [List.singleton_append, spaceLineEnds_cons (Ne.symm h.1) (fun heq => absurd heq hc)]
        simp [spaceLineEnds, withoutReturn, hc]
    | cons d line =>
      have hd : d ≠ '\n' := fun heq => h.2 (by simp [heq])
      have hwithout : withoutReturn (c :: d :: line) = c :: withoutReturn (d :: line) := by
        unfold withoutReturn
        rw [List.getLast?_cons_cons]
        split <;> simp
      rw [List.cons_append, spaceLineEnds_cons (Ne.symm h.1) (by simpa using fun _ => hd), hline,
        hwithout]
      rfl

private theorem chomp_append_feed {rest : Text} (front : Text) (h : rest ≠ []) :
    chomp (front ++ '\n' :: rest) = front ++ '\n' :: chomp rest := by
  obtain rfl | ⟨body, c, rfl⟩ := List.eq_nil_or_concat' rest
  · exact absurd rfl h
  · have hassoc : front ++ '\n' :: (body ++ [c]) = (front ++ '\n' :: body) ++ [c] := by simp
    rw [hassoc]
    by_cases hc : c = '\n'
    · rw [hc, chomp_feed, chomp_feed, withoutReturn_append_feed]
    · rw [chomp_concat hc, chomp_concat hc, hassoc]

/-- A text on one line is its lines, joined by spaces. -/
theorem HasLines.flattenLines_eq (h : HasLines text lines) :
    text.flattenLines = List.intercalate [' '] lines := by
  unfold flattenLines
  induction h with
  | nil => rfl
  | last _ hfeed =>
    rw [chomp_of_notMem hfeed, spaceLineEnds_of_notMem hfeed, List.intercalate_singleton]
  | @ended line rest lines hfeed hrest ih =>
    cases hrest with
    | nil =>
      have hline : '\n' ∉ withoutReturn line :=
        fun hmem => hfeed ((withoutReturn_sublist line).subset hmem)
      rw [chomp_feed, spaceLineEnds_of_notMem hline, List.intercalate_singleton]
    | last hne hlast =>
      rw [chomp_append_feed line hne, spaceLineEnds_ended hfeed, ih]
      simp
    | ended hnext hlater =>
      rw [chomp_append_feed line (by simp), spaceLineEnds_ended hfeed, ih]
      simp

/-- Lines that are written out are read back without the carriage returns at their ends. -/
theorem hasLines_flatten (h : ∀ line ∈ lines, '\n' ∉ line) :
    HasLines (lines.map (· ++ ['\n'])).flatten (lines.map withoutReturn) := by
  induction lines with
  | nil => exact .nil
  | cons line lines ih =>
    rw [List.forall_mem_cons] at h
    rw [List.map_cons, List.flatten_cons, List.append_assoc, List.map_cons]
    exact .ended h.1 (ih h.2)

end Text

end LineShell
