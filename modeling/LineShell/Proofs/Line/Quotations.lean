import LineShell.Proofs.Line.Scanning
/-!
# The language of quotations

The texts that are made up of characters and whole quotations, said without reading them. Main
statement: the scanner accepts these texts and no others, and it reports each character at its byte
offset and in the state that belongs to its place. A delimiter that opens a quotation belongs to
what is outside, and one that closes it to what is inside.
-/

namespace LineShell

/-- What stands inside double quotes: a character, or a back-quoted span. -/
inductive Inset where
  | char (c : Char) (plain : c ∉ ['"', '`'])
  | back (inside : Text) (closed : '`' ∉ inside)

/-- What stands outside quotations: a character, or a whole quotation. -/
inductive Passage where
  | char (c : Char) (plain : c ∉ ['\'', '"', '`'])
  | single (inside : Text) (closed : '\'' ∉ inside)
  | back (inside : Text) (closed : '`' ∉ inside)
  | double (inside : List Inset)

def Inset.text : Inset → Text
  | .char c _ => [c]
  | .back inside _ => '`' :: inside ++ ['`']

def Inset.states : Inset → List Quoting
  | .char _ _ => [.double]
  | .back inside _ => .double :: inside.map (fun _ => .backInDouble) ++ [.backInDouble]

def Passage.text : Passage → Text
  | .char c _ => [c]
  | .single inside _ => '\'' :: inside ++ ['\'']
  | .back inside _ => '`' :: inside ++ ['`']
  | .double inside => '"' :: inside.flatMap Inset.text ++ ['"']

def Passage.states : Passage → List Quoting
  | .char _ _ => [.bare]
  | .single inside _ => .bare :: inside.map (fun _ => .single) ++ [.single]
  | .back inside _ => .bare :: inside.map (fun _ => .back) ++ [.back]
  | .double inside => .bare :: inside.flatMap Inset.states ++ [.double]

namespace Quoting

/-- Reading a text leads from one state to another, and its characters are read in the given
states. -/
inductive Reads : Quoting → Text → List Quoting → Quoting → Prop
  | nil {quoting : Quoting} : Reads quoting [] [] quoting
  | cons {quoting after : Quoting} {c : Char} {text : Text} {states : List Quoting} :
      Reads (quoting.step c) text states after → Reads quoting (c :: text) (quoting :: states) after

theorem Reads.append {start middle after : Quoting} {left right : Text}
    {states later : List Quoting} (hleft : Reads start left states middle)
    (hright : Reads middle right later after) :
    Reads start (left ++ right) (states ++ later) after := by
  induction hleft with
  | nil => exact hright
  | cons _ ih => exact .cons (ih hright)

theorem Reads.foldl_step {start after : Quoting} {text : Text} {states : List Quoting}
    (h : Reads start text states after) : text.foldl Quoting.step start = after := by
  induction h with
  | nil => rfl
  | cons _ ih => exact ih

private theorem Reads.map_quoting_marksFrom {start after : Quoting} {text : Text}
    {states : List Quoting} (h : Reads start text states after) (offset : Nat) :
    (Text.marksFrom offset start text).map Mark.quoting = states := by
  induction h generalizing offset with
  | nil => rfl
  | cons _ ih => rw [Text.marksFrom, List.map_cons, ih]

private theorem reads_of_stays {quoting : Quoting} {text : Text}
    (h : ∀ c ∈ text, quoting.step c = quoting) :
    Reads quoting text (text.map fun _ => quoting) quoting := by
  induction text with
  | nil => exact .nil
  | cons c text ih =>
    apply Reads.cons
    rw [h c List.mem_cons_self]
    exact ih fun d hd => h d (List.mem_cons_of_mem c hd)

/-- Delimiters enclose what is read from the inner state to the inner state. -/
theorem Reads.enclosed {outer inner : Quoting} {delimiter : Char} {inside : Text}
    {states : List Quoting} (h : Reads inner inside states inner)
    (hopen : outer.step delimiter = inner)
    (hclose : inner.step delimiter = outer) :
    Reads outer (delimiter :: inside ++ [delimiter]) (outer :: states ++ [inner]) outer := by
  have hlast : Reads inner [delimiter] [inner] outer := by
    apply Reads.cons
    rw [hclose]
    exact .nil
  apply Reads.cons
  rw [hopen]
  exact h.append hlast

private theorem reads_flatMap {α : Type} {quoting : Quoting} {text : α → Text}
    {states : α → List Quoting} (h : ∀ item, Reads quoting (text item) (states item) quoting)
    (items : List α) :
    Reads quoting (items.flatMap text) (items.flatMap states) quoting := by
  induction items with
  | nil => exact .nil
  | cons item items ih =>
    rw [List.flatMap_cons, List.flatMap_cons]
    exact (h item).append ih

private theorem reads_inset (inset : Inset) : Reads .double inset.text inset.states .double := by
  cases inset with
  | char c plain =>
    apply Reads.cons
    rw [step_double_of_notMem plain]
    exact .nil
  | back inside closed =>
    have hinside : Reads .backInDouble inside (inside.map fun _ => .backInDouble) .backInDouble :=
      reads_of_stays fun c hc => step_backInDouble fun h => closed (h ▸ hc)
    exact hinside.enclosed rfl rfl

private theorem reads_passage (passage : Passage) :
    Reads .bare passage.text passage.states .bare := by
  cases passage with
  | char c plain =>
    apply Reads.cons
    rw [step_bare_of_notMem plain]
    exact .nil
  | single inside closed =>
    have hinside : Reads .single inside (inside.map fun _ => .single) .single :=
      reads_of_stays fun c hc => step_single fun h => closed (h ▸ hc)
    exact hinside.enclosed rfl rfl
  | back inside closed =>
    have hinside : Reads .back inside (inside.map fun _ => .back) .back :=
      reads_of_stays fun c hc => step_back fun h => closed (h ▸ hc)
    exact hinside.enclosed rfl rfl
  | double inside => exact (reads_flatMap reads_inset inside).enclosed rfl rfl

/-- What is left to read from a state until all quotations are closed. -/
inductive Closes : Quoting → Text → Prop
  | bare (passages : List Passage) : Closes .bare (passages.flatMap Passage.text)
  | single {inside rest : Text} :
    '\'' ∉ inside → Closes .bare rest → Closes .single (inside ++ '\'' :: rest)
  | back {inside rest : Text} :
    '`' ∉ inside → Closes .bare rest → Closes .back (inside ++ '`' :: rest)
  | double (insets : List Inset) {rest : Text} :
      Closes .bare rest → Closes .double (insets.flatMap Inset.text ++ '"' :: rest)
  | backInDouble {inside rest : Text} :
      '`' ∉ inside → Closes .double rest → Closes .backInDouble (inside ++ '`' :: rest)

private theorem Closes.passage_append (passage : Passage) {rest : Text} (h : Closes .bare rest) :
    Closes .bare (passage.text ++ rest) := by
  cases h with
  | bare passages =>
    rw [← List.flatMap_cons]
    exact .bare (passage :: passages)

private theorem Closes.inset_append (inset : Inset) {rest : Text} (h : Closes .double rest) :
    Closes .double (inset.text ++ rest) := by
  cases h with
  | double insets hrest =>
    rw [← List.append_assoc, ← List.flatMap_cons]
    exact .double (inset :: insets) hrest

theorem Closes.cons {quoting : Quoting} {c : Char} {text : Text}
    (h : Closes (quoting.step c) text) : Closes quoting (c :: text) := by
  -- A delimiter that the state knows completes a span or begins one; any other character lengthens
  -- what is being read.
  cases quoting with
  | bare =>
    by_cases hquote : c ∈ ['\'', '"', '`']
    · simp only [List.mem_cons, List.not_mem_nil, or_false] at hquote
      rcases hquote with rfl | rfl | rfl
      · cases h with
        | single closed hrest => simpa [Passage.text] using hrest.passage_append (.single _ closed)
      · cases h with
        | double insets hrest => simpa [Passage.text] using hrest.passage_append (.double insets)
      · cases h with
        | back closed hrest => simpa [Passage.text] using hrest.passage_append (.back _ closed)
    · rw [step_bare_of_notMem hquote] at h
      exact h.passage_append (.char c hquote)
  | single =>
    by_cases hc : c = '\''
    · subst hc
      exact .single List.not_mem_nil h
    · rw [step_single hc] at h
      cases h with
      | single closed hrest =>
        exact .single (List.not_mem_cons_of_ne_of_not_mem (Ne.symm hc) closed) hrest
  | back =>
    by_cases hc : c = '`'
    · subst hc
      exact .back List.not_mem_nil h
    · rw [step_back hc] at h
      cases h with
      | back closed hrest =>
        exact .back (List.not_mem_cons_of_ne_of_not_mem (Ne.symm hc) closed) hrest
  | double =>
    by_cases hquote : c ∈ ['"', '`']
    · simp only [List.mem_cons, List.not_mem_nil, or_false] at hquote
      rcases hquote with rfl | rfl
      · exact .double [] h
      · cases h with
        | backInDouble closed hrest => simpa [Inset.text] using hrest.inset_append (.back _ closed)
    · rw [step_double_of_notMem hquote] at h
      exact h.inset_append (.char c hquote)
  | backInDouble =>
    by_cases hc : c = '`'
    · subst hc
      exact .backInDouble List.not_mem_nil h
    · rw [step_backInDouble hc] at h
      cases h with
      | backInDouble closed hrest =>
        exact .backInDouble (List.not_mem_cons_of_ne_of_not_mem (Ne.symm hc) closed) hrest

private theorem closes_of_foldl_step {quoting : Quoting} {text : Text}
    (h : text.foldl Quoting.step quoting = .bare) : Closes quoting text := by
  induction text generalizing quoting with
  | nil =>
    obtain rfl : quoting = .bare := h
    exact .bare []
  | cons c text ih =>
    apply Closes.cons
    exact ih h

end Quoting

namespace Text

open Quoting

private theorem foldl_step_eq_bare_iff {text : Text} :
    text.foldl Quoting.step .bare = .bare ↔ ∃ passages : List Passage,
      text = passages.flatMap Passage.text := by
  constructor
  · intro h
    cases closes_of_foldl_step h with
    | bare passages => exact ⟨passages, rfl⟩
  · rintro ⟨passages, rfl⟩
    exact (reads_flatMap reads_passage passages).foldl_step

private theorem offset_of_marksFrom {offset : Nat} {quoting : Quoting} {text : Text}
    {before after : List Mark} {mark : Mark}
    (h : marksFrom offset quoting text = before ++ mark :: after) :
    mark.offset = offset + utf8Length (before.map Mark.char) := by
  have htext : text = before.map Mark.char ++ mark.char :: after.map Mark.char := by
    rw [← map_char_marksFrom offset quoting text, h, List.map_append, List.map_cons]
  have hlength : (marksFrom offset quoting (before.map Mark.char)).length = before.length := by
    rw [← List.length_map Mark.char, map_char_marksFrom, List.length_map]
  rw [htext, marksFrom_append, marksFrom] at h
  obtain ⟨-, hrest⟩ := List.append_inj h hlength
  rw [← (List.cons.inj hrest).1]

/-- The scanner accepts exactly the texts that are made up of passages. It reports their characters
in order, each with the number of bytes before it, and in the states of the passages, however the
text is divided into these. -/
theorem scan_accepts_passages (text : Text) :
    ((∃ marks, scan text = .ok marks) ↔
      ∃ passages : List Passage, text = passages.flatMap Passage.text) ∧
    ∀ marks, scan text = .ok marks →
      marks.map Mark.char = text ∧
      (∀ before mark after, marks = before ++ mark :: after →
        mark.offset = utf8Length (before.map Mark.char)) ∧
      ∀ passages : List Passage, text = passages.flatMap Passage.text →
        marks.map Mark.quoting = passages.flatMap Passage.states := by
  constructor
  · rw [← foldl_step_eq_bare_iff]
    constructor
    · rintro ⟨marks, h⟩
      exact (scan_eq_ok_iff.1 h).1
    · intro h
      exact ⟨_, scan_eq_ok_iff.2 ⟨h, rfl⟩⟩
  · intro marks h
    obtain ⟨-, rfl⟩ := scan_eq_ok_iff.1 h
    refine ⟨map_char_marksFrom 0 .bare text, ?_, ?_⟩
    · intro before mark after hmarks
      rw [offset_of_marksFrom hmarks, Nat.zero_add]
    · rintro passages rfl
      exact (reads_flatMap reads_passage passages).map_quoting_marksFrom 0

theorem scan_accepts_passages_of_nesting :
    scan "é\"`'`\"".toList =
      .ok [⟨0, 'é', .bare⟩, ⟨2, '"', .bare⟩, ⟨3, '`', .double⟩, ⟨4, '\'', .backInDouble⟩,
        ⟨5, '`', .backInDouble⟩, ⟨6, '"', .double⟩] ∧
    utf8Length "é".toList = 2 ∧
    [Passage.char 'é' (by decide), .double [.back "'".toList (by decide)]].flatMap Passage.states =
      [.bare, .bare, .double, .backInDouble, .backInDouble, .double] := by
  have hscan : scan "é\"`'`\"".toList = .ok [⟨0, 'é', .bare⟩, ⟨2, '"', .bare⟩, ⟨3, '`', .double⟩,
      ⟨4, '\'', .backInDouble⟩, ⟨5, '`', .backInDouble⟩, ⟨6, '"', .double⟩] := rfl
  obtain ⟨-, hoffset, hstates⟩ := (scan_accepts_passages _).2 _ hscan
  refine ⟨hscan, ?_, ?_⟩
  · exact (hoffset [⟨0, 'é', .bare⟩] _ _ rfl).symm
  · exact (hstates [.char 'é' (by decide), .double [.back "'".toList (by decide)]] rfl).symm

end Text

end LineShell
