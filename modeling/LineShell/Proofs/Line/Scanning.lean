import LineShell.Proofs.Line.Splitting
/-!
# Quoting states of tokens

The tokenizer and the quote scanner are two readers of the same quotations. Main statement: they
agree. The tokens, with blanks between them, make up the text up to where reading stops; each of
them is read from the bare state to the bare state; and nothing that ends a token or a command is
read in the bare state there.
-/

namespace LineShell

open Text

/-- The marks of a token as it is written: the token begins and ends in the bare state, and its
blanks are quoted. -/
structure Token.Marked (token : Token) (marks : List Mark) : Prop where
  text : marks.map Mark.char = token.raw
  begins : marks.head?.map Mark.quoting = some .bare
  ends : marks.getLast?.map (fun mark => mark.quoting.step mark.char) = some .bare
  quoted : ∀ mark ∈ marks, isBlank mark.char = true → mark.quoting ≠ .bare

/-- The marks of tokens with gaps before them. Only the gap before the first token may be empty. -/
inductive Token.AllMarked : (first : Bool) → List Token → List Mark → Prop
  | nil {first : Bool} : AllMarked first [] []
  | cons {first : Bool} {token : Token} {tokens : List Token} {gap raw rest : List Mark} :
      (∀ mark ∈ gap, isBlank mark.char = true ∧ mark.quoting = .bare) → (first = false → gap ≠ []) →
      token.Marked raw → AllMarked false tokens rest →
      AllMarked first (token :: tokens) (gap ++ (raw ++ rest))

namespace Text

theorem marksFrom_append (offset : Nat) (quoting : Quoting) (left right : Text) :
    marksFrom offset quoting (left ++ right) = marksFrom offset quoting left ++
      marksFrom (offset + left.utf8Length) (left.foldl Quoting.step quoting) right := by
  induction left generalizing offset quoting with
  | nil => simp [marksFrom, utf8Length, utf8]
  | cons c left ih =>
    have hlength : utf8Length (c :: left) = c.utf8Size + utf8Length left := by
      simp [utf8Length, utf8, String.length_utf8EncodeChar]
    simp [marksFrom, ih, hlength, Nat.add_assoc]

@[simp] theorem map_char_marksFrom (offset : Nat) (quoting : Quoting) (text : Text) :
    (marksFrom offset quoting text).map Mark.char = text := by
  induction text generalizing offset quoting with
  | nil => rfl
  | cons c text ih => simp [marksFrom, ih]

private theorem getLast?_marksFrom (offset : Nat) (quoting : Quoting) {text : Text}
    (hne : text ≠ []) :
    (marksFrom offset quoting text).getLast?.map (fun mark => mark.quoting.step mark.char) =
      some (text.foldl Quoting.step quoting) := by
  induction text generalizing offset quoting with
  | nil => exact absurd rfl hne
  | cons c text ih =>
    cases text with
    | nil => rfl
    | cons next text =>
      have hrest := ih (offset + c.utf8Size) (quoting.step c) (List.cons_ne_nil next text)
      rw [marksFrom] at hrest
      rw [marksFrom, marksFrom, List.getLast?_cons_cons, hrest]
      rfl

private theorem notMem_of_isBlank {c : Char} (h : isBlank c = true) : c ∉ ['\'', '"', '`'] := by
  intro hmem
  simp only [List.mem_cons, List.not_mem_nil, or_false] at hmem
  rcases hmem with rfl | rfl | rfl <;> exact absurd h (by decide)

private theorem marksFrom_gap {gap : Text} (h : gap.all isBlank = true) (offset : Nat) :
    ∀ mark ∈ marksFrom offset .bare gap, isBlank mark.char = true ∧ mark.quoting = .bare := by
  induction gap generalizing offset with
  | nil => simp [marksFrom]
  | cons c gap ih =>
    rw [List.all_cons, Bool.and_eq_true] at h
    rw [marksFrom, Quoting.step_bare_of_notMem (notMem_of_isBlank h.1), List.forall_mem_cons]
    exact ⟨⟨h.1, rfl⟩, ih h.2 _⟩

end Text

private theorem Token.marked_of_written {token : Token}
    (h : Word.Written (Word.ofToken token) token.raw) (offset : Nat) :
    token.Marked (marksFrom offset .bare token.raw) := by
  have hpass : Quoting.Passes ';' .bare token.raw .bare := h.passes (by decide) (by decide)
  obtain ⟨c, rest, hraw, -⟩ := h.head
  refine ⟨map_char_marksFrom _ _ _, ?_, ?_, ?_⟩
  · rw [hraw]
    rfl
  · rw [getLast?_marksFrom offset .bare (by simp [hraw]), hpass.foldl_step]
  · -- A blank that is read in the bare state would be a separator that the token does not pass.
    intro mark hmark hblank hbare
    have hplain : Token.isBare mark.char = false := by simp [Token.isBare, hblank]
    have hpassBlank := h.passes (notMem_of_isBlank hblank) hplain
    exact ((passes_iff_marksFrom offset).1 hpassBlank).2 mark hmark hbare rfl

private theorem Token.AllRead.allMarked {first : Bool} {tokens : List Token} {read : Text}
    (h : AllRead first tokens read) (offset : Nat) :
    AllMarked first tokens (marksFrom offset .bare read) := by
  induction h generalizing offset with
  | nil => exact .nil
  | @cons first token tokens gap rest hgap hne hword _ ih =>
    have hgapPass : Quoting.Passes ';' .bare gap .bare := passes_gap (by simp [IsSign]) hgap
    have hrawPass : Quoting.Passes ';' .bare token.raw .bare := hword.passes (by decide) (by decide)
    rw [marksFrom_append, hgapPass.foldl_step, marksFrom_append, hrawPass.foldl_step]
    refine .cons (marksFrom_gap hgap offset) ?_ (marked_of_written hword _) (ih _)
    intro hlater hnil
    apply hne hlater
    rw [← map_char_marksFrom offset .bare gap, hnil]
    rfl

namespace Text

/-- The tokenizer loses nothing and agrees with the quote scanner. It refuses a text as malformed or
reads it up to some character. What it has read can be scanned, and its marks are those of the
tokens and of the gaps before them: each token is read from the bare state to the bare state, no
blank inside it is read in the bare state, and none of the signs `;`, `|`, `<` and `>` is read in
the bare state at all. -/
theorem tokenize_agrees_with_scan (text : Text) :
    (tokenize text = .error .malformed ∨ ∃ tokens rest, tokenize text = .ok (tokens, rest)) ∧
    ∀ tokens rest, tokenize text = .ok (tokens, rest) →
      ∃ read marks, text = read ++ rest ∧ scan read = .ok marks ∧ read = marks.map Mark.char ∧
        Token.AllMarked true tokens marks ∧
        ∀ mark ∈ marks, mark.quoting = .bare → mark.char ∉ [';', '|', '<', '>'] := by
  constructor
  · cases h : tokenize text with
    | error e =>
      rw [eq_malformed_of_tokenize h]
      exact .inl rfl
    | ok found => exact .inr ⟨found.1, found.2, rfl⟩
  · intro tokens rest h
    obtain ⟨read, htext, htokens⟩ := allRead_of_tokenize true h (fun h => by cases h)
    have hpass (sign : Char) (hsign : IsSign sign) :=
      (passes_iff_marksFrom 0).1 (htokens.allWritten.passes hsign)
    refine ⟨read, marksFrom 0 .bare read, htext, ?_, (map_char_marksFrom 0 .bare read).symm,
      htokens.allMarked 0, ?_⟩
    · exact scan_eq_ok_iff.2 ⟨(hpass ';' (by simp [IsSign])).1, rfl⟩
    · intro mark hmark hbare hsign
      exact (hpass mark.char hsign).2 mark hmark hbare rfl

theorem tokenize_agrees_with_scan_of_spans :
    tokenize " a`; |`b  \"< `'`\" '>'>o".toList = .ok
      ([⟨.word, "a`; |`b".toList, "a`; |`b".toList⟩,
        ⟨.interpolated, "\"< `'`\"".toList, "< `'`".toList⟩,
        ⟨.singleQuoted, "'>'".toList, ">".toList⟩], ">o".toList) ∧
    ∃ read marks, " a`; |`b  \"< `'`\" '>'>o".toList = read ++ ">o".toList ∧ scan read = .ok marks ∧
      read = marks.map Mark.char ∧
      Token.AllMarked true [⟨.word, "a`; |`b".toList, "a`; |`b".toList⟩,
        ⟨.interpolated, "\"< `'`\"".toList, "< `'`".toList⟩,
        ⟨.singleQuoted, "'>'".toList, ">".toList⟩] marks ∧
      ∀ mark ∈ marks, mark.quoting = .bare → mark.char ∉ [';', '|', '<', '>'] := by
  have htokens : tokenize " a`; |`b  \"< `'`\" '>'>o".toList = .ok
      ([⟨.word, "a`; |`b".toList, "a`; |`b".toList⟩,
        ⟨.interpolated, "\"< `'`\"".toList, "< `'`".toList⟩,
          ⟨.singleQuoted, "'>'".toList, ">".toList⟩], ">o".toList) := by
    cbv
  exact ⟨htokens, (tokenize_agrees_with_scan _).2 _ _ htokens⟩

end Text

end LineShell
