import LineShell.Proofs.Line.Origin
import Mathlib
/-!
# Back-quoted spans of tokens

The parts of a word are found by pairing back-quotes from left to right, which is right only where
they are balanced. Main statement: in every token they are. So the parts of a token, written one
after the other, are the token's text again, and each pair of back-quotes is one command, even if
nothing stands between them.
-/

namespace LineShell

open Text

namespace Text

/-- The texts between back-quotes, which are paired from left to right, with none left over. -/
inductive HasSpans : Text → List Text → Prop
  | plain {text : Text} : '`' ∉ text → HasSpans text []
  | span {plain command rest : Text} {commands : List Text} :
      '`' ∉ plain → '`' ∉ command → HasSpans rest commands →
      HasSpans (plain ++ '`' :: (command ++ '`' :: rest)) (command :: commands)

theorem HasSpans.plain_append {plain text : Text} {commands : List Text} (hplain : '`' ∉ plain)
    (h : HasSpans text commands) : HasSpans (plain ++ text) commands := by
  cases h with
  | plain htext => exact .plain (by simp [hplain, htext])
  | span hbefore hcommand hrest =>
    rw [← List.append_assoc]
    exact .span (by simp [hplain, hbefore]) hcommand hrest

private theorem HasSpans.count_eq {text : Text} {commands : List Text}
    (h : HasSpans text commands) : text.count '`' = 2 * commands.length := by
  induction h with
  | plain htext => simp [List.count_eq_zero.2 htext]
  | @span plain command rest commands hplain hcommand _ ih =>
    calc (plain ++ '`' :: (command ++ '`' :: rest)).count '`'
        = plain.count '`' + (command.count '`' + (rest.count '`' + 1) + 1) := by
          simp [List.count_append]
      _ = rest.count '`' + 2 := by simp [List.count_eq_zero.2 hplain, List.count_eq_zero.2 hcommand]
      _ = 2 * (command :: commands).length := by rw [ih, List.length_cons, Nat.mul_add_one]

end Text

/-- A part that stands for a piece between back-quotes: a command, or text if there is any. -/
def Part.StandsFor (quoted : Bool) (part : Part) (piece : Text) : Prop :=
  part = .command piece quoted ∨ piece ≠ [] ∧
    part = if quoted then .literal piece else .pattern piece

namespace Word

variable {quoted : Bool} {isPlain : Char → Bool}

/-- The parts of a word are what back-quotes divide a text into, and nothing of the text is lost. -/
structure Divides (quoted : Bool) (text : Text) (word : Word) : Prop where
  even : Even (text.count '`')
  written : Word.text word = text
  commands : text.HasSpans (captured word)
  pairs : text.count '`' = 2 * (captured word).length
  parts : ∀ part ∈ word, ∃ piece, '`' ∉ piece ∧ part.StandsFor quoted piece
  apart : Apart word

private theorem exists_piece_of_fits (hbq : isPlain '`' = false) {part : Part}
    (h : part.fits quoted isPlain) : ∃ piece, '`' ∉ piece ∧ part.StandsFor quoted piece := by
  cases part with
  | literal plain =>
    simp only [Part.fits, Bool.and_eq_true, decide_eq_true_eq] at h
    obtain ⟨⟨rfl, hne⟩, hall⟩ := h
    exact ⟨plain, notMem_of_all hall hbq, .inr ⟨hne, rfl⟩⟩
  | pattern plain =>
    simp only [Part.fits, Bool.and_eq_true, Bool.not_eq_true', decide_eq_true_eq] at h
    obtain ⟨⟨rfl, hne⟩, hall⟩ := h
    exact ⟨plain, notMem_of_all hall hbq, .inr ⟨hne, rfl⟩⟩
  | command command inQuotes =>
    simp only [Part.fits, isSpan, Bool.and_eq_true, decide_eq_true_eq] at h
    obtain ⟨rfl, -, hcommand⟩ := h
    exact ⟨command, hcommand, .inl rfl⟩

private theorem hasSpans_text {word : Word}
    (h : ∀ part ∈ word, ∃ piece, '`' ∉ piece ∧ part.StandsFor quoted piece) :
    HasSpans (text word) (captured word) := by
  induction word with
  | nil => exact .plain List.not_mem_nil
  | cons part word ih =>
    rw [List.forall_mem_cons] at h
    have hrest := ih h.2
    obtain ⟨piece, hpiece, rfl | ⟨-, rfl⟩⟩ := h.1
    · rw [text_command_cons, captured_command_cons]
      apply HasSpans.span List.not_mem_nil hpiece hrest
    · cases quoted with
      | true => exact hrest.plain_append hpiece
      | false => exact hrest.plain_append hpiece

private theorem divides_of_spliced (quoted : Bool) (hbq : isPlain '`' = false) {raw : Text}
    (h : Spliced isPlain false raw) : Divides quoted raw (ofSpans raw quoted) := by
  obtain ⟨htext, hfits, hapart⟩ := ofSpans_of_spliced quoted hbq h
  have hparts := fun part hpart => exists_piece_of_fits hbq (hfits part hpart)
  have hspans := hasSpans_text hparts
  rw [htext] at hspans
  refine ⟨?_, htext, hspans, hspans.count_eq, hparts, hapart⟩
  rw [hspans.count_eq]
  exact even_two_mul _

end Word

namespace Token

private theorem spliced_of_lexeme? {text rest : Text} {token : Token}
    (h : lexeme? text = some (token, rest)) :
    (token.kind = .word ∨ token.kind = .backQuoted → Spliced isBare false token.raw) ∧
    (token.kind = .interpolated → Spliced isQuotable false token.value) := by
  obtain ⟨value, hvalue, rfl⟩ | ⟨value, -, -, rfl⟩ | ⟨raw, -, hraw, rfl⟩ := lexeme?_cases h
  · refine ⟨?_, fun _ => hvalue⟩
    dsimp only
    split <;> simp
  · simp
  · refine ⟨fun _ => hraw, ?_⟩
    dsimp only [gluedKind]
    split
    · simp
    · split <;> simp

end Token

namespace Text

private theorem exists_lexeme_of_mem_tokenize {text rest : Text} {tokens : List Token}
    (h : tokenize text = .ok (tokens, rest)) {token : Token} (htoken : token ∈ tokens) :
    ∃ left right, Token.lexeme? left = some (token, right) := by
  fun_induction tokenize text generalizing tokens rest with
  | case1 =>
    cases h
    cases htoken
  | case2 => cases h
  | case3 =>
    cases h
    cases htoken
  | case4 => cases h
  | case5 text _ first rest' hread tokens' rest'' htokens ih =>
    cases h
    rcases List.mem_cons.1 htoken with rfl | hlater
    · exact ⟨_, _, (Token.read?_eq_some_iff.1 hread).1⟩
    · exact ih htokens hlater

end Text

namespace Word

/-- Dividing the text of a token at its back-quotes loses nothing, be the token a bare word, a word
that starts with a back-quote, or the inside of double quotes. -/
theorem ofSpans_restores_token {text rest : Text} {tokens : List Token}
    (h : tokenize text = .ok (tokens, rest)) {token : Token} (htoken : token ∈ tokens) :
    (token.kind = .word ∨ token.kind = .backQuoted →
      ofToken token = ofSpans token.raw false ∧ Divides false token.raw (ofSpans token.raw false)) ∧
    (token.kind = .interpolated →
      ofToken token = ofSpans token.value true ∧
        Divides true token.value (ofSpans token.value true)) := by
  obtain ⟨left, right, hread⟩ := exists_lexeme_of_mem_tokenize h htoken
  obtain ⟨hbare, hquoted⟩ := Token.spliced_of_lexeme? hread
  constructor
  · intro hkind
    refine ⟨?_, divides_of_spliced false isBare_backquote (hbare hkind)⟩
    rcases hkind with hkind | hkind <;> rw [ofToken, hkind]
  · intro hkind
    refine ⟨?_, divides_of_spliced true isQuotable_backquote (hquoted hkind)⟩
    rw [ofToken, hkind]

theorem ofSpans_restores_token_of_emptySpans :
    tokenize "a``b`x;y` \"`'` c``\" `d`e".toList = .ok
      ([⟨.word, "a``b`x;y`".toList, "a``b`x;y`".toList⟩,
        ⟨.interpolated, "\"`'` c``\"".toList, "`'` c``".toList⟩,
          ⟨.backQuoted, "`d`e".toList, "`d`e".toList⟩], []) ∧
    Divides false "a``b`x;y`".toList
      [.pattern ['a'], .command [] false, .pattern ['b'], .command "x;y".toList false] ∧
    Divides true "`'` c``".toList [.command ['\''] true, .literal " c".toList, .command [] true] ∧
    Divides false "`d`e".toList [.command ['d'] false, .pattern ['e']] := by
  have htokens : tokenize "a``b`x;y` \"`'` c``\" `d`e".toList = .ok
      ([⟨.word, "a``b`x;y`".toList, "a``b`x;y`".toList⟩,
        ⟨.interpolated, "\"`'` c``\"".toList, "`'` c``".toList⟩,
          ⟨.backQuoted, "`d`e".toList, "`d`e".toList⟩], []) := by
    cbv
  refine ⟨htokens, ?_, ?_, ?_⟩
  · exact ((ofSpans_restores_token htokens (.head _)).1 (.inl rfl)).2
  · exact ((ofSpans_restores_token htokens (.tail _ (.head _))).2 rfl).2
  · exact ((ofSpans_restores_token htokens (.tail _ (.tail _ (.head _)))).1 (.inr rfl)).2

end Word

end LineShell
