import LineShell.Proofs.Line.Spliced
/-!
# Reading tokens

A token is read from a text exactly if the text starts with a written form of the token's word and
the word ends there. From this the tokens of a command are determined: reading them and writing
their words are inverse to each other.
-/

namespace LineShell

open Text

namespace Token

private theorem isBare_of_isAlpha {c : Char} (h : c.isAlpha = true) : isBare c = true := by
  have hn : (65 ≤ c.toNat ∧ c.toNat ≤ 90) ∨ (97 ≤ c.toNat ∧ c.toNat ≤ 122) := by
    change (decide (c.val ≥ 65 ∧ c.val ≤ 90) || decide (c.val ≥ 97) && decide (c.val ≤ 122)) =
      true at h
    simp only [Bool.or_eq_true, Bool.and_eq_true, decide_eq_true_eq, UInt32.le_iff_toNat_le,
      ge_iff_le] at h
    exact h
  rw [isBare_iff]
  constructor
  · simp only [isBlank, Bool.or_eq_false_iff, Bool.and_eq_false_imp, decide_eq_true_eq,
      decide_eq_false_iff_not, beq_eq_false_iff_ne]
    omega
  · intro hmem
    simp only [List.mem_cons, List.not_mem_nil, or_false] at hmem
    rcases hmem with rfl | rfl | rfl | rfl | rfl | rfl | rfl <;> revert hn <;> decide

private theorem all_isBare_of_isFlag {raw : Text} (h : isFlag raw = true) :
    raw.all isBare = true := by
  unfold isFlag at h
  split at h
  · rw [List.all_cons, Bool.and_eq_true]
    refine ⟨by decide, ?_⟩
    rw [List.all_eq_true] at h ⊢
    exact fun c hc => isBare_of_isAlpha (h c hc)
  · cases h

theorem spliced_of_isFlag {raw : Text} (h : isFlag raw = true) : Spliced isBare false raw :=
  .of_all (all_isBare_of_isFlag h)

private theorem ne_nil_of_isFlag {raw : Text} (h : isFlag raw = true) : raw ≠ [] := by
  rintro rfl
  cases h

private theorem head_of_spliced {raw : Text} (h : Spliced isBare false raw) (hne : raw ≠ []) :
    ∃ c rest, raw = c :: rest ∧ c ≠ '"' ∧ c ≠ '\'' ∧ isDelimiter c = false := by
  cases h with
  | nil => exact absurd rfl hne
  | @plain c text hbare _ =>
    refine ⟨c, text, rfl, ?_, ?_, isDelimiter_of_isBare hbare⟩
    · rintro rfl
      revert hbare
      decide
    · rintro rfl
      revert hbare
      decide
  | @opening text _ => exact ⟨'`', text, rfl, by decide, by decide, by decide⟩

private theorem last_of_spliced {inSpan : Bool} {raw : Text} (h : Spliced isBare inSpan raw) :
    (inSpan = false ∧ raw = []) ∨ ∃ init c, raw = init ++ [c] ∧ isBlank c = false := by
  induction h with
  | nil => exact .inl ⟨rfl, rfl⟩
  | @plain c text hbare _ ih =>
    rcases ih with ⟨-, rfl⟩ | ⟨init, last, rfl, hlast⟩
    · exact .inr ⟨[], c, rfl, (isBare_iff.1 hbare).1⟩
    · exact .inr ⟨c :: init, last, rfl, hlast⟩
  | @opening text _ ih =>
    rcases ih with ⟨h, -⟩ | ⟨init, last, rfl, hlast⟩
    · cases h
    · exact .inr ⟨'`' :: init, last, rfl, hlast⟩
  | @inside c text _ _ _ ih =>
    rcases ih with ⟨h, -⟩ | ⟨init, last, rfl, hlast⟩
    · cases h
    · exact .inr ⟨c :: init, last, rfl, hlast⟩
  | @closing text _ ih =>
    rcases ih with ⟨-, rfl⟩ | ⟨init, last, rfl, hlast⟩
    · exact .inr ⟨[], '`', rfl, by decide⟩
    · exact .inr ⟨'`' :: init, last, rfl, hlast⟩

private theorem lexeme?_glued {raw rest : Text} (h : Spliced isBare false raw) (hne : raw ≠ [])
    (hend : atEnd rest = true) :
    lexeme? (raw ++ rest) = some (⟨gluedKind raw, raw, raw⟩, rest) := by
  have hread := glued?_complete h hend
  obtain ⟨c, tail, hraw, hdq, hsq, -⟩ := head_of_spliced h hne
  unfold lexeme?
  split
  · simp_all
  · simp_all
  · simp_all
  · simp [hread, hne]

end Token

namespace Word

@[simp] theorem isBare_backquote : Token.isBare '`' = false := by decide

@[simp] theorem isQuotable_backquote : isQuotable '`' = false := by decide

private theorem mem_text_of_command {word : Word} {part : Part} (hpart : part ∈ word)
    (hcommand : part.isCommand = true) : '`' ∈ text word := by
  cases part with
  | literal => cases hcommand
  | pattern => cases hcommand
  | command command quoted => exact List.mem_flatMap.2 ⟨_, hpart, by simp [Part.text]⟩

private theorem exists_command_of_mem_text {quoted : Bool} {isPlain : Char → Bool}
    (hbq : isPlain '`' = false) {word : Word} (hfits : ∀ part ∈ word, part.fits quoted isPlain)
    (hmem : '`' ∈ text word) :
    ∃ part ∈ word, part.isCommand = true := by
  obtain ⟨part, hpart, hchar⟩ := List.mem_flatMap.1 hmem
  refine ⟨part, hpart, ?_⟩
  have hfit := hfits part hpart
  cases part with
  | literal plain =>
    simp only [Part.fits, Bool.and_eq_true] at hfit
    exact absurd hchar (notMem_of_all hfit.2 hbq)
  | pattern plain =>
    simp only [Part.fits, Bool.and_eq_true] at hfit
    exact absurd hchar (notMem_of_all hfit.2 hbq)
  | command => rfl

/-- A bare word with a command in it, or with one pattern that is no flag, is not written like a
flag. -/
theorem IsBare.isFlag_text {word : Word} (h : IsBare word) : Token.isFlag (text word) = false := by
  by_contra hflag
  rw [Bool.not_eq_false] at hflag
  have hplain : ∀ part ∈ word, part.isCommand = false := by
    intro part hpart
    by_contra hcommand
    rw [Bool.not_eq_false] at hcommand
    exact notMem_of_all (Token.all_isBare_of_isFlag hflag) isBare_backquote
      (mem_text_of_command hpart hcommand)
  match word, h, hplain with
  | [], h, _ => exact h.ne_nil rfl
  | [.literal _], h, _ => simpa [Part.fits] using h.fits _ List.mem_cons_self
  | [.command _ _], _, hplain => cases hplain _ List.mem_cons_self
  | [.pattern plain], h, _ =>
    have hno := h.not_flag plain rfl
    simp only [text, List.flatMap_cons, Part.text, List.flatMap_nil, List.append_nil] at hflag
    rw [hno] at hflag
    cases hflag
  | left :: right :: _, h, hplain =>
    have := (List.isChain_cons_cons.1 h.apart).1
    simp [hplain left (by simp), hplain right (by simp)] at this

theorem IsBare.spliced {word : Word} (h : IsBare word) : Spliced Token.isBare false (text word) :=
  spliced_text h.fits

theorem IsBare.text_ne_nil {word : Word} (h : IsBare word) : text word ≠ [] := by
  match word, h with
  | [], h => exact absurd rfl h.ne_nil
  | part :: word, h =>
    have hfit := h.fits part List.mem_cons_self
    cases part <;> simp_all [Part.fits, text, Part.text]

private theorem IsInterpolated.backquote_mem {word : Word} (h : IsInterpolated word) :
    '`' ∈ text word := by
  obtain ⟨part, hpart, hcommand⟩ := h.command
  exact mem_text_of_command hpart hcommand

theorem Written.head {word : Word} {raw : Text} (h : Written word raw) :
    ∃ c rest, raw = c :: rest ∧ Token.isDelimiter c = false := by
  cases h with
  | single => exact ⟨_, _, rfl, by decide⟩
  | double => exact ⟨_, _, rfl, by decide⟩
  | flag hflag =>
    have hspliced := Token.spliced_of_isFlag hflag
    obtain ⟨c, rest, hraw, -, -, hc⟩ :=
      Token.head_of_spliced hspliced (Token.ne_nil_of_isFlag hflag)
    exact ⟨c, rest, hraw, hc⟩
  | bare hbare =>
    obtain ⟨c, rest, hraw, -, -, hc⟩ := Token.head_of_spliced hbare.spliced hbare.text_ne_nil
    exact ⟨c, rest, hraw, hc⟩
  | interpolated => exact ⟨_, _, rfl, by decide⟩

theorem Written.last {word : Word} {raw : Text} (h : Written word raw) :
    ∃ init c, raw = init ++ [c] ∧ isBlank c = false := by
  cases h with
  | single => exact ⟨_, _, rfl, by decide⟩
  | double => exact ⟨_, _, rfl, by decide⟩
  | flag hflag =>
    have hspliced := Token.spliced_of_isFlag hflag
    rcases Token.last_of_spliced hspliced with ⟨-, hnil⟩ | hlast
    · exact absurd hnil (Token.ne_nil_of_isFlag hflag)
    · exact hlast
  | bare hbare =>
    rcases Token.last_of_spliced hbare.spliced with ⟨-, hnil⟩ | hlast
    · exact absurd hnil hbare.text_ne_nil
    · exact hlast
  | interpolated => exact ⟨_, _, rfl, by decide⟩

private theorem all_isQuotable_iff {text : Text} :
    text.all isQuotable = true ↔ '\n' ∉ text ∧ '"' ∉ text ∧ '`' ∉ text := by
  constructor
  · intro h
    exact ⟨notMem_of_all h (by decide), notMem_of_all h (by decide), notMem_of_all h (by decide)⟩
  · rintro ⟨hnl, hdq, hbq⟩
    rw [List.all_eq_true]
    intro c hc
    have hne {d : Char} (hd : d ∉ text) : c ≠ d := fun h => hd (h ▸ hc)
    simp [isQuotable, hne hnl, hne hdq, hne hbq]

theorem isWellFormed_iff {word : Word} : IsWellFormed word ↔ ∃ raw, Written word raw := by
  constructor
  · rintro (⟨text, rfl, hnl, hsq | ⟨hdq, hbq⟩⟩ | hbare | hinter)
    · exact ⟨_, .single hnl hsq⟩
    · exact ⟨_, .double (all_isQuotable_iff.2 ⟨hnl, hdq, hbq⟩)⟩
    · exact ⟨_, .bare hbare⟩
    · exact ⟨_, .interpolated hinter⟩
  · rintro ⟨raw, h⟩
    cases h with
    | single hnl hsq => exact .inl ⟨_, rfl, hnl, .inl hsq⟩
    | double hall =>
      obtain ⟨hnl, hdq, hbq⟩ := all_isQuotable_iff.1 hall
      exact .inl ⟨_, rfl, hnl, .inr ⟨hdq, hbq⟩⟩
    | flag hflag =>
      have hall := Token.all_isBare_of_isFlag hflag
      exact .inl ⟨raw, rfl, notMem_of_all hall (by decide), .inl (notMem_of_all hall (by decide))⟩
    | bare hbare => exact .inr (.inl hbare)
    | interpolated hinter => exact .inr (.inr hinter)

theorem AllWritten.isWellFormed {first : Bool} {words : List Word} {written : Text}
    (h : AllWritten first words written) : ∀ word ∈ words, IsWellFormed word := by
  induction h with
  | nil => simp
  | cons _ _ hword _ ih =>
    rw [List.forall_mem_cons]
    exact ⟨isWellFormed_iff.2 ⟨_, hword⟩, ih⟩

theorem exists_allWritten (first : Bool) {words : List Word}
    (h : ∀ word ∈ words, IsWellFormed word) : ∃ written, AllWritten first words written := by
  induction words generalizing first with
  | nil => exact ⟨[], .nil⟩
  | cons word words ih =>
    rw [List.forall_mem_cons] at h
    obtain ⟨raw, hraw⟩ := isWellFormed_iff.1 h.1
    obtain ⟨written, hwritten⟩ := ih false h.2
    exact ⟨[' '] ++ (raw ++ written), .cons (by decide) (by simp) hraw hwritten⟩

end Word

namespace Token

open Word

private theorem read?_complete {word : Word} {raw rest : Text} (h : Written word raw)
    (hend : atEnd rest = true) :
    ∃ token, read? (raw ++ rest) = some (token, rest) ∧ ofToken token = word := by
  suffices hlex : ∃ token, lexeme? (raw ++ rest) = some (token, rest) ∧ ofToken token = word by
    obtain ⟨token, htoken, hword⟩ := hlex
    exact ⟨token, read?_eq_some_iff.2 ⟨htoken, hend⟩, hword⟩
  cases h with
  | @single text hnl hq =>
    refine ⟨⟨.singleQuoted, '\'' :: text ++ ['\''], text⟩, ?_, rfl⟩
    simp [lexeme?, single?_complete rest hnl hq]
  | @double text hall =>
    have hspliced := Spliced.of_all hall
    have hbq : '`' ∉ text := notMem_of_all hall isQuotable_backquote
    refine ⟨⟨.doubleQuoted, '"' :: text ++ ['"'], text⟩, ?_, rfl⟩
    simp [lexeme?, interpolated?_complete rest hspliced, hbq]
  | flag hflag =>
    have hspliced := spliced_of_isFlag hflag
    refine ⟨_, lexeme?_glued hspliced (ne_nil_of_isFlag hflag) hend, ?_⟩
    simp [ofToken, gluedKind, hflag]
  | bare hbare =>
    refine ⟨_, lexeme?_glued hbare.spliced hbare.text_ne_nil hend, ?_⟩
    have hword := ofSpans_text isBare_backquote hbare.fits hbare.apart
    by_cases hhead : (Word.text word).head? = some '`'
    · simpa [ofToken, gluedKind, hbare.isFlag_text, hhead] using hword
    · simpa [ofToken, gluedKind, hbare.isFlag_text, hhead] using hword
  | interpolated hinter =>
    refine ⟨⟨.interpolated, '"' :: Word.text word ++ ['"'], Word.text word⟩, ?_, ?_⟩
    · simp [lexeme?, interpolated?_complete rest (spliced_text hinter.fits), hinter.backquote_mem]
    · exact ofSpans_text isQuotable_backquote hinter.fits hinter.apart

private theorem written_glued {raw : Text} (h : Spliced isBare false raw) (hne : raw ≠ []) :
    Written (ofToken ⟨gluedKind raw, raw, raw⟩) raw := by
  by_cases hflag : isFlag raw = true
  · simpa [ofToken, gluedKind, hflag] using Written.flag hflag
  · rw [Bool.not_eq_true] at hflag
    obtain ⟨htext, hfits, hapart⟩ := ofSpans_of_spliced false isBare_backquote h
    have hbare : IsBare (ofSpans raw false) := by
      refine ⟨?_, hfits, hapart, ?_⟩
      · intro hnil
        rw [hnil] at htext
        exact hne htext.symm
      · intro plain hword
        rw [hword] at htext
        have hplain : plain = raw := by simpa [Word.text, Part.text] using htext
        rw [hplain, hflag]
    have hword : ofToken ⟨gluedKind raw, raw, raw⟩ = ofSpans raw false := by
      by_cases hhead : raw.head? = some '`' <;> simp [ofToken, gluedKind, hflag, hhead]
    rw [hword]
    simpa [htext] using Written.bare hbare

private theorem written_interpolated {value : Text} (h : Spliced isQuotable false value)
    (hmem : '`' ∈ value) : Written (ofSpans value true) ('"' :: value ++ ['"']) := by
  obtain ⟨htext, hfits, hapart⟩ := ofSpans_of_spliced true isQuotable_backquote h
  rw [← htext] at hmem
  have hinter : IsInterpolated (ofSpans value true) :=
    ⟨hfits, hapart, exists_command_of_mem_text isQuotable_backquote hfits hmem⟩
  simpa [htext] using Written.interpolated hinter

private theorem written_double {value : Text} (h : Spliced isQuotable false value)
    (hmem : '`' ∉ value) : Written [.literal value] ('"' :: value ++ ['"']) := by
  apply Written.double
  generalize hin : false = inSpan at h
  induction h with
  | nil => rfl
  | plain hc _ ih =>
    rw [List.mem_cons, not_or] at hmem
    rw [List.all_cons, hc, ih hmem.2 hin]
    rfl
  | opening => simp at hmem
  | inside => cases hin
  | closing => cases hin

/-- What a token is, whatever follows it: a text in double quotes, a text in single quotes, or a
bare text. -/
theorem lexeme?_cases {text rest : Text} {token : Token} (h : lexeme? text = some (token, rest)) :
    (∃ value, Spliced isQuotable false value ∧
      token =
        ⟨if '`' ∈ value then .interpolated else .doubleQuoted, '"' :: value ++ ['"'], value⟩) ∨
    (∃ value, '\n' ∉ value ∧ '\'' ∉ value ∧
      token = ⟨.singleQuoted, '\'' :: value ++ ['\''], value⟩) ∨
    ∃ raw, raw ≠ [] ∧ Spliced isBare false raw ∧ token = ⟨gluedKind raw, raw, raw⟩ := by
  unfold lexeme? at h
  split at h
  · cases h
  · obtain ⟨⟨value, rest'⟩, hvalue, htoken⟩ := Option.bind_eq_some_iff.1 h
    simp only [Option.pure_def, Option.some.injEq, Prod.mk.injEq] at htoken
    exact .inl ⟨value, interpolated?_sound hvalue, htoken.1.symm⟩
  · obtain ⟨⟨value, rest'⟩, hvalue, htoken⟩ := Option.bind_eq_some_iff.1 h
    simp only [Option.pure_def, Option.some.injEq, Prod.mk.injEq] at htoken
    obtain ⟨hnl, hq⟩ := single?_sound hvalue
    exact .inr (.inl ⟨value, hnl, hq, htoken.1.symm⟩)
  · obtain ⟨⟨raw, rest'⟩, hraw, htoken⟩ := Option.bind_eq_some_iff.1 h
    dsimp only at htoken
    split at htoken
    · cases htoken
    · rename_i hne
      simp only [Option.pure_def, Option.some.injEq, Prod.mk.injEq] at htoken
      exact .inr (.inr ⟨raw, hne, (glued?_sound hraw).1, htoken.1.symm⟩)

private theorem read?_sound {text rest : Text} {token : Token}
    (h : read? text = some (token, rest)) :
    Written (ofToken token) token.raw ∧ text = token.raw ++ rest ∧ atEnd rest = true := by
  obtain ⟨hlex, hend⟩ := read?_eq_some_iff.1 h
  refine ⟨?_, (lexeme?_append hlex).1, hend⟩
  obtain ⟨value, hvalue, rfl⟩ | ⟨value, hnl, hq, rfl⟩ | ⟨raw, hne, hraw, rfl⟩ := lexeme?_cases hlex
  · by_cases hmem : '`' ∈ value
    · simpa [ofToken, hmem] using written_interpolated hvalue hmem
    · simpa [ofToken, hmem] using written_double hvalue hmem
  · exact .single hnl hq
  · exact written_glued hraw hne

/-- The texts of tokens with gaps before them. Only the gap before the first token may be empty. -/
inductive AllRead : (first : Bool) → List Token → Text → Prop
  | nil {first : Bool} : AllRead first [] []
  | cons {first : Bool} {token : Token} {tokens : List Token} {gap rest : Text} :
      gap.all isBlank → (first = false → gap ≠ []) → Written (ofToken token) token.raw →
      AllRead false tokens rest → AllRead first (token :: tokens) (gap ++ (token.raw ++ rest))

theorem AllRead.allWritten {first : Bool} {tokens : List Token} {read : Text}
    (h : AllRead first tokens read) : AllWritten first (tokens.map ofToken) read := by
  induction h with
  | nil => exact .nil
  | cons hgap hne hword _ ih => exact .cons hgap hne hword ih

end Token

namespace Text

open Word

private theorem tokenize_of_isDone {text : Text} (h : Token.isDone text = true) :
    tokenize text = .ok ([], text) := by
  rw [tokenize, if_pos h]

private theorem tokenize_of_read {text rest rest' : Text} {token : Token} {tokens : List Token}
    (hdone : Token.isDone text = false) (hread : Token.read? (trimStart text) = some (token, rest))
    (hrest : tokenize rest = .ok (tokens, rest')) :
    tokenize text = .ok (token :: tokens, rest') := by
  rw [tokenize, if_neg (by simp [hdone])]
  split
  · simp_all
  · rename_i token' rest'' hread'
    rw [hread] at hread'
    simp only [Option.some.injEq, Prod.mk.injEq] at hread'
    obtain ⟨rfl, rfl⟩ := hread'
    rw [hrest]

theorem trimStart_gap_append {gap : Text} (text : Text) (hgap : gap.all isBlank = true) :
    trimStart (gap ++ text) = trimStart text :=
  List.dropWhile_append_of_pos (List.all_eq_true.1 hgap)

theorem trimStart_gap {gap : Text} (hgap : gap.all isBlank = true) : trimStart gap = [] := by
  simpa [trimStart] using trimStart_gap_append [] hgap

theorem trimStart_cons {c : Char} (text : Text) (hc : isBlank c = false) :
    trimStart (c :: text) = c :: text :=
  List.dropWhile_cons_of_neg (by simp [hc])

theorem exists_gap (text : Text) :
    ∃ gap, gap.all isBlank = true ∧ text = gap ++ trimStart text ∧
      (trimStart text).head?.any isBlank = false := by
  refine ⟨text.takeWhile isBlank, by simp, ?_, ?_⟩
  · exact List.takeWhile_append_dropWhile.symm
  · cases h : trimStart text with
    | nil => rfl
    | cons c rest =>
      have hne : text.dropWhile isBlank ≠ [] := by
        rw [show text.dropWhile isBlank = c :: rest from h]
        simp
      have := List.head_dropWhile_not isBlank hne
      simpa [show text.dropWhile isBlank = c :: rest from h] using this

theorem all_isBlank_of_trimStart {text : Text} (h : trimStart text = []) :
    text.all isBlank = true := by
  obtain ⟨gap, hgap, htext, -⟩ := exists_gap text
  rw [h, List.append_nil] at htext
  rwa [htext]

theorem isBlank_of_isDelimiter {c : Char} (h : Token.isDelimiter c = false) :
    isBlank c = false := by
  simp only [Token.isDelimiter, Bool.or_eq_false_iff] at h
  exact h.1.1

private theorem atEnd_of_isDone {text : Text} (h : Token.isDone text = true) :
    Token.atEnd text = true := by
  cases text with
  | nil => rfl
  | cons c rest =>
    by_cases hc : isBlank c = true
    · simp [Token.atEnd, Token.isDelimiter, hc]
    · rw [Bool.not_eq_true] at hc
      rw [Token.isDone, trimStart_cons rest hc] at h
      have hsign : c = '<' ∨ c = '>' := by simpa using h
      rcases hsign with rfl | rfl <;> rfl

private theorem atEnd_written_append {words : List Word} {written rest : Text}
    (h : AllWritten false words written) (hrest : Token.atEnd rest = true) :
    Token.atEnd (written ++ rest) = true := by
  cases h with
  | nil => exact hrest
  | @cons _ word words gap raw rest' hgap hne _ _ =>
    match gap, hgap, hne rfl with
    | c :: gap, hgap, _ =>
      have hc : isBlank c = true := by
        rw [List.all_cons, Bool.and_eq_true] at hgap
        exact hgap.1
      simp [Token.atEnd, Token.isDelimiter, hc]

theorem tokenize_complete {first : Bool} {words : List Word} {written rest : Text}
    (h : AllWritten first words written) (hdone : Token.isDone rest = true) :
    ∃ tokens, tokenize (written ++ rest) = .ok (tokens, rest) ∧ tokens.map ofToken = words := by
  induction h with
  | nil => exact ⟨[], tokenize_of_isDone hdone, rfl⟩
  | @cons first word words gap raw written hgap hne hword hwords ih =>
    obtain ⟨tokens, htokens, hmap⟩ := ih
    obtain ⟨token, hread, htoken⟩ :=
      Token.read?_complete hword (atEnd_written_append hwords (atEnd_of_isDone hdone))
    obtain ⟨c, tail, rfl, hc⟩ := hword.head
    have htrim : trimStart (gap ++ (c :: tail ++ written) ++ rest) = c :: tail ++
        (written ++ rest) := by
      rw [List.append_assoc, trimStart_gap_append _ hgap, List.append_assoc, List.cons_append,
        trimStart_cons _ (isBlank_of_isDelimiter hc)]
    have hnot : Token.isDone (gap ++ (c :: tail ++ written) ++ rest) = false := by
      rw [Token.isDone, htrim]
      simp only [Token.isDelimiter, Bool.or_eq_false_iff] at hc
      simp [hc]
    refine ⟨token :: tokens, ?_, by simp [htoken, hmap]⟩
    exact tokenize_of_read hnot (by rw [htrim, hread]) htokens

/-- What is read as tokens are the tokens as they are written, with gaps before them. -/
theorem allRead_of_tokenize (first : Bool) {text rest : Text} {tokens : List Token}
    (h : tokenize text = .ok (tokens, rest)) (hfirst : first = false → Token.atEnd text = true) :
    ∃ read, text = read ++ rest ∧ Token.AllRead first tokens read := by
  fun_induction tokenize text generalizing tokens rest first with
  | case1 text =>
    cases h
    exact ⟨[], rfl, .nil⟩
  | case2 => cases h
  | case3 text =>
    cases h
    exact ⟨[], rfl, .nil⟩
  | case4 => cases h
  | case5 text _ token rest' hread tokens' rest'' htokens ih =>
    cases h
    obtain ⟨hword, htext, hend⟩ := Token.read?_sound hread
    obtain ⟨read, rfl, hreads⟩ := ih false htokens (fun _ => hend)
    obtain ⟨gap, hgap, hsplit, -⟩ := exists_gap text
    rw [htext] at hsplit
    refine ⟨gap ++ (token.raw ++ read), by simp [hsplit], .cons hgap ?_ hword hreads⟩
    -- Without blanks the text would start with the token, which starts with no delimiter.
    rintro hlater rfl
    obtain ⟨c, tail, hraw, hc⟩ := hword.head
    have hdelim := hfirst hlater
    rw [hsplit, hraw] at hdelim
    simp [Token.atEnd, hc] at hdelim

theorem tokenize_sound (first : Bool) {text rest : Text} {tokens : List Token}
    (h : tokenize text = .ok (tokens, rest)) (hfirst : first = false → Token.atEnd text = true) :
    ∃ written, text = written ++ rest ∧ AllWritten first (tokens.map ofToken) written := by
  obtain ⟨read, htext, htokens⟩ := allRead_of_tokenize first h hfirst
  exact ⟨read, htext, htokens.allWritten⟩

theorem eq_malformed_of_tokenize {text : Text} {e : ShellError} (h : tokenize text = .error e) :
    e = .malformed := by
  fun_induction tokenize text generalizing e with
  | case1 => cases h
  | case2 => cases h; rfl
  | case3 => cases h
  | case4 _ _ _ _ _ _ htokens ih =>
    cases h
    exact ih htokens
  | case5 => cases h

end Text

end LineShell
