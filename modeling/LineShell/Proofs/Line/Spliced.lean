import LineShell.Proofs.Line.Written
/-!
# Spliced texts

A spliced text consists of characters of one kind with back-quoted spans among them. Bare tokens and
the insides of double quotes are such texts. Here each reader is shown to accept exactly them, and
dividing a spliced text at its back-quotes to be the inverse of writing the parts of a word one
after the other.
-/

namespace LineShell

namespace Text

/-- Characters of one kind with back-quoted spans among them, from inside a span or from outside. -/
inductive Spliced (isPlain : Char → Bool) : (inSpan : Bool) → Text → Prop
  | nil : Spliced isPlain false []
  | plain {c : Char} {text : Text} :
    isPlain c = true → Spliced isPlain false text → Spliced isPlain false (c :: text)
  | opening {text : Text} : Spliced isPlain true text → Spliced isPlain false ('`' :: text)
  | inside {c : Char} {text : Text} :
      c ≠ '\n' → c ≠ '`' → Spliced isPlain true text → Spliced isPlain true (c :: text)
  | closing {text : Text} : Spliced isPlain false text → Spliced isPlain true ('`' :: text)

variable {isPlain : Char → Bool}

theorem notMem_of_all {text : Text} {c : Char} (hall : text.all isPlain) (hc : isPlain c = false) :
    c ∉ text := by
  intro hmem
  rw [List.all_eq_true.1 hall c hmem] at hc
  cases hc

theorem Spliced.plain_append {plain text : Text} (hplain : plain.all isPlain)
    (htext : Spliced isPlain false text) : Spliced isPlain false (plain ++ text) := by
  induction plain with
  | nil => exact htext
  | cons c plain ih =>
    rw [List.all_cons, Bool.and_eq_true] at hplain
    exact .plain hplain.1 (ih hplain.2)

theorem Spliced.of_all {plain : Text} (hplain : plain.all isPlain) :
    Spliced isPlain false plain := by
  rw [← List.append_nil plain]
  exact Spliced.nil.plain_append hplain

private theorem Spliced.span_append {command text : Text} (hspan : command.isSpan)
    (htext : Spliced isPlain false text) : Spliced isPlain true (command ++ '`' :: text) := by
  induction command with
  | nil => exact .closing htext
  | cons c command ih =>
    simp only [isSpan, List.mem_cons, not_or, Bool.and_eq_true, decide_eq_true_eq] at hspan
    apply Spliced.inside
    · exact Ne.symm hspan.1.1
    · exact Ne.symm hspan.2.1
    · exact ih (by simp [isSpan, hspan])

end Text

namespace Token

open Text

theorem isBare_iff {c : Char} :
    isBare c = true ↔
    isBlank c = false ∧ c ∉ ['"', '\'', '`', ';', '|', '<', '>'] := by
  simp [isBare]

theorem isDelimiter_of_isBare {c : Char} (h : isBare c = true) : isDelimiter c = false := by
  rw [isBare_iff] at h
  simp_all [isDelimiter]

theorem glued?_sound {inSpan : Bool} {text read rest : Text}
    (h : glued? inSpan text = some (read, rest)) :
    Spliced isBare inSpan read ∧ atEnd rest = true := by
  induction text generalizing inSpan read with
  | nil =>
    cases inSpan with
    | false =>
      simp only [glued?, Option.some.injEq, Prod.mk.injEq] at h
      obtain ⟨rfl, rfl⟩ := h
      exact ⟨.nil, rfl⟩
    | true => simp [glued?] at h
  | cons c text ih =>
    cases inSpan with
    | false =>
      simp only [glued?] at h
      split at h
      case isTrue hdelim =>
        simp only [Option.some.injEq, Prod.mk.injEq] at h
        obtain ⟨rfl, rfl⟩ := h
        exact ⟨.nil, by simpa [atEnd] using hdelim⟩
      case isFalse =>
        split at h
        case isTrue hc =>
          obtain ⟨tail, ht, rfl⟩ := keep_eq_some h
          exact ⟨hc ▸ .opening (ih ht).1, (ih ht).2⟩
        case isFalse =>
          split at h
          case isTrue hbare =>
            obtain ⟨tail, ht, rfl⟩ := keep_eq_some h
            exact ⟨.plain hbare (ih ht).1, (ih ht).2⟩
          case isFalse => simp at h
    | true =>
      simp only [glued?] at h
      split at h
      case isTrue => simp at h
      case isFalse hnl =>
        obtain ⟨tail, ht, rfl⟩ := keep_eq_some h
        refine ⟨?_, (ih ht).2⟩
        by_cases hc : c = '`'
        · subst hc
          exact .closing (ih ht).1
        · have htail := (ih ht).1
          rw [decide_eq_true hc] at htail
          exact .inside hnl hc htail

theorem glued?_complete {inSpan : Bool} {read rest : Text} (h : Spliced isBare inSpan read)
    (hend : atEnd rest = true) : glued? inSpan (read ++ rest) = some (read, rest) := by
  induction h with
  | nil =>
    cases rest with
    | nil => rfl
    | cons c rest =>
      have hc : isDelimiter c = true := by simpa [atEnd] using hend
      simp [glued?, hc]
  | @plain c text hbare _ ih =>
    have hbq : c ≠ '`' := by
      rw [isBare_iff] at hbare
      exact fun hc => hbare.2 (by simp [hc])
    simp [glued?, isDelimiter_of_isBare hbare, hbq, hbare, ih, keep]
  | opening _ ih =>
    have hdelim : isDelimiter '`' = false := by decide
    simp [glued?, hdelim, ih, keep]
  | inside hnl hbq _ ih => simp [glued?, hnl, hbq, ih, keep]
  | closing _ ih => simp [glued?, ih, keep]

theorem interpolated?_sound {inSpan : Bool} {text read rest : Text}
    (h : interpolated? inSpan text = some (read, rest)) : Spliced isQuotable inSpan read := by
  induction text generalizing inSpan read with
  | nil => simp [interpolated?] at h
  | cons c text ih =>
    cases inSpan with
    | false =>
      simp only [interpolated?] at h
      split at h
      case isTrue =>
        simp only [Option.some.injEq, Prod.mk.injEq] at h
        obtain ⟨rfl, rfl⟩ := h
        exact .nil
      case isFalse hdq =>
        split at h
        case isTrue => simp at h
        case isFalse hnl =>
          obtain ⟨tail, ht, rfl⟩ := keep_eq_some h
          have htail := ih ht
          by_cases hc : c = '`'
          · rw [decide_eq_true hc] at htail
            exact hc ▸ .opening htail
          · rw [decide_eq_false hc] at htail
            exact .plain (by simp [isQuotable, hdq, hnl, hc]) htail
    | true =>
      simp only [interpolated?] at h
      split at h
      case isTrue => simp at h
      case isFalse hnl =>
        obtain ⟨tail, ht, rfl⟩ := keep_eq_some h
        by_cases hc : c = '`'
        · subst hc
          exact .closing (ih ht)
        · have htail := ih ht
          rw [decide_eq_true hc] at htail
          exact .inside hnl hc htail

theorem interpolated?_complete {inSpan : Bool} {read : Text} (rest : Text)
    (h : Spliced isQuotable inSpan read) :
    interpolated? inSpan (read ++ '"' :: rest) = some (read, rest) := by
  induction h with
  | nil => simp [interpolated?]
  | @plain c text hplain _ ih =>
    have hc : c ≠ '\n' ∧ c ≠ '"' ∧ c ≠ '`' := by simpa [isQuotable] using hplain
    simp [interpolated?, hc, ih, keep]
  | opening _ ih => simp [interpolated?, ih, keep]
  | inside hnl hbq _ ih => simp [interpolated?, hnl, hbq, ih, keep]
  | closing _ ih => simp [interpolated?, ih, keep]

theorem single?_sound {text read rest : Text} (h : single? text = some (read, rest)) :
    '\n' ∉ read ∧ '\'' ∉ read := by
  induction text generalizing read with
  | nil => simp [single?] at h
  | cons c text ih =>
    simp only [single?] at h
    split at h
    case isTrue =>
      simp only [Option.some.injEq, Prod.mk.injEq] at h
      simp [← h.1]
    case isFalse hq =>
      split at h
      case isTrue => simp at h
      case isFalse hnl =>
        obtain ⟨tail, ht, rfl⟩ := keep_eq_some h
        have htail := ih ht
        simp [htail, Ne.symm hq, Ne.symm hnl]

theorem single?_complete {read : Text} (rest : Text) (hnl : '\n' ∉ read) (hq : '\'' ∉ read) :
    single? (read ++ '\'' :: rest) = some (read, rest) := by
  induction read with
  | nil => simp [single?]
  | cons c read ih =>
    simp only [List.mem_cons, not_or] at hnl hq
    simp [single?, Ne.symm hnl.1, Ne.symm hq.1, ih hnl.2 hq.2, keep]

end Token

namespace Word

open Text

variable {quoted : Bool} {isPlain : Char → Bool}

/-- The word that is one text, or nothing if the text is empty. -/
def ofPlain (quoted : Bool) (text : Text) : Word :=
  if text = [] then [] else [if quoted then .literal text else .pattern text]

@[simp] theorem text_ofPlain (quoted : Bool) (plain : Text) :
    text (ofPlain quoted plain) = plain := by
  unfold ofPlain
  split
  · simp_all [text]
  · cases quoted <;> simp [text, Part.text]

@[simp] theorem text_append (left right : Word) :
    text (left ++ right) = text left ++ text right := by
  simp [text]

@[simp] theorem text_command_cons (command : Text) (word : Word) :
    text (.command command quoted :: word) = '`' :: (command ++ '`' :: text word) := by
  simp [text, Part.text]

private theorem cons_of_fits {part : Part} (word : Word) (h : part.fits quoted isPlain) :
    (∃ command, part = .command command quoted ∧ command.isSpan) ∨
      ∃ plain, part :: word = ofPlain quoted plain ++ word ∧ plain ≠ [] ∧ plain.all isPlain ∧
        part.isCommand = false := by
  cases part with
  | literal plain =>
    simp only [Part.fits, Bool.and_eq_true, decide_eq_true_eq] at h
    obtain ⟨⟨rfl, hne⟩, hall⟩ := h
    exact .inr ⟨plain, by simp [ofPlain, hne], hne, hall, rfl⟩
  | pattern plain =>
    simp only [Part.fits, Bool.and_eq_true, Bool.not_eq_true', decide_eq_true_eq] at h
    obtain ⟨⟨rfl, hne⟩, hall⟩ := h
    exact .inr ⟨plain, by simp [ofPlain, hne], hne, hall, rfl⟩
  | command command inQuotes =>
    simp only [Part.fits, Bool.and_eq_true, decide_eq_true_eq] at h
    exact .inl ⟨command, by rw [h.1], h.2⟩

theorem spliced_text {word : Word} (hfits : ∀ part ∈ word, part.fits quoted isPlain) :
    Spliced isPlain false (text word) := by
  induction word with
  | nil => exact .nil
  | cons part word ih =>
    have hrest := ih fun other hother => hfits other (List.mem_cons_of_mem part hother)
    obtain ⟨command, rfl, hspan⟩ | ⟨plain, hcons, -, hall, -⟩ :=
      cons_of_fits word (hfits part List.mem_cons_self)
    · rw [text_command_cons]
      exact .opening (hrest.span_append hspan)
    · rw [hcons, text_append, text_ofPlain]
      exact hrest.plain_append hall

private theorem ofPieces_cons (plain : Text) (pieces : List Text) :
    ofPieces quoted false
      (plain :: pieces) = ofPlain quoted plain ++ ofPieces quoted true pieces := by
  cases plain <;> simp [ofPieces, ofPlain]

private theorem ofSpans_plain {plain : Text} (h : '`' ∉ plain) :
    ofSpans plain quoted = ofPlain quoted plain := by
  rw [ofSpans, List.splitOn_eq_singleton h, ofPieces_cons]
  simp [ofPieces]

private theorem ofSpans_command {plain command : Text} (rest : Text) (hplain : '`' ∉ plain)
    (hspan : command.isSpan) :
    ofSpans (plain ++ '`' :: (command ++ '`' :: rest)) quoted =
      ofPlain quoted plain ++ .command command quoted :: ofSpans rest quoted := by
  have hcommand : '`' ∉ command := by
    simp only [isSpan, Bool.and_eq_true, decide_eq_true_eq] at hspan
    exact hspan.2
  rw [ofSpans, List.splitOn_append_cons_self_of_not_mem hplain,
    List.splitOn_append_cons_self_of_not_mem hcommand, ofPieces_cons]
  rfl

-- The text before the word is what the induction carries: a text part is moved there until a
-- command follows it.
private theorem ofSpans_append_text (hbq : isPlain '`' = false) (plain : Text) {word : Word}
    (hfits : ∀ part ∈ word, part.fits quoted isPlain) (hapart : Apart word)
    (hplain : plain.all isPlain) (hhead : plain ≠ [] → ∀ part ∈ word.head?, part.isCommand = true) :
    ofSpans (plain ++ text word) quoted = ofPlain quoted plain ++ word := by
  induction word generalizing plain with
  | nil => simp [text, ofSpans_plain (notMem_of_all hplain hbq)]
  | cons part word ih =>
    have hrest : ∀ other ∈ word, other.fits quoted isPlain := fun other hother =>
      hfits other (List.mem_cons_of_mem part hother)
    have hapart' : Apart word := hapart.of_cons
    obtain ⟨command, rfl, hspan⟩ | ⟨next, hcons, hne, hall, hpart⟩ :=
      cons_of_fits word (hfits part List.mem_cons_self)
    · have h := ih [] hrest hapart' rfl (fun h => absurd rfl h)
      rw [text_command_cons, ofSpans_command _ (notMem_of_all hplain hbq) hspan]
      simpa [ofPlain] using h
    · have hnil : plain = [] := by
        by_contra h
        have := hhead h part (by simp)
        simp [hpart] at this
      subst hnil
      rw [hcons, text_append, text_ofPlain, List.nil_append, ih next hrest hapart' hall]
      · simp [ofPlain]
      · intro _ other hother
        cases word with
        | nil => simp at hother
        | cons _ _ =>
          obtain rfl : _ = other := by simpa using hother
          simpa [hpart] using (List.isChain_cons_cons.1 hapart).1

theorem ofSpans_text (hbq : isPlain '`' = false) {word : Word}
    (hfits : ∀ part ∈ word, part.fits quoted isPlain) (hapart : Apart word) :
    ofSpans (text word) quoted = word := by
  simpa [ofPlain] using ofSpans_append_text hbq [] hfits hapart rfl (fun h => absurd rfl h)

private def pushPlain (quoted : Bool) (c : Char) : Word → Word
  | .literal text :: word => .literal (c :: text) :: word
  | .pattern text :: word => .pattern (c :: text) :: word
  | word => ofPlain quoted [c] ++ word

private theorem text_pushPlain (c : Char) (word : Word) :
    text (pushPlain quoted c word) = c :: text word := by
  unfold pushPlain
  split
  · simp [text, Part.text]
  · simp [text, Part.text]
  · rw [text_append, text_ofPlain]
    rfl

private theorem fits_pushPlain {c : Char} {word : Word} (hc : isPlain c = true)
    (hfits : ∀ part ∈ word, part.fits quoted isPlain) :
    ∀ part ∈ pushPlain quoted c word, part.fits quoted isPlain := by
  unfold pushPlain
  split
  · rw [List.forall_mem_cons] at hfits ⊢
    exact ⟨by simp_all [Part.fits], hfits.2⟩
  · rw [List.forall_mem_cons] at hfits ⊢
    exact ⟨by simp_all [Part.fits], hfits.2⟩
  · rw [ofPlain, if_neg (List.cons_ne_nil c []), List.singleton_append, List.forall_mem_cons]
    exact ⟨by cases quoted <;> simp [Part.fits, hc], hfits⟩

private theorem apart_pushPlain {c : Char} {word : Word} (hapart : Apart word) :
    Apart (pushPlain quoted c word) := by
  unfold pushPlain Apart at *
  split
  · cases hapart <;> simp_all [Part.isCommand]
  · cases hapart <;> simp_all [Part.isCommand]
  · cases word with
    | nil => simp [ofPlain]
    | cons part word => cases part <;> simp_all [ofPlain, Part.isCommand]

private theorem exists_word_of_spliced {inSpan : Bool} {raw : Text} (quoted : Bool)
    (h : Spliced isPlain inSpan raw) :
    ∃ (command : Text) (word : Word), raw = (if inSpan then command ++ ['`'] else []) ++ text word ∧
      command.isSpan ∧ (∀ part ∈ word, part.fits quoted isPlain) ∧ Apart word := by
  induction h with
  | nil => exact ⟨[], [], rfl, by decide, by simp, .nil⟩
  | @plain c _ hc _ ih =>
    obtain ⟨command, word, rfl, hspan, hfits, hapart⟩ := ih
    exact ⟨command, pushPlain quoted c word, by simp [text_pushPlain], hspan,
      fits_pushPlain hc hfits, apart_pushPlain hapart⟩
  | opening _ ih =>
    obtain ⟨command, word, rfl, hspan, hfits, hapart⟩ := ih
    refine ⟨[], .command command quoted :: word, by simp, by decide, ?_, ?_⟩
    · intro part hpart
      rcases List.mem_cons.1 hpart with rfl | hpart
      · simp [Part.fits, hspan]
      · exact hfits part hpart
    · cases word with
      | nil => exact .singleton _
      | cons _ _ => exact List.isChain_cons_cons.2 ⟨.inl rfl, hapart⟩
  | @inside c _ hnl hbq _ ih =>
    obtain ⟨command, word, rfl, hspan, hfits, hapart⟩ := ih
    refine ⟨c :: command, word, by simp, ?_, hfits, hapart⟩
    simp only [isSpan, Bool.and_eq_true, decide_eq_true_eq] at hspan
    simp [isSpan, hspan, Ne.symm hnl, Ne.symm hbq]
  | closing _ ih =>
    obtain ⟨command, word, rfl, hspan, hfits, hapart⟩ := ih
    exact ⟨[], word, by simp, by decide, hfits, hapart⟩

/-- Dividing a spliced text at its back-quotes loses nothing, and the parts fit. -/
theorem ofSpans_of_spliced (quoted : Bool) (hbq : isPlain '`' = false) {raw : Text}
    (h : Spliced isPlain false raw) :
    text (ofSpans raw quoted) = raw ∧ (∀ part ∈ ofSpans raw quoted, part.fits quoted isPlain) ∧
      Apart (ofSpans raw quoted) := by
  obtain ⟨_, word, hraw, _, hfits, hapart⟩ := exists_word_of_spliced quoted h
  have hword : raw = text word := by simpa using hraw
  rw [hword, ofSpans_text hbq hfits hapart]
  exact ⟨rfl, hfits, hapart⟩

end Word

end LineShell
