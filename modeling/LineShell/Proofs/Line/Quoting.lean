import LineShell.Proofs.Line.Tokens
import LineShell.Proofs.Traversal
/-!
# Quotations in written forms

What stands for a word or a command ends outside quotations if it starts there, and no `;` or `|` in
it is read outside them. Such texts, joined by a separator, are split into themselves.
-/

namespace LineShell

open Text

/-- Reading a text leads from one state to another and meets no separator in the bare state. -/
inductive Quoting.Passes (separator : Char) : Quoting → Text → Quoting → Prop
  | nil {quoting : Quoting} : Passes separator quoting [] quoting
  | cons {quoting after : Quoting} {c : Char} {text : Text} :
      (quoting = .bare → c ≠ separator) → Passes separator (quoting.step c) text after →
      Passes separator quoting (c :: text) after

namespace Quoting

variable {separator : Char}

theorem Passes.append {start middle after : Quoting} {left right : Text}
    (hleft : Passes separator start left middle) (hright : Passes separator middle right after) :
    Passes separator start (left ++ right) after := by
  induction hleft with
  | nil => exact hright
  | cons hc _ ih => exact .cons hc (ih hright)

theorem Passes.foldl_step {start after : Quoting} {text : Text}
    (h : Passes separator start text after) : text.foldl Quoting.step start = after := by
  induction h with
  | nil => rfl
  | cons _ _ ih => exact ih

private theorem passes_of_stays {quoting : Quoting} {text : Text}
    (hstep : ∀ c ∈ text, quoting.step c = quoting) (hsep : quoting = .bare → separator ∉ text) :
    Passes separator quoting text quoting := by
  induction text with
  | nil => exact .nil
  | cons c text ih =>
    apply Passes.cons
    · intro hbare hc
      exact hsep hbare (by simp [hc])
    · rw [hstep c List.mem_cons_self]
      apply ih
      · intro d hd
        exact hstep d (List.mem_cons_of_mem c hd)
      · intro hbare hmem
        exact hsep hbare (List.mem_cons_of_mem c hmem)

private theorem step_bare {c : Char} (hsq : c ≠ '\'') (hdq : c ≠ '"') (hbq : c ≠ '`') :
    Quoting.bare.step c = .bare := by
  unfold step
  split <;> simp_all

theorem step_bare_of_notMem {c : Char} (h : c ∉ ['\'', '"', '`']) :
    Quoting.bare.step c = .bare := by
  simp only [List.mem_cons, List.not_mem_nil, or_false, not_or] at h
  exact step_bare h.1 h.2.1 h.2.2

theorem step_single {c : Char} (h : c ≠ '\'') : Quoting.single.step c = .single := by
  unfold step
  split <;> simp_all

private theorem step_double {c : Char} (hdq : c ≠ '"') (hbq : c ≠ '`') :
    Quoting.double.step c = .double := by
  unfold step
  split <;> simp_all

theorem step_double_of_notMem {c : Char} (h : c ∉ ['"', '`']) :
    Quoting.double.step c = .double := by
  simp only [List.mem_cons, List.not_mem_nil, or_false, not_or] at h
  exact step_double h.1 h.2

theorem step_back {c : Char} (h : c ≠ '`') : Quoting.back.step c = .back := by
  unfold step
  split <;> simp_all

theorem step_backInDouble {c : Char} (h : c ≠ '`') :
    Quoting.backInDouble.step c = .backInDouble := by
  unfold step
  split <;> simp_all

private theorem passes_bare {inSpan : Bool} {raw : Text} (hsep : Token.isBare separator = false)
    (hbq : separator ≠ '`') (h : Spliced Token.isBare inSpan raw) :
    Passes separator (if inSpan then .back else .bare) raw .bare := by
  induction h with
  | nil => exact .nil
  | @plain c raw hc _ ih =>
    refine .cons ?_ ?_
    · rintro - rfl
      simp [hsep] at hc
    · rw [Token.isBare_iff] at hc
      simp only [List.mem_cons, List.not_mem_nil, or_false, not_or] at hc
      simpa [step_bare hc.2.2.1 hc.2.1 hc.2.2.2.1] using ih
  | opening _ ih => exact .cons (fun _ => Ne.symm hbq) ih
  | @inside c raw _ hc _ ih =>
    refine .cons (fun h => by cases h) ?_
    simpa [step_back hc] using ih
  | closing _ ih => exact .cons (fun h => by cases h) ih

private theorem passes_double {inSpan : Bool} {value : Text} (h : Spliced isQuotable inSpan value) :
    Passes separator (if inSpan then .backInDouble else .double) value .double := by
  induction h with
  | nil => exact .nil
  | @plain c value hc _ ih =>
    refine .cons (fun h => by cases h) ?_
    have hc' : c ≠ '\n' ∧ c ≠ '"' ∧ c ≠ '`' := by simpa [isQuotable] using hc
    simpa [step_double hc'.2.1 hc'.2.2] using ih
  | opening _ ih => exact .cons (fun h => by cases h) ih
  | @inside c value _ hc _ ih =>
    refine .cons (fun h => by cases h) ?_
    simpa [step_backInDouble hc] using ih
  | closing _ ih => exact .cons (fun h => by cases h) ih

private theorem passes_of_all {isPlain : Char → Bool} {text : Text} (hall : text.all isPlain = true)
    (hsq : isPlain '\'' = false) (hdq : isPlain '"' = false) (hbq : isPlain '`' = false)
    (hsep : isPlain separator = false) : Passes separator .bare text .bare := by
  have hne {c d : Char} (hc : c ∈ text) (hd : isPlain d = false) : c ≠ d := fun h =>
    notMem_of_all hall hd (h ▸ hc)
  apply passes_of_stays
  · intro c hc
    exact step_bare (hne hc hsq) (hne hc hdq) (hne hc hbq)
  · intro _
    exact notMem_of_all hall hsep

end Quoting

/-- A character that, outside quotations, ends a command or begins a redirection. -/
def Text.IsSign (c : Char) : Prop :=
  c ∈ [';', '|', '<', '>']

def Text.IsSeparator (c : Char) : Prop :=
  c = ';' ∨ c = '|'

private theorem Text.IsSign.not_plain {c : Char} (h : IsSign c) :
    isBlank c = false ∧ c ∉ ['\'', '"', '`'] ∧ Token.isBare c = false := by
  simp only [IsSign, List.mem_cons, List.not_mem_nil, or_false] at h
  rcases h with rfl | rfl | rfl | rfl <;> decide

private theorem Text.IsSeparator.isSign {c : Char} (h : IsSeparator c) : IsSign c := by
  rcases h with rfl | rfl <;> simp [IsSign]

section Written

open Quoting

variable {separator : Char}

theorem passes_gap (hsign : IsSign separator) {gap : Text} (hgap : gap.all isBlank = true) :
    Passes separator .bare gap .bare :=
  passes_of_all hgap (by decide) (by decide) (by decide) hsign.not_plain.1

theorem Word.Written.passes (hquote : separator ∉ ['\'', '"', '`'])
    (hbare : Token.isBare separator = false) {word : Word} {raw : Text}
    (h : Word.Written word raw) : Passes separator .bare raw .bare := by
  have hopen : ∀ c ∈ ['\'', '"', '`'], c ≠ separator := fun c hc heq => hquote (heq ▸ hc)
  cases h with
  | @single text _ hq =>
    apply Passes.cons (fun _ => hopen _ (by simp))
    have hinside : Passes separator .single text .single := by
      apply passes_of_stays
      · intro c hc
        exact step_single fun h => hq (h ▸ hc)
      · intro h
        cases h
    exact hinside.append (.cons (fun h => by cases h) .nil)
  | double hall =>
    apply Passes.cons (fun _ => hopen _ (by simp))
    exact (passes_double (.of_all hall)).append (.cons (fun h => by cases h) .nil)
  | flag hflag =>
    exact passes_bare hbare (Ne.symm (hopen _ (by simp))) (Token.spliced_of_isFlag hflag)
  | bare hword => exact passes_bare hbare (Ne.symm (hopen _ (by simp))) hword.spliced
  | interpolated hinter =>
    apply Passes.cons (fun _ => hopen _ (by simp))
    exact (passes_double (Word.spliced_text hinter.fits)).append (.cons (fun h => by cases h) .nil)

theorem Word.AllWritten.passes (hsign : IsSign separator) {first : Bool} {words : List Word}
    {written : Text} (h : Word.AllWritten first words written) :
    Passes separator .bare written .bare := by
  obtain ⟨-, hquote, hbare⟩ := hsign.not_plain
  induction h with
  | nil => exact .nil
  | cons hgap _ hword _ ih =>
    exact (passes_gap hsign hgap).append ((hword.passes hquote hbare).append ih)

theorem Redirections.FileWritten.passes (hsep : IsSeparator separator) {sign : Char}
    (hsign : sign = '<' ∨ sign = '>') {file : Option Text} {written : Text}
    (h : Redirections.FileWritten sign file written) :
    Passes separator .bare written .bare := by
  cases h with
  | absent => exact .nil
  | present hbefore hafter _ hname =>
    refine (passes_gap hsep.isSign hbefore).append (.cons ?_ ?_)
    · rcases hsep with rfl | rfl <;> rcases hsign with rfl | rfl <;> decide
    · have hstep : Quoting.bare.step sign = .bare := by rcases hsign with rfl | rfl <;> rfl
      rw [hstep]
      apply (passes_gap hsep.isSign hafter).append
      apply passes_of_all hname (by decide) (by decide) (by decide)
      rcases hsep with rfl | rfl <;> decide

theorem Command.Written.passes (hsep : IsSeparator separator) {command : Command} {text : Text}
    (h : Command.Written command text) : Passes separator .bare text .bare := by
  cases h with
  | mk hwords hrest =>
    cases hrest with
    | mk hinput houtput hgap =>
      apply (hwords.passes hsep.isSign).append
      apply (hinput.passes hsep (.inl rfl)).append
      exact (houtput.passes hsep (.inr rfl)).append (passes_gap hsep.isSign hgap)

end Written

namespace Text

open Quoting

variable {separator : Char}

private theorem unquotedPieces_append {start after : Quoting} {text : Text} (rest : Text)
    (h : Passes separator start text after) :
    unquotedPieces separator start (text ++ rest) =
      (unquotedPieces separator after rest).modifyHead (text ++ ·) := by
  induction h with
  | @nil quoting => cases hpieces : unquotedPieces separator quoting rest <;> simp [hpieces]
  | @cons quoting after c text hc _ ih =>
    have hkeep : ¬(c = separator ∧ quoting = .bare) := fun h => hc h.2 h.1
    simp only [List.cons_append, unquotedPieces, if_neg hkeep, ih]
    cases unquotedPieces separator after rest <;> rfl

private theorem unquotedPieces_intercalate (hbare : Quoting.bare.step separator = .bare)
    {texts : List Text} (hne : texts ≠ []) (h : ∀ text ∈ texts, Passes separator .bare text .bare) :
    unquotedPieces separator .bare (List.intercalate [separator] texts) = texts := by
  induction texts with
  | nil => exact absurd rfl hne
  | cons text texts ih =>
    have htext := h text List.mem_cons_self
    cases texts with
    | nil =>
      rw [List.intercalate_singleton]
      simpa [unquotedPieces] using unquotedPieces_append [] htext
    | cons next texts =>
      rw [List.intercalate_cons_cons, List.append_assoc, unquotedPieces_append _ htext,
        List.singleton_append, unquotedPieces, hbare, ih (by simp) fun other hother =>
          h other (List.mem_cons_of_mem text hother)]
      simp

theorem passes_intercalate {joint : Char} (hbare : Quoting.bare.step joint = .bare)
    (hjoint : joint ≠ separator) {texts : List Text}
    (h : ∀ text ∈ texts, Passes separator .bare text .bare) :
    Passes separator .bare (List.intercalate [joint] texts) .bare := by
  apply intercalate_induction .nil _ h
  intro left right hleft hright
  apply hleft.append (.cons (fun _ => hjoint) _)
  rwa [hbare]

private theorem foldl_step_intercalate (hbare : Quoting.bare.step separator = .bare)
    {texts : List Text} (h : ∀ text ∈ texts, text.foldl Quoting.step .bare = .bare) :
    (List.intercalate [separator] texts).foldl Quoting.step .bare = .bare := by
  apply intercalate_induction (motive := fun text => text.foldl Quoting.step .bare = .bare) rfl _ h
  intro left right hleft hright
  rw [List.foldl_append, hleft, List.foldl_cons, hbare, hright]

theorem splitUnquoted_intercalate (hquote : separator ∉ ['\'', '"', '`']) {texts : List Text}
    (hne : texts ≠ []) (h : ∀ text ∈ texts, Passes separator .bare text .bare) :
    splitUnquoted separator (List.intercalate [separator] texts) = .ok texts := by
  have hbare : Quoting.bare.step separator = .bare := step_bare_of_notMem hquote
  have hbalanced : balanced (List.intercalate [separator] texts) = true := by
    rw [balanced, foldl_step_intercalate hbare fun text htext => (h text htext).foldl_step]
    rfl
  rw [splitUnquoted, if_pos hbalanced, unquotedPieces_intercalate hbare hne h]

theorem not_blank_intercalate {text : Text} (texts : List Text) (h : text.all isBlank = false) :
    (List.intercalate [separator] (text :: texts)).all isBlank = false := by
  obtain ⟨c, hmem, hc⟩ := List.all_eq_false.1 h
  rw [List.all_eq_false]
  refine ⟨c, ?_, hc⟩
  cases texts with
  | nil => simpa using hmem
  | cons next texts => simp [List.intercalate_cons_cons, hmem]

theorem segments_intercalate {texts : List Text} (hne : texts ≠ [])
    (hpass : ∀ text ∈ texts, Passes ';' .bare text .bare)
    (hblank : ∀ text ∈ texts, text.all isBlank = false) :
    segments (List.intercalate [';'] texts) = .ok texts := by
  have hline : (List.intercalate [';'] texts).all isBlank = false := by
    match texts, hne with
    | text :: texts, _ => exact not_blank_intercalate texts (hblank text List.mem_cons_self)
  have hany : texts.any (·.all isBlank) = false :=
    List.any_eq_false.2 fun text htext => by simp [hblank text htext]
  rw [segments, hline, splitUnquoted_intercalate (by decide) hne hpass]
  simp only [Bool.false_eq_true, if_false, ok_bind, hany]

theorem unquotedPieces_ne_nil (separator : Char) (quoting : Quoting) (text : Text) :
    unquotedPieces separator quoting text ≠ [] := by
  induction text generalizing quoting with
  | nil => simp [unquotedPieces]
  | cons c text ih =>
    have hrest := ih (quoting.step c)
    rw [unquotedPieces]
    split
    · simp
    · cases hpieces : unquotedPieces separator (quoting.step c) text with
      | nil => exact absurd hpieces hrest
      | cons => simp

theorem splitUnquoted_ne_nil {text : Text} {texts : List Text}
    (h : splitUnquoted separator text = .ok texts) : texts ≠ [] := by
  unfold splitUnquoted at h
  split at h
  · cases h
    exact unquotedPieces_ne_nil separator .bare text
  · cases h

theorem splitUnquoted_of_mem_segments {line segment : Text} {pieces : List Text}
    (h : segments line = .ok pieces) (hsegment : segment ∈ pieces) :
    splitUnquoted ';' line = .ok pieces := by
  unfold segments at h
  split at h
  · cases h
    cases hsegment
  · obtain ⟨found, hfound, h⟩ := bind_eq_ok_iff.1 h
    split at h
    · cases h
    · cases h
      exact hfound

end Text

end LineShell
