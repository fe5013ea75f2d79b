import LineShell.Proofs.Run.Substitution
import LineShell.Proofs.Line.Origin
import Mathlib
/-!
# Words become fields

Fields are described by signs: characters that are kept, separators, and marks that open a field
even if nothing follows them. Main statement: a word becomes one field for each stretch of its signs
between separators, once the outputs of its commands are known; and it fails as the first of its
commands that fails.
-/

namespace LineShell

open Text

inductive Sign where
  /-- A field begins here, unless one is in progress. -/
  | opening
  | kept (c : Char)
  | separator
  deriving DecidableEq, Repr

namespace Sign

def char? : Sign → Option Char
  | .kept c => some c
  | _ => none

def ofQuoted (text : Text) : List Sign :=
  .opening :: text.map .kept

def ofOutput (output : Text) : List Sign :=
  output.map fun c => if isBlank c then .separator else .kept c

/-- The fields that signs stand for: the kept characters of each stretch between separators that is
not empty. -/
def fields (signs : List Sign) : List Text :=
  ((signs.splitOnP (· = .separator)).filter (· ≠ [])).map (·.filterMap char?)

@[simp] theorem ofOutput_append (left right : Text) :
    ofOutput (left ++ right) = ofOutput left ++ ofOutput right := by
  simp [ofOutput]

end Sign

namespace Word

def signs : Word → (outputs : List Text) → List Sign
  | [], _ => []
  | .literal text :: word, outputs => Sign.ofQuoted text ++ signs word outputs
  | .pattern text :: word, outputs => Sign.ofQuoted text ++ signs word outputs
  | .command _ true :: word, outputs => Sign.ofQuoted (outputs.headD []) ++ signs word outputs.tail
  | .command _ false :: word, outputs => Sign.ofOutput (outputs.headD []) ++ signs word outputs.tail

def spliced : Word → (outputs : List Text) → Text
  | [], _ => []
  | .literal text :: word, outputs => text ++ spliced word outputs
  | .pattern text :: word, outputs => text ++ spliced word outputs
  | .command _ _ :: word, outputs => outputs.headD [] ++ spliced word outputs.tail

end Word

/-- Whether a part is bare text without blanks or a command outside quotes. -/
def Part.isUnquoted : Part → Bool
  | .literal _ => false
  | .pattern text => text ≠ [] && text.all (!isBlank ·)
  | .command _ quoted => !quoted

namespace Fields

def push (fields : Fields) : Sign → Fields
  | .opening => fields.add []
  | .kept c => fields.add [c]
  | .separator => fields.close

@[simp] theorem add_add (fields : Fields) (left right : Text) :
    (fields.add left).add right = fields.add (left ++ right) := by
  simp [add]

@[simp] theorem closeIf_close (fields : Fields) (condition : Bool) :
    fields.close.closeIf condition = fields.close := by
  simp [closeIf, close]

@[simp] theorem foldl_push_kept (fields : Fields) (left text : Text) :
    (text.map Sign.kept).foldl push (fields.add left) = fields.add (left ++ text) := by
  induction text generalizing left with
  | nil => simp
  | cons c text ih =>
    rw [List.map_cons, List.foldl_cons, push, add_add, ih, List.append_assoc, List.singleton_append]

@[simp] theorem foldl_push_ofQuoted (fields : Fields) (text : Text) :
    (Sign.ofQuoted text).foldl push fields = fields.add text :=
  foldl_push_kept fields [] text

end Fields

namespace Text

private theorem words_cons_blank {c : Char} (text : Text) (hc : isBlank c = true) :
    words (c :: text) = words text := by
  simp [words, List.splitOnP_cons_eq_if_modifyHead, hc]

private theorem words_cons_blank_cons {c d : Char} (text : Text) (hc : isBlank c = false)
    (hd : isBlank d = true) : words (c :: d :: text) = [c] :: words (d :: text) := by
  simp [words, List.splitOnP_cons_eq_if_modifyHead, hc, hd]

private theorem exists_words_cons_cons {c d : Char} (text : Text) (hc : isBlank c = false)
    (hd : isBlank d = false) :
    ∃ first pieces, words (d :: text) = first :: pieces ∧ words
      (c :: d :: text) = (c :: first) :: pieces := by
  obtain ⟨first, pieces, hpieces⟩ := List.exists_cons_of_ne_nil (List.splitOnP_ne_nil isBlank text)
  refine ⟨d :: first, pieces.filter (· ≠ []), ?_, ?_⟩ <;>
    simp [words, List.splitOnP_cons_eq_if_modifyHead, hc, hd, hpieces]

@[simp] theorem endsBlank_cons_cons (c d : Char) (text : Text) :
    endsBlank (c :: d :: text) = endsBlank (d :: text) := by
  rw [← List.singleton_append, endsBlank_append (List.cons_ne_nil d text)]

private theorem endsBlank_of_words_eq_nil {text : Text} (hne : text ≠ []) (h : words text = []) :
    endsBlank text = true := by
  induction text with
  | nil => exact absurd rfl hne
  | cons c text ih =>
    cases text with
    | nil =>
      by_contra hc
      have hword : words [c] = [[c]] := by
        simp [words, List.splitOnP_cons_eq_if_modifyHead,
          show isBlank c = false by simpa [endsBlank] using hc]
      rw [hword] at h
      cases h
    | cons d text =>
      rw [endsBlank_cons_cons]
      apply ih (List.cons_ne_nil d text)
      cases hc : isBlank c with
      | true => rwa [words_cons_blank _ hc] at h
      | false =>
        cases hd : isBlank d with
        | true =>
          rw [words_cons_blank_cons text hc hd] at h
          cases h
        | false =>
          obtain ⟨first, pieces, -, hjoined⟩ := exists_words_cons_cons text hc hd
          rw [hjoined] at h
          cases h

end Text

namespace Fields

@[simp] theorem addPieces_cons_cons (fields : Fields) (piece next : Text) (pieces : List Text) :
    fields.addPieces (piece :: next :: pieces) = (fields.add piece).close.addPieces
      (next :: pieces) := by
  rw [addPieces]
  simp

private theorem addPieces_add (fields : Fields) (c : Char) (first : Text) (pieces : List Text) :
    fields.addPieces ((c :: first) :: pieces) = (fields.add [c]).addPieces (first :: pieces) := by
  cases pieces with
  | nil => rw [addPieces, addPieces, add_add, List.singleton_append]
  | cons next pieces =>
    rw [addPieces_cons_cons, addPieces_cons_cons, add_add, List.singleton_append]

private theorem addOutput_cons_blank (fields : Fields) {c : Char} (output : Text)
    (hc : isBlank c = true) : fields.addOutput (c :: output) = fields.close.addOutput output := by
  have hstart : startsBlank (c :: output) = true := by simp [startsBlank, hc]
  rw [addOutput, addOutput, hstart, closeIf_close, words_cons_blank output hc]
  cases output with
  | nil => simp [endsBlank, hc, words, addPieces, closeIf, close]
  | cons d output => simp [closeIf]

private theorem addOutput_cons (fields : Fields) {c : Char} (output : Text)
    (hc : isBlank c = false) :
    fields.addOutput (c :: output) = (fields.add [c]).addOutput output := by
  have hstart : startsBlank (c :: output) = false := by simp [startsBlank, hc]
  cases output with
  | nil =>
    simp [addOutput, closeIf, startsBlank, endsBlank, hc, words,
      List.splitOnP_cons_eq_if_modifyHead, addPieces]
  | cons d output =>
    rw [addOutput, addOutput, hstart, endsBlank_cons_cons]
    cases hd : isBlank d with
    | true =>
      have hclose : startsBlank (d :: output) = true := by simp [startsBlank, hd]
      rw [hclose, words_cons_blank_cons output hc hd]
      cases hpieces : words (d :: output) with
      | nil =>
        have hend := endsBlank_of_words_eq_nil (List.cons_ne_nil d output) hpieces
        simp [hend, addPieces, closeIf, close]
      | cons next pieces => simp [closeIf]
    | false =>
      have hopen : startsBlank (d :: output) = false := by simp [startsBlank, hd]
      obtain ⟨first, pieces, hfirst, hjoined⟩ := exists_words_cons_cons output hc hd
      rw [hopen, hfirst, hjoined]
      simp [closeIf, addPieces_add]

@[simp] theorem foldl_push_ofOutput (fields : Fields) (output : Text) :
    (Sign.ofOutput output).foldl push fields = fields.addOutput output := by
  induction output generalizing fields with
  | nil => rfl
  | cons c output ih =>
    rw [Sign.ofOutput, List.map_cons, List.foldl_cons, ← Sign.ofOutput, ih]
    cases hc : isBlank c with
    | true => exact (addOutput_cons_blank fields output hc).symm
    | false => exact (addOutput_cons fields output hc).symm

private theorem foldl_push_ofOutput_of_plain (fields : Fields) {text : Text} (hne : text ≠ [])
    (hplain : text.all (!isBlank ·) = true) :
    (Sign.ofOutput text).foldl push fields = fields.add text := by
  have hkept : Sign.ofOutput text = text.map .kept := by
    apply List.map_congr_left
    intro c hc
    have hblank : isBlank c = false := by simpa using List.all_eq_true.1 hplain c hc
    rw [hblank]
    rfl
  rw [hkept]
  match text, hne with
  | c :: text, _ => exact foldl_push_kept fields [c] text

/-- The field that a stretch of signs without separators stands for, if it is not empty. -/
def ofStretch (stretch : List Sign) : Option Text :=
  if stretch = [] then none else some (stretch.filterMap Sign.char?)

private theorem push_of_ne_separator (closed : List Text) (stretch : List Sign) {sign : Sign}
    (h : sign ≠ .separator) :
    push ⟨closed, ofStretch stretch⟩ sign = ⟨closed, ofStretch (stretch ++ [sign])⟩ := by
  cases sign with
  | separator => exact absurd rfl h
  | opening => by_cases hnil : stretch = [] <;> simp [push, add, ofStretch, Sign.char?, hnil]
  | kept c => by_cases hnil : stretch = [] <;> simp [push, add, ofStretch, Sign.char?, hnil]

private theorem toList_foldl_push {stretch : List Sign}
    (hstretch : ∀ sign ∈ stretch, sign ≠ .separator) (closed : List Text) (signs : List Sign) :
    (signs.foldl push ⟨closed, ofStretch stretch⟩).toList =
      closed ++ Sign.fields (stretch ++ signs) := by
  -- The stretch is what has been read since the last separator: other signs join it, and a
  -- separator ends it.
  induction signs generalizing stretch closed with
  | nil =>
    have hsingle : stretch.splitOnP (· = .separator) = [stretch] :=
      List.splitOnP_eq_singleton (by simpa using hstretch)
    rw [List.foldl_nil, List.append_nil, Sign.fields, hsingle]
    by_cases hnil : stretch = [] <;> simp [toList, close, ofStretch, hnil]
  | cons sign signs ih =>
    rw [List.foldl_cons]
    by_cases hsign : sign = .separator
    · subst hsign
      have hsplit : (stretch ++ .separator :: signs).splitOnP (· = .separator) =
          stretch :: signs.splitOnP (· = .separator) :=
        List.splitOnP_append_cons_of_forall_mem (by simpa using hstretch) _ (by simp) signs
      have hrest := ih (List.forall_mem_nil _) (closed ++ (ofStretch stretch).toList)
      rw [Sign.fields, hsplit]
      by_cases hnil : stretch = [] <;> simpa [push, close, ofStretch, hnil, Sign.fields] using hrest
    · have hlonger : ∀ other ∈ stretch ++ [sign], other ≠ .separator :=
        List.forall_mem_append.2 ⟨hstretch, by simpa using hsign⟩
      rw [push_of_ne_separator closed stretch hsign, ih hlonger closed, List.append_assoc,
        List.singleton_append]

private theorem toList_foldl_push_empty (signs : List Sign) :
    (signs.foldl push empty).toList = Sign.fields signs :=
  toList_foldl_push (List.forall_mem_nil _) [] signs

end Fields

namespace Word

/-- Adding the parts of a word to fields is capturing the outputs of its commands and taking its
signs into account. -/
theorem foldlM_expand (capture : Capture) (word : Word) (fields : Fields) :
    word.foldlM (Part.expand capture) fields =
      (do return (signs word (← (captured word).mapM capture)).foldl Fields.push fields) := by
  induction word generalizing fields with
  | nil => rfl
  | cons part word ih =>
    cases part with
    | literal text => simp [Part.expand, ih, signs]
    | pattern text => simp [Part.expand, ih, signs]
    | command text quoted =>
      cases quoted with
      | true => simp [Part.expand, ih, signs]
      | false => simp [Part.expand, ih, signs]

theorem expand_eq (scope : Scope) (capture : Capture) {word : Word}
    (hword : ∀ text, word ≠ [.pattern text]) :
    Word.expand scope capture word =
      (do return Sign.fields (signs word (← (captured word).mapM capture))) := by
  have hexpand : Word.expand scope capture word =
      (do return (← word.foldlM (Part.expand capture) Fields.empty).toList) := by
    unfold Word.expand
    split
    · rename_i text
      exact absurd rfl (hword text)
    · rfl
  rw [hexpand, foldlM_expand]
  simp [Fields.toList_foldl_push_empty]

/-- Outside quotes it makes no difference which text was written and which was put in. -/
theorem foldl_push_signs {word : Word} (h : ∀ part ∈ word, part.isUnquoted = true)
    (outputs : List Text) (fields : Fields) :
    (signs word outputs).foldl Fields.push fields =
    (Sign.ofOutput (spliced word outputs)).foldl Fields.push fields := by
  induction word generalizing outputs fields with
  | nil => rfl
  | cons part word ih =>
    have hpart := h part List.mem_cons_self
    have hword := ih fun other hother => h other (List.mem_cons_of_mem part hother)
    cases part with
    | literal text => cases hpart
    | pattern text =>
      simp only [Part.isUnquoted, Bool.and_eq_true, decide_eq_true_eq] at hpart
      rw [signs, spliced, Sign.ofOutput_append, List.foldl_append, List.foldl_append, hword,
        Fields.foldl_push_ofQuoted, Fields.foldl_push_ofOutput_of_plain fields hpart.1 hpart.2]
    | command text quoted =>
      obtain rfl : quoted = false := by simpa [Part.isUnquoted] using hpart
      rw [signs, spliced, Sign.ofOutput_append, List.foldl_append, List.foldl_append, hword]

private theorem fields_signs {word : Word} (h : ∀ part ∈ word, part.isUnquoted = true)
    (outputs : List Text) : Sign.fields (signs word outputs) = (spliced word outputs).words := by
  rw [← Fields.toList_foldl_push_empty, foldl_push_signs h, Fields.foldl_push_ofOutput,
    Fields.toList_addOutput]

/-- Fields are the stretches between separators. If the commands of a word that is not a single
pattern succeed one after the other, the word becomes one field for each stretch of its signs that
is not empty; outside quotes these are the words of the text with each command replaced by its
output. If one of the commands fails, the word fails in the same way, and no later command is
run. -/
theorem expand_divides_at_separators (scope : Scope) (capture : Capture) (word : Word)
    (machine : Machine) (hword : ∀ text, word ≠ [.pattern text]) :
    (∀ outputs after, (captured word).mapM capture machine = .ok outputs after →
      Word.expand scope capture word machine = .ok (Sign.fields (signs word outputs)) after ∧
        ((∀ part ∈ word, part.isUnquoted = true) →
          Word.expand scope capture word machine = .ok (spliced word outputs).words after)) ∧
    ∀ done failing later outputs middle e after, captured word = done ++ failing :: later →
      done.mapM capture machine = .ok outputs middle → capture failing middle = .error e after →
      Word.expand scope capture word machine = .error e after := by
  rw [expand_eq scope capture hword]
  constructor
  · intro outputs after houtputs
    have hfields : (do return Sign.fields (signs word (← (captured word).mapM capture)) :
        ShellM (List Text)) machine = .ok (Sign.fields (signs word outputs)) after := by
      simp only [ShellM.bind_apply, ShellM.pure_apply, houtputs]
    exact ⟨hfields, fun hunquoted => by rw [hfields, fields_signs hunquoted]⟩
  · intro done failing later outputs middle e after hcaptured hdone hfailing
    simp only [hcaptured, List.mapM_append, List.mapM_cons, ShellM.bind_apply, hdone,
      hfailing]

/-- Blanks in output end a field or not, an empty text is a field, and what follows a failing
command is not run. -/
theorem expand_divides_at_separators_of_blanks :
    Word.expand ⟨"/w".toList, false⟩ (capture .builtin)
        [.pattern ['x'], .command "echo ' a b'".toList false, .command "echo 'c '".toList true,
          .command "echo ' '".toList false, .literal []] ⟨.empty, none, [], []⟩ =
      .ok [['x'], ['a'], "bc ".toList, []] ⟨.empty, none, [],
        [⟨"echo".toList, [" a b".toList], none⟩, ⟨"echo".toList, ["c ".toList], none⟩,
          ⟨"echo".toList, [[' ']], none⟩]⟩ ∧
    Word.expand ⟨"/w".toList, false⟩ (capture .builtin)
        [.command "echo a".toList false, .command "gone".toList true,
          .command "echo b".toList false] ⟨.empty, none, [], []⟩ =
      .error (.unknownApp "gone".toList) ⟨.empty, none, [], [⟨"echo".toList, [['a']], none⟩]⟩ := by
  have houtputs :
      ["echo ' a b'".toList, "echo 'c '".toList, "echo ' '".toList].mapM (capture .builtin)
          ⟨.empty, none, [], []⟩ =
        .ok [" a b".toList, "c ".toList, [' ']] ⟨.empty, none, [],
          [⟨"echo".toList, [" a b".toList], none⟩, ⟨"echo".toList, ["c ".toList], none⟩,
            ⟨"echo".toList, [[' ']], none⟩]⟩ := by
    cbv
  have hdone : ["echo a".toList].mapM (capture .builtin) ⟨.empty, none, [], []⟩ =
      .ok [['a']] ⟨.empty, none, [], [⟨"echo".toList, [['a']], none⟩]⟩ := by
    cbv
  have hfailing : capture .builtin "gone".toList
      ⟨.empty, none, [], [⟨"echo".toList, [['a']], none⟩]⟩ = .error (.unknownApp "gone".toList)
        ⟨.empty, none, [], [⟨"echo".toList, [['a']], none⟩]⟩ := by
    cbv
  have hblanks := expand_divides_at_separators ⟨"/w".toList, false⟩ (capture .builtin)
    [.pattern ['x'], .command "echo ' a b'".toList false, .command "echo 'c '".toList true,
      .command "echo ' '".toList false, .literal []] ⟨.empty, none, [], []⟩ (by simp)
  have hgone := expand_divides_at_separators ⟨"/w".toList, false⟩ (capture .builtin)
    [.command "echo a".toList false, .command "gone".toList true, .command "echo b".toList false]
    ⟨.empty, none, [], []⟩ (by simp)
  exact ⟨(hblanks.1 _ _ houtputs).1, hgone.2 _ _ _ _ _ _ _ rfl hdone hfailing⟩

end Word

end LineShell
