import LineShell.Proofs.Line.Tokens
import LineShell.Proofs.Traversal
/-!
# Reading commands

Main statement: a text is read as a command exactly if it is a written form of the command, the
command has words and its two files differ. A text has at most one reading, and every other text is
refused.
-/

namespace LineShell

open Text

namespace Redirections

private theorem isNameChar_of_isBlank {c : Char} (h : isBlank c = true) : isNameChar c = false := by
  simp [isNameChar, h]

theorem isBlank_of_isNameChar {c : Char} (h : isNameChar c = true) : isBlank c = false := by
  by_contra hblank
  rw [Bool.not_eq_false] at hblank
  rw [isNameChar_of_isBlank hblank] at h
  cases h

/-- What can follow a redirection: nothing that goes on with its name, and no redirection with the
same sign. -/
structure Stops (sign : Char) (rest : Text) : Prop where
  name : ∀ c ∈ rest.head?, isNameChar c = false
  next : ∀ c ∈ (trimStart rest).head?, c ≠ sign

private theorem stops_gap {sign : Char} {gap : Text} (h : gap.all isBlank = true) :
    Stops sign gap := by
  constructor
  · intro c hc
    have hmem : c ∈ gap := List.mem_of_mem_head? hc
    exact isNameChar_of_isBlank (List.all_eq_true.1 h c hmem)
  · intro c hc
    simp [trimStart_gap h] at hc

private theorem stops_output {output : Option Text} {written gap : Text}
    (h : FileWritten '>' output written) (hgap : gap.all isBlank = true) :
    Stops '<' (written ++ gap) := by
  cases h with
  | absent => exact stops_gap hgap
  | @present before after name hbefore _ _ _ =>
    constructor
    · intro c hc
      cases before with
      | nil =>
        obtain rfl : '>' = c := by simpa using hc
        decide
      | cons d before =>
        obtain rfl : d = c := by simpa using hc
        exact isNameChar_of_isBlank (List.all_eq_true.1 hbefore d List.mem_cons_self)
    · intro c hc
      have htrim : trimStart (before ++ '>' :: (after ++ name) ++ gap) =
          '>' :: (after ++ name ++ gap) := by
        rw [List.append_assoc, trimStart_gap_append _ hbefore, List.cons_append,
          trimStart_cons _ (by decide)]
      rw [htrim] at hc
      obtain rfl : '>' = c := by simpa using hc
      decide

variable {scope : Scope} {tree : FileTree}

private theorem read_complete {sign : Char} {file : Option Text} {written rest : Text}
    (hsign : isBlank sign = false) (h : FileWritten sign file written)
    (hplain : ∀ name, file = some name → Glob.hasWildcard name = false)
    (hrest : Stops sign rest) : read scope tree sign (written ++ rest) = .ok (file, rest) := by
  cases h with
  | absent =>
    rw [List.nil_append, read]
    split
    · rfl
    · rename_i c after htrim
      have hc : c ≠ sign := hrest.next c (by simp [htrim])
      rw [if_neg hc]
  | @present before after name hbefore hafter hne hname =>
    have htrim : trimStart (before ++ sign :: (after ++ name) ++ rest) =
        sign :: (after ++ (name ++ rest)) := by
      rw [List.append_assoc, trimStart_gap_append _ hbefore, List.cons_append,
        trimStart_cons _ hsign, List.append_assoc]
    have hafter' : trimStart (after ++ (name ++ rest)) = name ++ rest := by
      rw [trimStart_gap_append _ hafter]
      match name, hne, hname with
      | c :: name, _, hname =>
        exact trimStart_cons _
          (isBlank_of_isNameChar (List.all_eq_true.1 hname c List.mem_cons_self))
    have htake : (name ++ rest).takeWhile isNameChar = name := by
      rw [List.takeWhile_append_of_pos (List.all_eq_true.1 hname)]
      cases rest with
      | nil => simp
      | cons c rest =>
        rw [List.takeWhile_cons_of_neg (by simp [hrest.name c (by simp)]), List.append_nil]
    have hdrop : (name ++ rest).dropWhile isNameChar = rest := by
      rw [List.dropWhile_append_of_pos (List.all_eq_true.1 hname)]
      cases rest with
      | nil => rfl
      | cons c rest => rw [List.dropWhile_cons_of_neg (by simp [hrest.name c (by simp)])]
    simp only [read, htrim, if_true, hafter', htake, hdrop, if_neg hne, resolveName,
      hplain name rfl]
    rfl

theorem read_eq_ok {sign : Char} {file : Option Text} {text rest : Text}
    (h : read scope tree sign text = .ok (file, rest)) :
    (file = none ∧ rest = text) ∨
      ∃ before after name path, text = before ++ sign :: (after ++ (name ++ rest)) ∧
        before.all isBlank = true ∧ after.all isBlank = true ∧ name ≠ [] ∧
        name.all isNameChar = true ∧ resolveName scope tree name = .ok path ∧ file = some path := by
  rw [read] at h
  split at h
  · cases h
    exact .inl ⟨rfl, rfl⟩
  · rename_i c body htrim
    split at h
    case isFalse =>
      cases h
      exact .inl ⟨rfl, rfl⟩
    case isTrue hc =>
      subst hc
      obtain ⟨before, hbefore, htext, -⟩ := exists_gap text
      obtain ⟨after, hafter, hbody, -⟩ := exists_gap body
      rw [htrim] at htext
      dsimp only at h
      split at h
      · cases h
      · rename_i hne
        cases hpath : resolveName scope tree ((trimStart body).takeWhile isNameChar) with
        | error e =>
          rw [hpath] at h
          cases h
        | ok path =>
          rw [hpath] at h
          cases h
          refine .inr ⟨before, after, _, path, ?_, hbefore, hafter, hne, by simp, hpath, rfl⟩
          rw [List.takeWhile_append_dropWhile, ← hbody]
          exact htext

theorem exists_reads_of_ofText {text : Text} {redirections : Redirections}
    (h : ofText scope tree text = .ok redirections) :
    ∃ rest gap, read scope tree '<' text = .ok (redirections.input, rest) ∧
      read scope tree '>' rest = .ok (redirections.output, gap) ∧
      ¬(redirections.input.isSome ∧ redirections.input = redirections.output) := by
  obtain ⟨⟨input, rest⟩, hinput, h⟩ := bind_eq_ok_iff.1 h
  obtain ⟨⟨output, gap⟩, houtput, h⟩ := bind_eq_ok_iff.1 h
  dsimp only at h
  split at h
  · cases h
  split at h
  · cases h
  rename_i hsame
  cases h
  exact ⟨rest, gap, hinput, houtput, hsame⟩

private theorem resolveName_plain {name : Text} (h : '*' ∉ name) :
    resolveName scope tree name = .ok name := by
  simp [resolveName, Glob.hasWildcard, h]

private theorem read_sound {sign : Char} {file : Option Text} {text rest : Text}
    (hstar : '*' ∉ text) (h : read scope tree sign text = .ok (file, rest)) :
    ∃ written, text = written ++ rest ∧ FileWritten sign file written := by
  obtain ⟨rfl, rfl⟩ | ⟨before, after, name, path, rfl, hbefore, hafter, hne, hname, hpath, rfl⟩ :=
    read_eq_ok h
  · exact ⟨[], rfl, .absent⟩
  · have hplain : '*' ∉ name := fun hmem => hstar (by simp [hmem])
    rw [resolveName_plain hplain] at hpath
    cases hpath
    exact ⟨before ++ sign :: (after ++ name), by simp, .present hbefore hafter hne hname⟩

private theorem eq_malformed_of_read {sign : Char} {text : Text} {e : ShellError}
    (hstar : '*' ∉ text) (h : read scope tree sign text = .error e) : e = .malformed := by
  rw [read] at h
  split at h
  · cases h
  · rename_i c body htrim
    split at h
    case isFalse => cases h
    case isTrue =>
      dsimp only at h
      split at h
      · cases h
        rfl
      · have hplain : '*' ∉ (trimStart body).takeWhile isNameChar := by
          intro hmem
          have hbody : '*' ∈ trimStart text := by
            rw [htrim]
            exact List.mem_cons_of_mem _
              ((List.dropWhile_suffix _).subset ((List.takeWhile_prefix _).subset hmem))
          exact hstar ((List.dropWhile_suffix _).subset hbody)
        rw [resolveName_plain hplain] at h
        cases h

def Plain (redirections : Redirections) : Prop :=
  ∀ path, redirections.input = some path ∨ redirections.output = some path →
    Glob.hasWildcard path = false

theorem plain_of_written {redirections : Redirections} {text : Text} (h : Written redirections text)
    (hstar : '*' ∉ text) : Plain redirections := by
  cases h with
  | mk hinput houtput _ =>
    intro path hpath
    have hmem : '*' ∉ path := by
      intro hmem
      apply hstar
      rcases hpath with hpath | hpath
      · cases hpath
        cases hinput
        simp [hmem]
      · cases hpath
        cases houtput
        simp [hmem]
    simpa [Glob.hasWildcard] using hmem

private theorem isDone_of_written {redirections : Redirections} {text : Text}
    (h : Written redirections text) : Token.isDone text = true := by
  have present {sign : Char} {before rest : Text} (hsign : sign = '<' ∨ sign = '>')
      (hbefore : before.all isBlank = true) : Token.isDone (before ++ sign :: rest) = true := by
    have hblank : isBlank sign = false := by rcases hsign with rfl | rfl <;> decide
    rw [Token.isDone, trimStart_gap_append _ hbefore, trimStart_cons _ hblank]
    simpa using hsign
  cases h with
  | mk hinput houtput hgap =>
    cases hinput with
    | present hbefore =>
      rw [List.append_assoc, List.cons_append]
      exact present (.inl rfl) hbefore
    | absent =>
      rw [List.nil_append]
      cases houtput with
      | present hbefore =>
        rw [List.append_assoc, List.cons_append]
        exact present (.inr rfl) hbefore
      | absent =>
        simp [Token.isDone, trimStart_gap hgap]

private theorem reads_of_written (scope : Scope) (tree : FileTree) {redirections : Redirections}
    {text : Text} (h : Written redirections text) (hplain : Plain redirections) :
    ∃ rest gap, read scope tree '<' text = .ok (redirections.input, rest) ∧
      read scope tree '>' rest = .ok (redirections.output, gap) ∧ gap.all isBlank = true := by
  cases h with
  | @mk input output inputText outputText gap hinput houtput hgap =>
    refine ⟨outputText ++ gap, gap, ?_, ?_, hgap⟩
    · exact read_complete (by decide) hinput (fun name hname => hplain name (.inl hname))
        (stops_output houtput hgap)
    · exact read_complete (by decide) houtput (fun name hname => hplain name (.inr hname))
        (stops_gap hgap)

theorem ofText_complete {redirections : Redirections} {text : Text} (h : Written redirections text)
    (hplain : Plain redirections) :
    ofText scope tree text =
      if redirections.input.isSome ∧ redirections.input = redirections.output then .error .sameFile
      else .ok redirections := by
  obtain ⟨rest, gap, hinput, houtput, hgap⟩ := reads_of_written scope tree h hplain
  simp only [ofText, hinput, houtput, ok_bind, trimStart_gap hgap, ne_eq, not_true_eq_false,
    if_false, pure_eq_ok, throw_eq_error]
  split <;> rfl

theorem ofText_sound (scope : Scope) (tree : FileTree) {text : Text} (hstar : '*' ∉ text) :
    (∃ redirections, Written redirections text) ∨ ofText scope tree text = .error .malformed := by
  cases hfirst : read scope tree '<' text with
  | error e =>
    rw [eq_malformed_of_read hstar hfirst] at hfirst
    exact .inr (by simp [ofText, hfirst])
  | ok found =>
    obtain ⟨input, rest⟩ := found
    obtain ⟨inputText, rfl, hinput⟩ := read_sound hstar hfirst
    have hstar' : '*' ∉ rest := fun hmem => hstar (by simp [hmem])
    cases hsecond : read scope tree '>' rest with
    | error e =>
      rw [eq_malformed_of_read hstar' hsecond] at hsecond
      exact .inr (by simp [ofText, hfirst, hsecond])
    | ok found =>
      obtain ⟨output, gap⟩ := found
      obtain ⟨outputText, rfl, houtput⟩ := read_sound hstar' hsecond
      by_cases hnil : trimStart gap = []
      · exact .inl ⟨⟨input, output⟩, .mk hinput houtput (all_isBlank_of_trimStart hnil)⟩
      · right
        simp [ofText, hfirst, hsecond, hnil]

private theorem written_unique (scope : Scope) (tree : FileTree) {left right : Redirections}
    {text : Text} (hstar : '*' ∉ text) (hleft : Written left text) (hright : Written right text) :
    left = right := by
  obtain ⟨rest, gap, hinput, houtput, -⟩ :=
    reads_of_written scope tree hleft (plain_of_written hleft hstar)
  obtain ⟨rest', gap', hinput', houtput', -⟩ :=
    reads_of_written scope tree hright (plain_of_written hright hstar)
  rw [hinput, Except.ok.injEq, Prod.mk.injEq] at hinput'
  obtain ⟨hin, rfl⟩ := hinput'
  rw [houtput, Except.ok.injEq, Prod.mk.injEq] at houtput'
  cases left
  cases right
  simp_all

end Redirections

namespace Command

theorem hasTwoFiles_iff {command : Command} :
    command.HasTwoFiles ↔ ¬(command.input.isSome ∧ command.input = command.output) := by
  unfold HasTwoFiles
  cases hinput : command.input with
  | none => simp
  | some path => simp [eq_comm]

/-- A text stands for a command exactly if its tokens are those of the words and what follows them
are the redirections. -/
theorem written_iff {command : Command} {text : Text} :
    Written command text ↔ ∃ tokens rest, tokenize text = .ok (tokens, rest) ∧
      tokens.map Word.ofToken = command.words ∧
        Redirections.Written ⟨command.input, command.output⟩ rest := by
  constructor
  · intro h
    cases h with
    | @mk words input output written rest hwords hrest =>
      obtain ⟨tokens, htokens, hmap⟩ :=
        tokenize_complete hwords (Redirections.isDone_of_written hrest)
      exact ⟨tokens, rest, htokens, hmap, hrest⟩
  · rintro ⟨tokens, rest, htokens, hmap, hrest⟩
    obtain ⟨written, rfl, hwords⟩ := tokenize_sound true htokens (fun h => by cases h)
    rw [hmap] at hwords
    exact .mk hwords hrest

theorem ofText_complete (scope : Scope) (tree : FileTree) {command : Command} {text : Text}
    (h : Written command text.trim) (hplain : Redirections.Plain ⟨command.input, command.output⟩) :
    ofText scope tree text =
      if command.input.isSome ∧ command.input = command.output then .error .sameFile
      else if command.words = [] then .error .malformed
      else .ok command := by
  obtain ⟨tokens, rest, htokens, hmap, hrest⟩ := written_iff.1 h
  have hnil : command.words = [] ↔ tokens = [] := by rw [← hmap, List.map_eq_nil_iff]
  simp only [ofText, htokens, ok_bind, Redirections.ofText_complete hrest hplain, hnil]
  by_cases hsame : command.input.isSome ∧ command.input = command.output
  · rw [if_pos hsame, if_pos hsame, error_bind]
  · rw [if_neg hsame, if_neg hsame, ok_bind, hmap]
    split <;> rfl

private theorem ofText_of_not_written (scope : Scope) (tree : FileTree) {text : Text}
    (hstar : ∀ tokens rest, text.trim.tokenize = .ok (tokens, rest) → '*' ∉ rest)
    (h : ∀ command, ¬Written command text.trim) : ofText scope tree text = .error .malformed := by
  cases htokens : text.trim.tokenize with
  | error e =>
    rw [eq_malformed_of_tokenize htokens] at htokens
    simp [ofText, htokens]
  | ok found =>
    obtain ⟨tokens, rest⟩ := found
    obtain ⟨redirections, hrest⟩ | hrest :=
      Redirections.ofText_sound scope tree (hstar tokens rest htokens)
    · exact absurd (written_iff.2 ⟨tokens, rest, htokens, rfl, hrest⟩)
        (h ⟨tokens.map Word.ofToken, redirections.input, redirections.output⟩)
    · simp [ofText, htokens, hrest]

private theorem written_unique {left right : Command} {text : Text}
    (hstar : ∀ tokens rest, text.tokenize = .ok (tokens, rest) → '*' ∉ rest)
    (hleft : Written left text) (hright : Written right text) : left = right := by
  obtain ⟨tokens, rest, htokens, hmap, hrest⟩ := written_iff.1 hleft
  obtain ⟨tokens', rest', htokens', hmap', hrest'⟩ := written_iff.1 hright
  rw [htokens, Except.ok.injEq, Prod.mk.injEq] at htokens'
  obtain ⟨rfl, rfl⟩ := htokens'
  have hfiles :=
    Redirections.written_unique ⟨[], false⟩ .empty (hstar tokens rest htokens) hrest hrest'
  cases left
  cases right
  simp_all

theorem plain_of_written {command : Command} {text : Text}
    (hstar : ∀ tokens rest, text.tokenize = .ok (tokens, rest) → '*' ∉ rest)
    (h : Written command text) :
    Redirections.Plain ⟨command.input, command.output⟩ := by
  obtain ⟨tokens, rest, htokens, -, hrest⟩ := written_iff.1 h
  exact Redirections.plain_of_written hrest (hstar tokens rest htokens)

section NoWildcard

variable {scope : Scope} {tree : FileTree} {text : Text}

/-- A text is malformed or a written form, and a written form is refused or read. -/
theorem ofText_cases (hstar : ∀ tokens rest, text.trim.tokenize = .ok (tokens, rest) → '*' ∉ rest) :
    ofText scope tree text = .error .malformed ∨ ∃ command, Written command text.trim ∧
      (¬command.HasTwoFiles ∧ ofText scope tree text = .error .sameFile ∨
        command.HasTwoFiles ∧ command.words ≠ [] ∧ ofText scope tree text = .ok command) := by
  by_cases hreads : ∃ command, Written command text.trim
  · obtain ⟨command, hcommand⟩ := hreads
    rw [ofText_complete scope tree hcommand (plain_of_written hstar hcommand)]
    by_cases hfiles : command.HasTwoFiles
    · by_cases hwords : command.words = []
      · exact .inl (by rw [if_neg (hasTwoFiles_iff.1 hfiles), if_pos hwords])
      · exact .inr ⟨command, hcommand,
          .inr ⟨hfiles, hwords, by rw [if_neg (hasTwoFiles_iff.1 hfiles), if_neg hwords]⟩⟩
    · have hsame := hfiles
      rw [hasTwoFiles_iff, not_not] at hsame
      exact .inr ⟨command, hcommand, .inl ⟨hfiles, by rw [if_pos hsame]⟩⟩
  · exact .inl (ofText_of_not_written scope tree hstar (not_exists.1 hreads))

private theorem ofText_eq_ok_iff
    (hstar : ∀ tokens rest, text.trim.tokenize = .ok (tokens, rest) → '*' ∉ rest)
    {command : Command} :
    ofText scope tree text = .ok command ↔ Written command text.trim ∧ command.words ≠ [] ∧
      command.HasTwoFiles := by
  constructor
  · intro h
    obtain hresult | ⟨other, hother, ⟨-, hresult⟩ | ⟨hfiles, hwords, hresult⟩⟩ :=
      ofText_cases hstar
    · rw [hresult] at h
      cases h
    · rw [hresult] at h
      cases h
    · rw [hresult] at h
      cases h
      exact ⟨hother, hwords, hfiles⟩
  · rintro ⟨hcommand, hwords, hfiles⟩
    rw [ofText_complete scope tree hcommand (plain_of_written hstar hcommand),
      if_neg (hasTwoFiles_iff.1 hfiles), if_neg hwords]

private theorem ofText_eq_sameFile_iff
    (hstar : ∀ tokens rest, text.trim.tokenize = .ok (tokens, rest) → '*' ∉ rest) :
    ofText scope tree text = .error .sameFile ↔ ∃ command, Written command text.trim ∧
      ¬command.HasTwoFiles := by
  constructor
  · intro h
    rcases ofText_cases hstar with hresult | ⟨command, hcommand, ⟨hfiles, -⟩ | ⟨-, -, hresult⟩⟩
    · rw [hresult] at h
      cases h
    · exact ⟨command, hcommand, hfiles⟩
    · rw [hresult] at h
      cases h
  · rintro ⟨command, hcommand, hfiles⟩
    rw [hasTwoFiles_iff, not_not] at hfiles
    rw [ofText_complete scope tree hcommand (plain_of_written hstar hcommand), if_pos hfiles]

end NoWildcard

/-- If no wildcard stands after its words, a text is a command exactly if, without the blanks at its
ends, it is a written form of a command that has words and not one file twice. The written form has
one reading. A text that names one file twice is refused as such, and every other text is
malformed. -/
theorem ofText_accepts_grammar (scope : Scope) (tree : FileTree) (text : Text)
    (hstar : ∀ tokens rest, text.trim.tokenize = .ok (tokens, rest) → '*' ∉ rest) :
    (∀ command, ofText scope tree text = .ok command ↔
      Written command text.trim ∧ command.words ≠ [] ∧ command.HasTwoFiles) ∧
    (∀ command other, Written command text.trim → Written other text.trim → command = other) ∧
    (ofText scope tree text = .error .sameFile ↔
      ∃ command, Written command text.trim ∧ ¬command.HasTwoFiles) ∧
    ∀ e, ofText scope tree text = .error e → e = .sameFile ∨ e = .malformed := by
  refine ⟨fun command => ofText_eq_ok_iff hstar, fun command other => written_unique hstar,
    ofText_eq_sameFile_iff hstar, ?_⟩
  intro e h
  rcases ofText_cases hstar with hresult | ⟨command, -, ⟨-, hresult⟩ | ⟨-, -, hresult⟩⟩
  · rw [hresult] at h
    cases h
    exact .inr rfl
  · rw [hresult] at h
    cases h
    exact .inl rfl
  · rw [hresult] at h
    cases h

/-- Signs in quotes are text, and those after the last word need no blanks around them. -/
theorem ofText_accepts_grammar_of_signs :
    ofText ⟨"/w".toList, false⟩ .empty " cat 'a > b'  \"c`d '`\"<in> out".toList = .ok
      ⟨[[.pattern "cat".toList], [.literal "a > b".toList],
        [.literal "c".toList, .command "d '".toList true]], some "in".toList, some "out".toList⟩ ∧
    Written ⟨[[.pattern "cat".toList], [.literal "a > b".toList],
      [.literal "c".toList, .command "d '".toList true]], some "in".toList, some "out".toList⟩
      (Text.trim " cat 'a > b'  \"c`d '`\"<in> out".toList) := by
  have htokens : (Text.trim " cat 'a > b'  \"c`d '`\"<in> out".toList).tokenize = .ok
      ([⟨.word, "cat".toList, "cat".toList⟩, ⟨.singleQuoted, "'a > b'".toList, "a > b".toList⟩,
        ⟨.interpolated, "\"c`d '`\"".toList, "c`d '`".toList⟩], "<in> out".toList) := by
    cbv
  have hread : ofText ⟨"/w".toList, false⟩ .empty " cat 'a > b'  \"c`d '`\"<in> out".toList = .ok
      ⟨[[.pattern "cat".toList], [.literal "a > b".toList],
        [.literal "c".toList, .command "d '".toList true]], some "in".toList,
          some "out".toList⟩ := by
    cbv
  have hstar : ∀ tokens rest, (Text.trim " cat 'a > b'  \"c`d '`\"<in> out".toList).tokenize =
      .ok (tokens, rest) → '*' ∉ rest := by
    intro tokens rest h
    rw [htokens] at h
    cases h
    decide
  exact ⟨hread, (((ofText_accepts_grammar ⟨"/w".toList, false⟩ .empty _ hstar).1 _).1 hread).1⟩

end Command

end LineShell
