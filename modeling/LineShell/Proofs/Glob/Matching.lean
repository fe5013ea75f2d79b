import LineShell.Glob.Pattern
import Mathlib
/-!
# What a pattern matches

The matcher tries short choices for a wildcard first, and it gives up when the text ends too early.
The texts that a pattern covers are said without any order of choices. Main statement: the matcher
accepts exactly these texts, so that giving up early loses nothing.
-/

namespace LineShell

namespace Glob

/-- Whether a name starts after a text, if `fresh` says whether one starts before it. -/
def freshAfter (fresh : Bool) (taken : Text) : Bool :=
  taken.foldl (fun _ c => c = '/') fresh

def takesAll (hidden : Bool) : (fresh : Bool) → Text → Bool
  | _, [] => true
  | fresh, c :: rest => takes hidden fresh c && takesAll hidden (c = '/') rest

/-- The texts that pieces of a pattern cover. A star takes characters of one name; a deep wildcard
takes nothing, all that is left, or whole names with their slashes. -/
inductive Covers (hidden : Bool) : List Piece → (fresh : Bool) → Text → Prop
  | nil {fresh : Bool} : Covers hidden [] fresh []
  | char {fresh : Bool} {c : Char} {pieces : List Piece} {rest : Text} :
      Covers hidden pieces (c = '/') rest → Covers hidden (.char c :: pieces) fresh (c :: rest)
  | star {fresh : Bool} {pieces : List Piece} {taken rest : Text} :
      '/' ∉ taken → takesAll hidden fresh taken = true →
      Covers hidden pieces (freshAfter fresh taken) rest →
      Covers hidden (.star :: pieces) fresh (taken ++ rest)
  | deep {fresh : Bool} {pieces : List Piece} {taken rest : Text} :
      taken = [] ∨ rest = [] ∨ freshAfter fresh taken = true → takesAll hidden fresh taken = true →
      Covers hidden pieces (freshAfter fresh taken) rest →
      Covers hidden (.deep :: pieces) fresh (taken ++ rest)

/-- Deep wildcards stand only where a name starts: after a slash or after each other. -/
def Placed (pieces : List Piece) : Prop :=
  pieces.IsChain fun left right => right = .deep → left = .char '/' ∨ left = .deep

/-- If the pieces start with a deep wildcard, then a name starts here or the text ends. -/
def StartsAt (pieces : List Piece) (fresh : Bool) (text : Text) : Prop :=
  pieces.head? = some .deep → fresh = true ∨ text = []

variable {hidden : Bool}

private theorem Verdict.orElse_eq_matched {first second : Verdict}
    (h : first.orElse second = .matched) :
    first = .matched ∨ second = .matched := by
  cases first with
  | matched => exact .inl rfl
  | mismatched => exact .inr h
  | exhausted => cases h

section Choices

variable {later : Bool → Text → Verdict}

private theorem exists_taken_of_matchStar {fresh : Bool} {text : Text}
    (h : matchStar hidden later fresh text = .matched) :
    ∃ taken rest, text = taken ++ rest ∧ '/' ∉ taken ∧ takesAll hidden fresh taken = true ∧
      later (freshAfter fresh taken) rest = .matched := by
  induction text generalizing fresh with
  | nil => exact ⟨[], [], rfl, by simp, rfl, h⟩
  | cons c text ih =>
    rw [matchStar] at h
    rcases Verdict.orElse_eq_matched h with hhere | hlater
    · exact ⟨[], c :: text, rfl, by simp, rfl, hhere⟩
    · split at hlater
      · rename_i hc
        have htakes : takes hidden fresh c = true ∧ c ≠ '/' := by simpa using hc
        obtain ⟨taken, rest, rfl, hslash, htaken, hrest⟩ := ih hlater
        refine ⟨c :: taken, rest, rfl, ?_, ?_, ?_⟩
        · simp [hslash, htakes.2.symm]
        · simp [takesAll, htakes, htaken]
        · simpa [freshAfter, htakes.2] using hrest
      · cases hlater

private theorem exists_taken_of_matchNames {fresh : Bool} {text : Text}
    (h : matchNames hidden later fresh text = .matched) :
    ∃ taken rest, text = taken ++ rest ∧ (rest = [] ∨ freshAfter fresh taken = true) ∧
      takesAll hidden fresh taken = true ∧ later (freshAfter fresh taken) rest = .matched := by
  induction text generalizing fresh with
  | nil => exact ⟨[], [], rfl, .inl rfl, rfl, h⟩
  | cons c text ih =>
    rw [matchNames] at h
    split at h
    · rename_i htakes
      split at h
      · rename_i hc
        subst hc
        rcases Verdict.orElse_eq_matched h with hhere | hlater
        · exact ⟨['/'], text, rfl, .inr rfl, by simp [takesAll, htakes], hhere⟩
        · obtain ⟨taken, rest, rfl, hend, htaken, hrest⟩ := ih hlater
          exact ⟨'/' :: taken, rest, rfl, hend, by simp [takesAll, htakes, htaken], hrest⟩
      · rename_i hc
        obtain ⟨taken, rest, rfl, hend, htaken, hrest⟩ := ih h
        have hfresh : freshAfter fresh (c :: taken) = freshAfter false taken := by
          simp [freshAfter, hc]
        refine ⟨c :: taken, rest, rfl, ?_, by simp [takesAll, htakes, hc, htaken], ?_⟩
        · rwa [hfresh]
        · rwa [hfresh]
    · cases h

variable {fresh : Bool} {rest : Text}

/-- A star does not give up on a text if what follows it matches some end of the text, and it finds
that end if it may take what stands before it. -/
theorem matchStar_of_later
    (hlater : ∀ start skipped, freshAfter start skipped = fresh →
      later start (skipped ++ rest) ≠ .exhausted)
    (hrest : later fresh rest = .matched) {start : Bool} {skipped : Text}
    (hfresh : freshAfter start skipped = fresh) :
    matchStar hidden later start (skipped ++ rest) ≠ .exhausted ∧
      ('/' ∉ skipped → takesAll hidden start skipped = true →
        matchStar hidden later start (skipped ++ rest) = .matched) := by
  induction skipped generalizing start with
  | nil =>
    obtain rfl : start = fresh := hfresh
    have hhere : matchStar hidden later start rest = .matched := by
      cases rest with
      | nil => exact hrest
      | cons c rest => rw [matchStar, hrest, Verdict.orElse]; simp
    simp [hhere]
  | cons c skipped ih =>
    have hhere : later start (c :: (skipped ++ rest)) ≠ .exhausted :=
      hlater start (c :: skipped) hfresh
    rw [List.cons_append, matchStar]
    cases hverdict : later start (c :: (skipped ++ rest)) with
    | exhausted => exact absurd hverdict hhere
    | matched => simp [Verdict.orElse]
    | mismatched =>
      rw [Verdict.orElse]
      by_cases hc : takes hidden start c = true ∧ c ≠ '/'
      · have hfresh' : freshAfter false skipped = fresh := by
          simpa [freshAfter, hc.2] using hfresh
        obtain ⟨hne, hmatched⟩ := ih hfresh'
        rw [if_pos (by simpa using hc)]
        refine ⟨hne, fun hslash htaken =>
          hmatched (fun hmem => hslash (List.mem_cons_of_mem c hmem)) ?_⟩
        simpa [takesAll, hc] using htaken
      · rw [if_neg (by simpa using hc)]
        refine ⟨by simp, fun hslash htaken => absurd ⟨?_, ?_⟩ hc⟩
        · rw [takesAll, Bool.and_eq_true] at htaken
          exact htaken.1
        · rintro rfl
          exact hslash List.mem_cons_self

/-- The same for whole names: what follows has to match at the start of a name or at the end of the
text. -/
theorem matchNames_of_later
    (hlater : ∀ skipped, freshAfter true skipped = fresh →
      later true (skipped ++ rest) ≠ .exhausted)
    (hrest : later fresh rest = .matched) {start : Bool} {skipped : Text}
    (hfresh : freshAfter start skipped = fresh)
    (hplace : rest = [] ∨ skipped ≠ [] ∧ fresh = true) :
    matchNames hidden later start (skipped ++ rest) ≠ .exhausted ∧
      (takesAll hidden start skipped = true →
        matchNames hidden later start (skipped ++ rest) = .matched) := by
  induction skipped generalizing start with
  | nil =>
    obtain rfl : start = fresh := hfresh
    have hend : rest = [] := by simpa using hplace
    subst hend
    simp [matchNames, hrest]
  | cons c skipped ih =>
    rw [List.cons_append, matchNames]
    by_cases htakes : takes hidden start c = true
    · rw [if_pos htakes]
      by_cases hc : c = '/'
      · subst hc
        have hhere := hlater skipped hfresh
        rw [if_pos rfl]
        cases hverdict : later true (skipped ++ rest) with
        | exhausted => exact absurd hverdict hhere
        | matched => simp [Verdict.orElse]
        | mismatched =>
          -- What follows does not match right after the slash, so the end that it matches comes
          -- later.
          have hne : skipped ≠ [] := by
            rintro rfl
            obtain rfl : true = fresh := hfresh
            rw [List.nil_append, hrest] at hverdict
            cases hverdict
          have hfresh' : freshAfter true skipped = fresh := hfresh
          obtain ⟨hexhausted, hmatched⟩ := ih hfresh' (hplace.imp_right fun h => ⟨hne, h.2⟩)
          refine ⟨hexhausted, fun htaken => hmatched ?_⟩
          simpa [takesAll, htakes] using htaken
      · have hfresh' : freshAfter false skipped = fresh := by simpa [freshAfter, hc] using hfresh
        have hne (htrue : fresh = true) : skipped ≠ [] := by
          rintro rfl
          rw [htrue] at hfresh'
          cases hfresh'
        obtain ⟨hexhausted, hmatched⟩ := ih hfresh' (hplace.imp_right fun h => ⟨hne h.2, h.2⟩)
        rw [if_neg hc]
        refine ⟨hexhausted, fun htaken => hmatched ?_⟩
        simpa [takesAll, htakes, hc] using htaken
    · rw [if_neg htakes]
      refine ⟨by simp, fun htaken => absurd ?_ htakes⟩
      rw [takesAll, Bool.and_eq_true] at htaken
      exact htaken.1

end Choices

private theorem covers_of_matchFrom {pieces : List Piece} {fresh : Bool} {text : Text}
    (h : matchFrom hidden pieces fresh text = .matched) : Covers hidden pieces fresh text := by
  induction pieces generalizing fresh text with
  | nil =>
    cases text with
    | nil => exact .nil
    | cons c text => cases h
  | cons piece pieces ih =>
    cases piece with
    | char p =>
      cases text with
      | nil => cases h
      | cons c text =>
        rw [matchFrom] at h
        split at h
        · rename_i hc
          subst hc
          exact .char (ih h)
        · cases h
    | star =>
      rw [matchFrom] at h
      obtain ⟨taken, rest, rfl, hslash, htaken, hrest⟩ := exists_taken_of_matchStar h
      exact .star hslash htaken (ih hrest)
    | deep =>
      rw [matchFrom] at h
      rcases Verdict.orElse_eq_matched h with hhere | hnames
      · exact .deep (.inl rfl) rfl (ih hhere)
      · obtain ⟨taken, rest, rfl, hend, htaken, hrest⟩ := exists_taken_of_matchNames hnames
        exact .deep (.inr hend) htaken (ih hrest)

@[simp] theorem freshAfter_append (fresh : Bool) (first second : Text) :
    freshAfter fresh (first ++ second) = freshAfter (freshAfter fresh first) second :=
  List.foldl_append

private theorem matchFrom_of_covers {pieces : List Piece} {fresh : Bool} {text : Text}
    (hplaced : Placed pieces) (h : Covers hidden pieces fresh text)
    (htext : StartsAt pieces fresh text) (start : Bool) (skipped : Text)
    (hfresh : freshAfter start skipped = fresh) (hstart : StartsAt pieces start (skipped ++ text)) :
    matchFrom hidden pieces start (skipped ++ text) ≠ .exhausted ∧
      (skipped = [] → matchFrom hidden pieces start (skipped ++ text) = .matched) := by
  induction h generalizing start skipped with
  | nil =>
    cases skipped with
    | nil => simp [matchFrom]
    | cons c skipped => simp [matchFrom]
  | @char fresh p pieces rest h ih =>
    obtain ⟨hnext, hrest⟩ := List.isChain_cons.1 hplaced
    have hpieces (text : Text) : StartsAt pieces (p = '/') text := by
      intro hdeep
      have hslash : p = '/' := by simpa using hnext .deep hdeep
      simp [hslash]
    cases skipped with
    | nil =>
      have hhere := ih hrest (hpieces rest) (p = '/') [] rfl (hpieces rest)
      simpa [matchFrom] using hhere
    | cons c skipped =>
      rw [List.cons_append, matchFrom]
      split
      · rename_i hc
        subst hc
        have hhere := ih hrest (hpieces rest) (c = '/') (skipped ++ [c]) (by simp [freshAfter])
          (hpieces _)
        simpa using hhere.1
      · simp
  | @star fresh pieces taken rest hslash htaken h ih =>
    obtain ⟨hnext, hrest⟩ := List.isChain_cons.1 hplaced
    have hpieces (start : Bool) (text : Text) : StartsAt pieces start text := by
      intro hdeep
      simpa using hnext .deep hdeep
    have hlater (start : Bool) (skipped : Text) (hfresh : freshAfter start skipped =
        freshAfter fresh taken) :=
      ih hrest (hpieces _ rest) start skipped hfresh (hpieces _ _)
    have hhere := (hlater _ [] rfl).2 rfl
    have hafter : freshAfter start (skipped ++ taken) = freshAfter fresh taken := by
      rw [freshAfter_append, hfresh]
    obtain ⟨hexhausted, hmatched⟩ :=
      matchStar_of_later (fun start skipped hfresh => (hlater start skipped hfresh).1) hhere hafter
    rw [matchFrom, ← List.append_assoc]
    refine ⟨hexhausted, ?_⟩
    rintro rfl
    obtain rfl : start = fresh := hfresh
    exact hmatched hslash htaken
  | @deep fresh pieces taken rest hend htaken h ih =>
    have hrest : Placed pieces := (List.isChain_cons.1 hplaced).2
    have hplace : rest = [] ∨ freshAfter fresh taken = true := by
      rcases hend with rfl | hend
      · exact (htext rfl).symm
      · exact hend
    have hpieces : StartsAt pieces (freshAfter fresh taken) rest := fun _ => hplace.symm
    have hlater (skipped : Text) (hfresh : freshAfter true skipped = freshAfter fresh taken) :=
      ih hrest hpieces true skipped hfresh fun _ => .inl rfl
    have hmatch := (ih hrest hpieces _ [] rfl hpieces).2 rfl
    have hafter : freshAfter start (skipped ++ taken) = freshAfter fresh taken := by
      rw [freshAfter_append, hfresh]
    rw [← List.append_assoc] at hstart ⊢
    have hhere := ih hrest hpieces start (skipped ++ taken) hafter fun _ => hstart rfl
    rw [matchFrom]
    cases hverdict : matchFrom hidden pieces start (skipped ++ taken ++ rest) with
    | exhausted => exact absurd hverdict hhere.1
    | matched => simp [Verdict.orElse]
    | mismatched =>
      have hne : skipped ++ taken ≠ [] := by
        intro hnil
        rw [hhere.2 hnil] at hverdict
        cases hverdict
      obtain ⟨hexhausted, hmatched⟩ :=
        matchNames_of_later (fun skipped hfresh => (hlater skipped hfresh).1) hmatch hafter
          (hplace.imp_right fun h => ⟨hne, h⟩)
      refine ⟨hexhausted, ?_⟩
      rintro rfl
      obtain rfl : start = fresh := hfresh
      exact hmatched htaken

/-- The matcher accepts exactly the covered texts, although it gives up when a text ends too
early. -/
theorem matchFrom_eq_matched_iff {pieces : List Piece} {fresh : Bool} {text : Text}
    (hplaced : Placed pieces) (hstart : StartsAt pieces fresh text) :
    matchFrom hidden pieces fresh text = .matched ↔ Covers hidden pieces fresh text :=
  ⟨covers_of_matchFrom, fun h => (matchFrom_of_covers hplaced h hstart fresh [] rfl hstart).2 rfl⟩

private theorem placed_of_compileFrom {fresh : Bool} {pattern : Text} {pieces : List Piece}
    (h : compileFrom fresh pattern = some pieces) :
    Placed pieces ∧ (pieces.head? = some .deep → fresh = true) := by
  fun_induction compileFrom fresh pattern generalizing pieces with
  | case1 =>
    cases h
    exact ⟨.nil, by simp⟩
  | case2 | case4 | case6 | case7 => cases h
  | case3 =>
    cases h
    exact ⟨.singleton _, fun _ => rfl⟩
  | case5 rest ih =>
    obtain ⟨later, hlater, rfl⟩ := Option.map_eq_some_iff.1 h
    exact ⟨List.isChain_cons.2 ⟨fun _ _ _ => .inr rfl, (ih hlater).1⟩, fun _ => rfl⟩
  | case8 fresh rest _ _ _ _ ih =>
    obtain ⟨later, hlater, rfl⟩ := Option.map_eq_some_iff.1 h
    obtain ⟨hplaced, hdeep⟩ := ih hlater
    refine ⟨List.isChain_cons.2 ⟨fun next hnext heq => ?_, hplaced⟩, by simp⟩
    subst heq
    cases hdeep hnext
  | case9 fresh c rest _ _ _ _ _ ih =>
    obtain ⟨later, hlater, rfl⟩ := Option.map_eq_some_iff.1 h
    obtain ⟨hplaced, hdeep⟩ := ih hlater
    refine ⟨List.isChain_cons.2 ⟨fun next hnext heq => ?_, hplaced⟩, by simp⟩
    subst heq
    have hslash : c = '/' := by simpa using hdeep hnext
    exact .inl (by rw [hslash])

theorem isMatch_iff {pattern : Text} {pieces : List Piece} (h : compile pattern = some pieces)
    (text : Text) : isMatch hidden pieces text = true ↔ Covers hidden pieces true text := by
  obtain ⟨hplaced, -⟩ := placed_of_compileFrom h
  rw [isMatch, decide_eq_true_eq, matchFrom_eq_matched_iff hplaced fun _ => .inl rfl]

end Glob

end LineShell
