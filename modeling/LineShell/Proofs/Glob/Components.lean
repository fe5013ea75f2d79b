import LineShell.Proofs.Glob.Matching
import LineShell.Proofs.Traversal
import Mathlib
/-!
# Patterns match name by name

A pattern without two wildcards side by side is matched component by component: main statement, what
it covers are the paths whose names fit, one by one, the components between its slashes.
-/

namespace LineShell

namespace Glob

def WildcardsApart (pattern : Text) : Prop :=
  pattern.IsChain fun left right => ¬(left = '*' ∧ right = '*')

/-- A name is obtained from a component of a pattern: each wildcard is replaced by a text without a
slash, and every other character stands for itself. Unless hidden names are included, a wildcard at
the `start` is not replaced by a text that starts with a dot. -/
inductive Fits (hidden : Bool) : (start : Bool) → (component name : Text) → Prop
  | nil {start : Bool} : Fits hidden start [] []
  | char {start : Bool} {c : Char} {component name : Text} :
      c ≠ '*' → Fits hidden false component name → Fits hidden start (c :: component) (c :: name)
  | star {start : Bool} {component name filling : Text} :
      '/' ∉ filling → (start = true → hidden = false → filling.head? ≠ some '.') →
      Fits hidden false component name → Fits hidden start ('*' :: component) (filling ++ name)

theorem Fits.slash_notMem {hidden start : Bool} {component name : Text}
    (h : Fits hidden start component name) (hcomponent : '/' ∉ component) : '/' ∉ name := by
  induction h with
  | nil => exact List.not_mem_nil
  | @char _ c _ _ _ _ ih =>
    rw [List.mem_cons, not_or] at hcomponent ⊢
    exact ⟨hcomponent.1, ih hcomponent.2⟩
  | star hfilling _ _ ih =>
    rw [List.mem_append, not_or]
    exact ⟨hfilling, ih fun hmem => hcomponent (List.mem_cons_of_mem _ hmem)⟩

/-- The piece that a character of a pattern stands for if no two wildcards stand side by side. -/
def Piece.ofChar (c : Char) : Piece :=
  if c = '*' then .star else .char c

variable {hidden : Bool}

theorem compileFrom_of_wildcardsApart {pattern : Text} (h : WildcardsApart pattern) (fresh : Bool) :
    compileFrom fresh pattern = some (pattern.map .ofChar) := by
  unfold WildcardsApart at h
  fun_induction compileFrom fresh pattern with
  | case1 => rfl
  | case2 | case3 | case4 | case5 | case6 | case7 => simp at h
  | case8 fresh rest _ _ _ _ ih => simp [ih h.tail, Piece.ofChar]
  | case9 fresh c rest _ _ _ _ hc ih =>
    have hstar : c ≠ '*' := hc
    simp [ih h.tail, Piece.ofChar, hstar]

private theorem takesAll_false {taken : Text} (h : '/' ∉ taken) :
    takesAll hidden false taken = true := by
  induction taken with
  | nil => rfl
  | cons c taken ih =>
    have hc : c ≠ '/' := fun heq => h (by simp [heq])
    have htaken := ih fun hmem => h (List.mem_cons_of_mem c hmem)
    simp [takesAll, takes, hc, htaken]

private theorem takesAll_iff {fresh : Bool} {taken : Text} (h : '/' ∉ taken) :
    takesAll hidden fresh taken = true ↔
      (fresh = true → hidden = false → taken.head? ≠ some '.') := by
  cases taken with
  | nil => simp [takesAll]
  | cons c taken =>
    have hc : c ≠ '/' := fun heq => h (by simp [heq])
    have htaken : takesAll hidden false taken = true :=
      takesAll_false fun hmem => h (List.mem_cons_of_mem c hmem)
    cases hidden <;> cases fresh <;> simp [takesAll, takes, hc, htaken]

/-- Where no wildcard comes next, it does not matter whether a name starts. -/
theorem Covers.congr_fresh {pattern text : Text} {fresh : Bool} (hhead : pattern.head? ≠ some '*')
    (h : Covers hidden (pattern.map .ofChar) fresh text) (other : Bool) :
    Covers hidden (pattern.map .ofChar) other text := by
  cases pattern with
  | nil =>
    cases h
    exact .nil
  | cons c pattern =>
    have hc : Piece.ofChar c = .char c := by
      have hne : c ≠ '*' := by simpa using hhead
      simp [Piece.ofChar, hne]
    rw [List.map_cons, hc] at h ⊢
    cases h with
    | char hrest => exact .char hrest

private theorem covers_char_iff {c : Char} {pieces : List Piece} {fresh : Bool} {text : Text} :
    Covers hidden (.char c :: pieces) fresh text ↔
      ∃ rest, text = c :: rest ∧ Covers hidden pieces (c = '/') rest := by
  constructor
  · intro h
    cases h with
    | @char _ _ _ rest h => exact ⟨rest, rfl, h⟩
  · intro ⟨rest, htext, h⟩
    rw [htext]
    exact .char h

private theorem covers_star_iff {pieces : List Piece} {fresh : Bool} {text : Text} :
    Covers hidden (.star :: pieces) fresh text ↔
      ∃ taken rest, text = taken ++ rest ∧ '/' ∉ taken ∧ takesAll hidden fresh taken = true ∧
        Covers hidden pieces (freshAfter fresh taken) rest := by
  constructor
  · intro h
    cases h with
    | @star _ _ taken rest hslash htakes h => exact ⟨taken, rest, rfl, hslash, htakes, h⟩
  · intro ⟨taken, rest, htext, hslash, htakes, h⟩
    rw [htext]
    exact .star hslash htakes h

/-- A text is a path with one name for each component, and each name fits its component. -/
def FitsAll (hidden start : Bool) (component : Text) (components : List Text) (text : Text) :
    Prop :=
  ∃ name names, text = List.intercalate ['/'] (name :: names) ∧ Fits hidden start component name ∧
    List.Forall₂ (Fits hidden true) components names

section FitsAll

variable {start : Bool} {component text : Text} {components : List Text}

private theorem fitsAll_nil_iff : FitsAll hidden start [] [] text ↔ text = [] := by
  constructor
  · intro ⟨name, names, htext, hfits, hothers⟩
    cases hfits
    cases hothers
    exact htext
  · intro htext
    exact ⟨[], [], htext, .nil, .nil⟩

private theorem fitsAll_slash_iff :
    FitsAll hidden start [] (component :: components) text ↔
      ∃ rest, text = '/' :: rest ∧ FitsAll hidden true component components rest := by
  constructor
  · intro ⟨name, names, htext, hfits, hothers⟩
    cases hfits
    cases hothers with
    | @cons _ name _ names hname hnames =>
      exact ⟨_, by simpa using htext, name, names, rfl, hname, hnames⟩
  · intro ⟨rest, htext, name, names, hrest, hname, hnames⟩
    exact ⟨[], name :: names, by simp [htext, hrest], .nil, .cons hname hnames⟩

private theorem fitsAll_char_iff {c : Char} (hc : c ≠ '*') :
    FitsAll hidden start (c :: component) components text ↔
      ∃ rest, text = c :: rest ∧ FitsAll hidden false component components rest := by
  constructor
  · intro ⟨name, names, htext, hfits, hothers⟩
    cases hfits with
    | star => exact absurd rfl hc
    | @char _ _ _ name _ hname =>
      exact ⟨_, htext.trans (intercalate_append_cons [c] name names), name, names, rfl, hname,
        hothers⟩
  · intro ⟨rest, htext, name, names, hrest, hname, hothers⟩
    refine ⟨c :: name, names, ?_, .char hc hname, hothers⟩
    rw [htext, hrest]
    exact (intercalate_append_cons [c] name names).symm

private theorem fitsAll_star_iff :
    FitsAll hidden start ('*' :: component) components text ↔
      ∃ filling rest, text = filling ++ rest ∧ '/' ∉ filling ∧
        (start = true → hidden = false → filling.head? ≠ some '.') ∧
        FitsAll hidden false component components rest := by
  constructor
  · intro ⟨name, names, htext, hfits, hothers⟩
    cases hfits with
    | char hc _ => exact absurd rfl hc
    | @star _ _ name filling hslash hdot hname =>
      exact ⟨filling, _, htext.trans (intercalate_append_cons filling name names), hslash, hdot,
        name, names, rfl, hname, hothers⟩
  · intro ⟨filling, rest, htext, hslash, hdot, name, names, hrest, hname, hothers⟩
    refine ⟨filling ++ name, names, ?_, .star hslash hdot hname, hothers⟩
    rw [htext, hrest, intercalate_append_cons]

end FitsAll

private theorem covers_iff_fitsAll {pattern text : Text} {fresh : Bool} (h : WildcardsApart pattern)
    {component : Text} {components : List Text}
    (hsplit : pattern.splitOn '/' = component :: components) :
    Covers hidden (pattern.map .ofChar) fresh text ↔
      FitsAll hidden fresh component components text := by
  induction pattern generalizing text fresh component components with
  | nil =>
    obtain ⟨rfl, rfl⟩ : [] = component ∧ [] = components := by simpa using hsplit
    rw [fitsAll_nil_iff]
    constructor
    · intro hcovers
      cases hcovers
      rfl
    · intro htext
      rw [htext]
      exact .nil
  | cons c pattern ih =>
    obtain ⟨first, others, hpattern⟩ := List.exists_cons_of_ne_nil (List.splitOn_ne_nil '/' pattern)
    have hrest (fresh : Bool) (text : Text) :
        Covers hidden (pattern.map .ofChar) fresh text ↔ FitsAll hidden fresh first others text :=
      ih h.tail hpattern
    rw [List.splitOn_cons_eq_if_modifyHead, hpattern] at hsplit
    rw [List.map_cons]
    by_cases hslash : c = '/'
    · subst hslash
      obtain ⟨rfl, rfl⟩ : [] = component ∧ first :: others = components := by simpa using hsplit
      rw [fitsAll_slash_iff]
      exact covers_char_iff.trans (exists_congr fun rest => and_congr_right fun _ =>
        hrest true rest)
    · obtain ⟨rfl, rfl⟩ :
          c :: first = component ∧ others = components := by simpa [hslash] using hsplit
      by_cases hstar : c = '*'
      · -- No wildcard follows, so that the rest of the pattern does not ask whether a name starts.
        subst hstar
        have hhead : pattern.head? ≠ some '*' :=
          fun hmem => (List.isChain_cons.1 h).1 '*' hmem ⟨rfl, rfl⟩
        have hfresh (fresh : Bool) (text : Text) :
            Covers hidden (pattern.map .ofChar) fresh text ↔
              FitsAll hidden false first others text :=
          ⟨fun hcovers => (hrest false text).1 (hcovers.congr_fresh hhead false),
            fun hfits => ((hrest false text).2 hfits).congr_fresh hhead fresh⟩
        rw [fitsAll_star_iff]
        refine covers_star_iff.trans (exists₂_congr fun filling rest => and_congr_right fun _ => ?_)
        exact and_congr_right fun hfilling => and_congr (takesAll_iff hfilling) (hfresh _ rest)
      · have hpiece : Piece.ofChar c = .char c := by simp [Piece.ofChar, hstar]
        rw [hpiece, fitsAll_char_iff hstar, covers_char_iff, decide_eq_false hslash]
        exact exists_congr fun rest => and_congr_right fun _ => hrest false rest

/-- A path matches a pattern without two wildcards side by side if its names fit the components of
the pattern, one by one. -/
theorem isMatch_iff_forall₂ {pattern : Text} (h : WildcardsApart pattern) {names : List Text}
    (hne : names ≠ []) (hnames : ∀ name ∈ names, '/' ∉ name) :
    isMatch hidden (pattern.map .ofChar) (List.intercalate ['/'] names) = true ↔
      List.Forall₂ (Fits hidden true) (pattern.splitOn '/') names := by
  have hcompile : compile pattern = some (pattern.map .ofChar) :=
    compileFrom_of_wildcardsApart h true
  obtain ⟨component, components, hsplit⟩ :=
    List.exists_cons_of_ne_nil (List.splitOn_ne_nil '/' pattern)
  rw [isMatch_iff hcompile, covers_iff_fitsAll h hsplit, hsplit]
  constructor
  · intro ⟨name, others, htext, hname, hothers⟩
    have hfits : List.Forall₂ (Fits hidden true) (component :: components) (name :: others) :=
      .cons hname hothers
    have hslash : ∀ other ∈ name :: others, '/' ∉ other := by
      intro other hother
      obtain ⟨source, hsource, hsourced⟩ := exists_of_mem_right hfits hother
      rw [← hsplit] at hsource
      exact hsourced.slash_notMem (notMem_of_mem_splitOn hsource)
    have heq : names = name :: others := by
      rw [← List.splitOn_intercalate '/' hnames hne, htext,
        List.splitOn_intercalate '/' hslash (List.cons_ne_nil _ _)]
    rwa [heq]
  · intro hfits
    cases hfits with
    | @cons _ name _ others hname hothers => exact ⟨name, others, rfl, hname, hothers⟩

end Glob

end LineShell
