import LineShell.Text.Count
import Mathlib
/-!
# Written counts

Which texts write a count is said by the value of their digits, without reading from left to right.
Main statement: reading a count succeeds on exactly those texts, and with that count.
-/

namespace LineShell

namespace Text

/-- The digits of a count that fits into 64 bits. -/
structure HasDigits (digits : Text) (count : Nat) : Prop where
  ne_nil : digits ≠ []
  isDigit : ∀ c ∈ digits, c.isDigit = true
  value_eq : Nat.ofDigitChars 10 digits 0 = count
  lt : count < 2 ^ 64

/-- A count is written in digits, with at most one plus sign in front. -/
inductive WritesCount : Text → Nat → Prop
  | plain {digits : Text} {count : Nat} : HasDigits digits count → WritesCount digits count
  | signed {digits : Text} {count : Nat} :
    HasDigits digits count → WritesCount ('+' :: digits) count

variable {text digits : Text} {count : Nat}

theorem writesCount_toDigits (h : count < 2 ^ 64) : WritesCount (Nat.toDigits 10 count) count :=
  .plain ⟨Nat.toDigits_ne_nil, fun _ hc => Nat.isDigit_of_mem_toDigits (by decide) (by decide) hc,
    Nat.ofDigitChars_ten_toDigits, h⟩

theorem le_maxCount_iff : count ≤ maxCount ↔ count < 2 ^ 64 := by
  rw [maxCount, Nat.pow_eq]
  omega

private theorem le_ofDigitChars (digits : Text) (value : Nat) :
    value ≤ Nat.ofDigitChars 10 digits value := by
  rw [Nat.ofDigitChars_eq_ofDigitChars_zero]
  have hpos : 0 < 10 ^ digits.length := Nat.pow_pos (by decide)
  exact (Nat.le_mul_of_pos_left value hpos).trans (Nat.le_add_right _ _)

-- The value never gets smaller on the way, so it is enough that the last one fits.
private theorem countDigits_eq_ok_iff {value : Nat} (h : value ≤ maxCount) :
    countDigits value digits = .ok count ↔
      (∀ c ∈ digits, c.isDigit = true) ∧ Nat.ofDigitChars 10 digits value = count ∧
      count ≤ maxCount := by
  induction digits generalizing value with
  | nil =>
    simp only [countDigits, Except.ok.injEq, List.not_mem_nil, false_implies, implies_true,
      true_and, Nat.ofDigitChars_nil]
    exact ⟨fun heq => ⟨heq, heq ▸ h⟩, And.left⟩
  | cons c rest ih =>
    rw [countDigits, Nat.ofDigitChars_cons, List.forall_mem_cons, Nat.mul_comm 10 value]
    by_cases hdigit : c.isDigit = true
    · rw [if_pos hdigit]
      by_cases hfits : value * 10 + (c.toNat - '0'.toNat) ≤ maxCount
      · simp only [if_pos hfits, ih hfits, hdigit, true_and]
      · simp only [if_neg hfits, reduceCtorEq, false_iff]
        rintro ⟨-, heq, hle⟩
        exact hfits ((le_ofDigitChars rest _).trans (heq.trans_le hle))
    · simp [hdigit]

private theorem countDigits_zero_eq_ok_iff (hne : digits ≠ []) :
    countDigits 0 digits = .ok count ↔ HasDigits digits count := by
  rw [countDigits_eq_ok_iff (Nat.zero_le _), le_maxCount_iff]
  exact ⟨fun ⟨hdigits, heq, hlt⟩ => ⟨hne, hdigits, heq, hlt⟩, fun h =>
    ⟨h.isDigit, h.value_eq, h.lt⟩⟩

private theorem writesCount_cons_plus :
    WritesCount ('+' :: digits) count ↔ HasDigits digits count := by
  constructor
  · intro h
    cases h with
    | plain h => exact absurd (h.isDigit '+' List.mem_cons_self) (by decide)
    | signed h => exact h
  · exact .signed

private theorem writesCount_of_head?_ne (h : text.head? ≠ some '+') :
    WritesCount text count ↔ HasDigits text count := by
  constructor
  · intro hcount
    cases hcount with
    | plain hcount => exact hcount
    | signed hcount => exact absurd rfl h
  · exact .plain

theorem parseCount_eq_ok_iff : text.parseCount = .ok count ↔ WritesCount text count := by
  fun_cases parseCount text with
  | case1 =>
    rw [writesCount_of_head?_ne (by simp)]
    exact iff_of_false (by simp) fun h => h.ne_nil rfl
  | case2 =>
    rw [writesCount_cons_plus]
    exact iff_of_false (by simp) fun h => h.ne_nil rfl
  | case3 digits hne =>
    rw [writesCount_cons_plus]
    exact countDigits_zero_eq_ok_iff hne
  | case4 digits hne hplus hsign =>
    rw [writesCount_of_head?_ne ?_]
    · exact countDigits_zero_eq_ok_iff hne
    · intro hhead
      obtain ⟨rest, rfl⟩ := List.head?_eq_some_iff.1 hhead
      exact hsign rest rfl

end Text

end LineShell
