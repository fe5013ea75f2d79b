import LineShell.Application.Sort
import LineShell.Proofs.Text.Binary64
import LineShell.Proofs.Text.Utf8
import LineShell.Proofs.Traversal
import Mathlib
/-!
# The order of lines

Lines are ordered by their bytes, or first by the numbers that they start with. The number of a line
is said by a relation: how it is written, and how it is rounded. Main statement: both orders are
linear, so that there is one way to put lines in order.
-/

namespace LineShell

namespace Decimal

def sign (negative : Bool) : Text :=
  if negative then ['-'] else []

/-- How decimal numbers are written: a minus sign or none, digits, and after a point more digits or
none; there is at least one digit. -/
inductive Written : Text → Decimal → Prop
  | mk {negative : Bool} {whole point fraction : Text} : whole ++ fraction ≠ [] →
      (∀ c ∈ whole ++ fraction, c.isDigit = true) → point = ['.'] ∨ point = [] ∧ fraction = [] →
      Written (sign negative ++ whole ++ point ++ fraction)
        ⟨negative, Nat.ofDigitChars 10 (whole ++ fraction) 0, fraction.length⟩

end Decimal

namespace Binary64

end Binary64

namespace Application

open Binary64

section Linear

variable {numeric : Bool} {left right : Text}

private theorem numberPrecedes_iff :
    numberPrecedes left right = true ↔ numberRank left < numberRank right ∨
      numberRank left = numberRank right ∧ left.precedes right = true := by
  simp [numberPrecedes]

private theorem lineOrder_trans {third : Text} (h : lineOrder numeric left right = true)
    (h' : lineOrder numeric right third = true) : lineOrder numeric left third = true := by
  cases numeric with
  | false => exact Text.precedes_trans h h'
  | true =>
    change numberPrecedes left third = true
    rw [numberPrecedes_iff]
    rcases numberPrecedes_iff.1 h with hless | ⟨hequal, hbytes⟩
    · left
      rcases numberPrecedes_iff.1 h' with hless' | ⟨hequal', -⟩ <;> omega
    · rcases numberPrecedes_iff.1 h' with hless' | ⟨hequal', hbytes'⟩
      · exact .inl (by omega)
      · exact .inr ⟨by omega, Text.precedes_trans hbytes hbytes'⟩

private theorem lineOrder_total (numeric : Bool) (left right : Text) :
    (lineOrder numeric left right || lineOrder numeric right left) = true := by
  cases numeric with
  | false => exact Text.precedes_total left right
  | true =>
    have hbytes := Text.precedes_total left right
    rw [Bool.or_eq_true] at hbytes ⊢
    change numberPrecedes left right = true ∨ numberPrecedes right left = true
    rw [numberPrecedes_iff, numberPrecedes_iff]
    rcases lt_trichotomy (numberRank left) (numberRank right) with hless | hequal | hmore
    · exact .inl (.inl hless)
    · exact hbytes.imp (fun h => .inr ⟨hequal, h⟩) (fun h => .inr ⟨hequal.symm, h⟩)
    · exact .inr (.inl hmore)

private theorem lineOrder_antisymm (h : lineOrder numeric left right = true)
    (h' : lineOrder numeric right left = true) :
    left = right := by
  cases numeric with
  | false => exact Text.precedes_antisymm h h'
  | true =>
    rcases numberPrecedes_iff.1 h with hless | ⟨hequal, hbytes⟩
    · rcases numberPrecedes_iff.1 h' with hless' | ⟨hequal', -⟩ <;> omega
    · rcases numberPrecedes_iff.1 h' with hless' | ⟨-, hbytes'⟩
      · omega
      · exact Text.precedes_antisymm hbytes hbytes'

end Linear

theorem pairwise_mergeSort_lineOrder (numeric : Bool) (lines : List Text) :
    (lines.mergeSort (lineOrder numeric)).Pairwise fun left right =>
      lineOrder numeric left right = true := by
  apply List.pairwise_mergeSort
  · intro first second third
    exact lineOrder_trans
  · exact lineOrder_total numeric

/-- There is one way to put lines in order. -/
theorem mergeSort_lineOrder_eq {numeric : Bool} {lines sorted : List Text}
    (hperm : lines.Perm sorted)
    (hsorted : sorted.Pairwise fun left right => lineOrder numeric left right = true) :
    lines.mergeSort (lineOrder numeric) = sorted := by
  refine List.Perm.eq_of_pairwise ?_ (pairwise_mergeSort_lineOrder numeric lines) hsorted ?_
  · intro left right _ _ hbefore hafter
    exact lineOrder_antisymm hbefore hafter
  · exact (List.mergeSort_perm _ _).trans hperm

theorem mergeSort_lineOrder_of_perm (numeric : Bool) {lines others : List Text}
    (h : lines.Perm others) :
    lines.mergeSort (lineOrder numeric) = others.mergeSort (lineOrder numeric) :=
  mergeSort_lineOrder_eq (h.trans (List.mergeSort_perm _ _).symm)
    (pairwise_mergeSort_lineOrder numeric others)

end Application

end LineShell
