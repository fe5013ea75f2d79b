import LineShell.Text.Utf8
import Mathlib
/-!
# Encoding and decoding

The decoder reads the bytes of a character one after the other and is between characters when it has
read the last of them. Main statement: the encoding of a text is well-formed and is decoded to the
text. Texts are compared by their bytes; since the encoding tells texts apart, this is a linear
order of texts and not only of their encodings.
-/

namespace LineShell

namespace Text

@[simp] theorem utf8_append (front back : Text) : utf8 (front ++ back) = front.utf8 ++ back.utf8 :=
  List.flatMap_append

variable {left right : Text}

theorem utf8_injective (h : left.utf8 = right.utf8) : left = right := by
  have hbytes : left.utf8Encode = right.utf8Encode := congrArg List.toByteArray h
  rw [← String.toByteArray_ofList, ← String.toByteArray_ofList, String.toByteArray_inj,
    String.ofList_inj] at hbytes
  exact hbytes

theorem precedes_trans {third : Text} (h : left.precedes right = true)
    (h' : right.precedes third = true) :
    left.precedes third = true := by
  simp only [precedes, decide_eq_true_eq] at h h' ⊢
  exact List.le_trans h h'

theorem precedes_total (left right : Text) :
    (left.precedes right || right.precedes left) = true := by
  simpa [precedes] using List.le_total left.utf8 right.utf8

theorem precedes_antisymm (h : left.precedes right = true) (h' : right.precedes left = true) :
    left = right := by
  simp only [precedes, decide_eq_true_eq] at h h'
  exact utf8_injective (List.le_antisymm h h')

theorem utf8_lt_of_precedes (h : left.precedes right = true) (hne : left ≠ right) :
    left.utf8 < right.utf8 := by
  refine Decidable.byContradiction fun hlt => hne (precedes_antisymm h ?_)
  simpa [precedes] using List.not_lt.1 hlt

end Text

namespace Utf8

section Bytes

variable {byte bits low high more : Nat}

private theorem unitsFrom_start {units : List (Option Char)} {pending : Pending}
    (hbyte : byte < 256) (h : start byte = (units, pending)) (bytes : Bytes) :
    unitsFrom .idle (UInt8.ofNat byte :: bytes) = units ++ unitsFrom pending bytes := by
  rw [unitsFrom, UInt8.toNat_ofNat_of_lt' hbyte, step, h]

private theorem unitsFrom_inside (hbyte : byte < 256) (hlow : low ≤ byte) (hhigh : byte ≤ high)
    (bytes : Bytes) :
    unitsFrom (.inside bits low high (more + 1)) (UInt8.ofNat byte :: bytes) =
      unitsFrom (.inside (bits * 64 + (byte - 0x80)) 0x80 0xBF more) bytes := by
  rw [unitsFrom, UInt8.toNat_ofNat_of_lt' hbyte, step, if_pos ⟨hlow, hhigh⟩]
  rfl

private theorem unitsFrom_end (hbyte : byte < 256) (hlow : low ≤ byte) (hhigh : byte ≤ high)
    (bytes : Bytes) :
    unitsFrom (.inside bits low high 0) (UInt8.ofNat byte :: bytes) =
      some (Char.ofNat (bits * 64 + (byte - 0x80))) :: unitsFrom .idle bytes := by
  rw [unitsFrom, UInt8.toNat_ofNat_of_lt' hbyte, step, if_pos ⟨hlow, hhigh⟩]
  rfl

end Bytes

/-! The first byte of a character says how many follow, holds the highest bits, and bounds the
second byte. -/

section First

variable {n : Nat}

theorem start_one (h : n ≤ 0x7F) : start n = ([some (Char.ofNat n)], .idle) := by
  rw [start, if_pos (by omega)]

theorem start_two (hlow : 0x7F < n) (hhigh : n ≤ 0x7FF) :
    start (n / 64 % 32 + 0xC0) = ([], .inside (n / 64) 0x80 0xBF 0) := by
  have hbits : n / 64 % 32 + 0xC0 - 0xC0 = n / 64 := by omega
  rw [start, if_neg (by omega), if_neg (by omega), if_pos (by omega), hbits]

theorem start_three (hlow : 0x7FF < n) (hhigh : n ≤ 0xFFFF) (hvalid : n < 0xD800 ∨ 0xDFFF < n) :
    ∃ low high, start (n / 4096 % 16 + 0xE0) = ([], .inside (n / 4096) low high 1) ∧
      low ≤ n / 64 % 64 + 0x80 ∧ n / 64 % 64 + 0x80 ≤ high := by
  have hbits : n / 4096 % 16 + 0xE0 - 0xE0 = n / 4096 := by omega
  rw [start, if_neg (by omega), if_neg (by omega), if_neg (by omega)]
  by_cases hfirst : n / 4096 = 0
  · rw [if_pos (by omega), hfirst]
    exact ⟨0xA0, 0xBF, rfl, by omega, by omega⟩
  · rw [if_neg (by omega)]
    by_cases hsurrogate : n / 4096 = 0xD
    · rw [if_pos (by omega), hsurrogate]
      exact ⟨0x80, 0x9F, rfl, by omega, by omega⟩
    · rw [if_neg (by omega), if_pos (by omega), hbits]
      exact ⟨0x80, 0xBF, rfl, by omega, by omega⟩

theorem start_four (hlow : 0xFFFF < n) (hhigh : n < 0x110000) :
    ∃ low high, start (n / 262144 % 8 + 0xF0) = ([], .inside (n / 262144) low high 2) ∧
      low ≤ n / 4096 % 64 + 0x80 ∧ n / 4096 % 64 + 0x80 ≤ high := by
  have hbits : n / 262144 % 8 + 0xF0 - 0xF0 = n / 262144 := by omega
  rw [start, if_neg (by omega), if_neg (by omega), if_neg (by omega), if_neg (by omega),
    if_neg (by omega), if_neg (by omega)]
  by_cases hfirst : n / 262144 = 0
  · rw [if_pos (by omega), hfirst]
    exact ⟨0x90, 0xBF, rfl, by omega, by omega⟩
  · rw [if_neg (by omega)]
    by_cases hlast : n / 262144 = 4
    · rw [if_neg (by omega), if_pos (by omega), hlast]
      exact ⟨0x80, 0x8F, rfl, by omega, by omega⟩
    · rw [if_pos (by omega), hbits]
      exact ⟨0x80, 0xBF, rfl, by omega, by omega⟩

end First

theorem toNat_valid (c : Char) : c.toNat < 0xD800 ∨ 0xDFFF < c.toNat ∧ c.toNat < 0x110000 :=
  c.valid

@[simp] theorem unitsFrom_utf8EncodeChar (c : Char) (bytes : Bytes) :
    unitsFrom .idle (String.utf8EncodeChar c ++ bytes) = some c :: unitsFrom .idle bytes := by
  have hvalid := toNat_valid c
  have hchar {n : Nat} (h : n = c.toNat) : Char.ofNat n = c := by rw [h, Char.ofNat_toNat]
  have hval : c.val.toNat = c.toNat := rfl
  simp only [String.utf8EncodeChar, hval]
  split_ifs with hone htwo hthree
  · rw [List.singleton_append, unitsFrom_start (by omega) (start_one hone), hchar rfl]
    rfl
  · rw [List.cons_append, unitsFrom_start (by omega) (start_two (by omega) htwo), List.nil_append,
      List.singleton_append, unitsFrom_end (by omega) (by omega) (by omega), hchar (by omega)]
  · obtain ⟨low, high, hstart, hlow, hhigh⟩ :=
      start_three (n := c.toNat) (by omega) hthree (by omega)
    rw [List.cons_append, unitsFrom_start (by omega) hstart, List.nil_append, List.cons_append,
      unitsFrom_inside (by omega) hlow hhigh, List.singleton_append,
        unitsFrom_end (by omega) (by omega) (by omega),
      hchar (by omega)]
  · obtain ⟨low, high, hstart, hlow, hhigh⟩ := start_four (n := c.toNat) (by omega) (by omega)
    rw [List.cons_append, unitsFrom_start (by omega) hstart, List.nil_append, List.cons_append,
      unitsFrom_inside (by omega) hlow hhigh, List.cons_append,
        unitsFrom_inside (by omega) (by omega) (by omega),
      List.singleton_append, unitsFrom_end (by omega) (by omega) (by omega),
      hchar (by omega)]

@[simp] theorem units_utf8 (text : Text) : units text.utf8 = text.map some := by
  induction text with
  | nil => rfl
  | cons c text ih =>
    rw [Text.utf8, List.flatMap_cons, units, unitsFrom_utf8EncodeChar, List.map_cons, ← ih]
    rfl

@[simp] theorem decode?_utf8 (text : Text) : decode? text.utf8 = some text := by
  rw [decode?, units_utf8]
  induction text with
  | nil => rfl
  | cons c text ih => simp [ih]

end Utf8

end LineShell
