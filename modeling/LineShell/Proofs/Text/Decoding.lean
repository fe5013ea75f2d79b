import LineShell.Proofs.Text.Utf8
import Mathlib
/-!
# Units of a byte sequence

The decoder divides any bytes into characters and ill-formed runs. Which runs these are is said here
without the decoder: where no character is encoded, the run is the longest start of what is left
with which the code of some character begins, or a single byte if there is none. Main statements:
the decoder reports exactly these units; bytes are decoded strictly exactly if they are the encoding
of a text.
-/

namespace LineShell

namespace Utf8

/-- The code of some character begins with these bytes. -/
def Begins (bytes : Bytes) : Prop :=
  ∃ c, bytes <+: String.utf8EncodeChar c

/-- A maximal ill-formed run, and what follows it. -/
structure IllFormed (run rest : Bytes) : Prop where
  ne_nil : run ≠ []
  not_char : ∀ c, ¬String.utf8EncodeChar c <+: run ++ rest
  begins : run.length = 1 ∨ Begins run
  maximal : ∀ longer, longer <+: run ++ rest → Begins longer → longer.length ≤ run.length

/-- The units of a byte sequence: its characters, and nothing for each maximal ill-formed run. -/
inductive HasUnits : Bytes → List (Option Char) → Prop
  | nil : HasUnits [] []
  | char {c : Char} {rest : Bytes} {units : List (Option Char)} :
      HasUnits rest units → HasUnits (String.utf8EncodeChar c ++ rest) (some c :: units)
  | illFormed {run rest : Bytes} {units : List (Option Char)} :
      IllFormed run rest → HasUnits rest units → HasUnits (run ++ rest) (none :: units)

private theorem Begins.mono {bytes longer : Bytes} (h : Begins longer)
    (hstarts : bytes <+: longer) : Begins bytes := by
  obtain ⟨c, hc⟩ := h
  exact ⟨c, hstarts.trans hc⟩

private theorem utf8EncodeChar_ne_nil (c : Char) : String.utf8EncodeChar c ≠ [] := by
  unfold String.utf8EncodeChar
  dsimp only
  split_ifs <;> simp

-- No code is the start of another one, since the decoder reads the character as soon as its code
-- ends.
private theorem eq_of_utf8EncodeChar_append {c d : Char} {rest rest' : Bytes}
    (h : String.utf8EncodeChar c ++ rest = String.utf8EncodeChar d ++ rest') :
    c = d ∧ rest = rest' := by
  have hunits := congrArg (unitsFrom .idle) h
  rw [unitsFrom_utf8EncodeChar, unitsFrom_utf8EncodeChar] at hunits
  have hchar : c = d := Option.some.inj (List.cons.inj hunits).1
  rw [hchar] at h
  exact ⟨hchar, List.append_cancel_left h⟩

theorem IllFormed.unique {run run' rest rest' : Bytes} (h : IllFormed run rest)
    (h' : IllFormed run' rest') (heq : run ++ rest = run' ++ rest') :
    run = run' ∧ rest = rest' := by
  have hle {run run' rest rest' : Bytes} (h : IllFormed run rest) (h' : IllFormed run' rest')
      (heq : run ++ rest = run' ++ rest') : run'.length ≤ run.length := by
    have hpos := List.length_pos_iff.2 h.ne_nil
    rcases h'.begins with hone | hbegins
    · omega
    · apply h.maximal run' _ hbegins
      rw [heq]
      exact List.prefix_append run' rest'
  exact List.append_inj heq (le_antisymm (hle h' h heq.symm) (hle h h' heq))

theorem HasUnits.unique {bytes : Bytes} {units units' : List (Option Char)}
    (h : HasUnits bytes units) (h' : HasUnits bytes units') : units = units' := by
  induction h generalizing units' with
  | nil =>
    generalize hbytes : ([] : Bytes) = bytes at h'
    cases h' with
    | nil => rfl
    | @char c rest units' h' =>
      have hnil := (List.append_eq_nil_iff.1 hbytes.symm).1
      exact absurd hnil (utf8EncodeChar_ne_nil c)
    | illFormed hrun _ => exact absurd (List.append_eq_nil_iff.1 hbytes.symm).1 hrun.ne_nil
  | @char c rest units _ ih =>
    generalize hbytes : String.utf8EncodeChar c ++ rest = bytes at h'
    cases h' with
    | nil => exact absurd (List.append_eq_nil_iff.1 hbytes).1 (utf8EncodeChar_ne_nil c)
    | char h' =>
      obtain ⟨rfl, rfl⟩ := eq_of_utf8EncodeChar_append hbytes
      rw [ih h']
    | illFormed hrun _ =>
      refine absurd ?_ (hrun.not_char c)
      rw [← hbytes]
      exact List.prefix_append _ rest
  | @illFormed run rest units hrun _ ih =>
    generalize hbytes : run ++ rest = bytes at h'
    cases h' with
    | nil => exact absurd (List.append_eq_nil_iff.1 hbytes).1 hrun.ne_nil
    | @char c rest' _ _ =>
      refine absurd ?_ (hrun.not_char c)
      rw [hbytes]
      exact List.prefix_append _ rest'
    | illFormed hrun' h' =>
      obtain ⟨rfl, rfl⟩ := hrun.unique hrun' hbytes
      rw [ih h']

/-- The bytes that complete a character after its first ones, and the number of the character. The
highest bits have been read, the next byte has a range, and `more` bytes come after it. -/
def Completes : (bits low high more : Nat) → Bytes → (number : Nat) → Prop
  | _, _, _, _, [], _ => False
  | bits, low, high, 0, byte :: bytes, number =>
    low ≤ byte.toNat ∧ byte.toNat ≤ high ∧ number = bits * 64 + (byte.toNat - 0x80) ∧ bytes = []
  | bits, low, high, more + 1, byte :: bytes, number =>
    low ≤ byte.toNat ∧ byte.toNat ≤ high ∧
      Completes (bits * 64 + (byte.toNat - 0x80)) 0x80 0xBF more bytes number

section First

variable {byte : UInt8} {tail : Bytes} {bits low high more number : Nat}

private theorem start_of_utf8EncodeChar {c : Char} (h : String.utf8EncodeChar c = byte :: tail) :
    start byte.toNat = ([some c], .idle) ∧ tail = [] ∨
      ∃ bits low high more, start byte.toNat = ([], .inside bits low high more) ∧
        Completes bits low high more tail c.toNat := by
  have hvalid := toNat_valid c
  have hval : c.val.toNat = c.toNat := rfl
  have hsize : UInt8.size = 256 := rfl
  have htail (n : Nat) : (UInt8.ofNat (n % 64 + 0x80)).toNat = n % 64 + 0x80 :=
    UInt8.toNat_ofNat_of_lt' (by omega)
  simp only [String.utf8EncodeChar, hval] at h
  split_ifs at h with hone htwo hthree
  · cases h
    rw [UInt8.toNat_ofNat_of_lt' (by omega), start_one hone, Char.ofNat_toNat]
    exact .inl ⟨rfl, rfl⟩
  · cases h
    rw [UInt8.toNat_ofNat_of_lt' (by omega), start_two (by omega) htwo]
    refine .inr ⟨_, _, _, _, rfl, ?_⟩
    simp only [Completes, htail, and_true]
    omega
  · cases h
    obtain ⟨low, high, hstart, hlow, hhigh⟩ :=
      start_three (n := c.toNat) (by omega) hthree (by omega)
    rw [UInt8.toNat_ofNat_of_lt' (by omega), hstart]
    refine .inr ⟨_, _, _, _, rfl, ?_⟩
    simp only [Completes, htail, and_true]
    omega
  · cases h
    obtain ⟨low, high, hstart, hlow, hhigh⟩ := start_four (n := c.toNat) (by omega) (by omega)
    rw [UInt8.toNat_ofNat_of_lt' (by omega), hstart]
    refine .inr ⟨_, _, _, _, rfl, ?_⟩
    simp only [Completes, htail, and_true]
    omega

/-- The first byte of a character of two, three or four bytes. The range of the second byte keeps
out numbers that a shorter code has, numbers that are reserved and numbers that are too large. -/
theorem start_eq_inside {n : Nat} (h : start n = ([], .inside bits low high more)) :
    0x80 ≤ low ∧ low ≤ high ∧ high ≤ 0xBF ∧
      (more = 0 ∧ 0xC2 ≤ n ∧ n < 0xE0 ∧ bits = n - 0xC0 ∨
        more = 1 ∧ 0xE0 ≤ n ∧ n < 0xF0 ∧ bits = n - 0xE0 ∧ (bits = 0 → 0xA0 ≤ low) ∧
        (bits = 0xD → high ≤ 0x9F) ∨ more = 2 ∧ 0xF0 ≤ n ∧ n ≤ 0xF4 ∧ bits = n - 0xF0 ∧
          (bits = 0 → 0x90 ≤ low) ∧ (bits = 4 → high ≤ 0x8F)) := by
  unfold start at h
  grind

private theorem utf8EncodeChar_ofNat (h : number.isValidChar) :
    (Char.ofNat number).toNat = number ∧
    String.utf8EncodeChar (Char.ofNat number) =
      if number ≤ 0x7F then [UInt8.ofNat number]
      else if number ≤ 0x7FF then
        [UInt8.ofNat (number / 64 % 32 + 0xC0), UInt8.ofNat (number % 64 + 0x80)]
      else if number ≤ 0xFFFF then
        [UInt8.ofNat (number / 4096 % 16 + 0xE0), UInt8.ofNat (number / 64 % 64 + 0x80),
          UInt8.ofNat (number % 64 + 0x80)]
      else
        [UInt8.ofNat (number / 262144 % 8 + 0xF0), UInt8.ofNat (number / 4096 % 64 + 0x80),
          UInt8.ofNat (number / 64 % 64 + 0x80), UInt8.ofNat (number % 64 + 0x80)] := by
  have hnumber : (Char.ofNat number).toNat = number := by rw [Char.toNat_ofNat, if_pos h]
  have hval : (Char.ofNat number).val.toNat = number := hnumber
  refine ⟨hnumber, ?_⟩
  simp only [String.utf8EncodeChar, hval]

private theorem exists_char_of_completes (h : start byte.toNat = ([], .inside bits low high more))
    (htail : Completes bits low high more tail number) :
    ∃ c : Char, c.toNat = number ∧ String.utf8EncodeChar c = byte :: tail := by
  have hbyte {n : Nat} {byte : UInt8} (h : n = byte.toNat) :
      UInt8.ofNat n = byte := by rw [h, UInt8.ofNat_toNat]
  obtain ⟨hlow, -, hhigh, htwo | hthree | hfour⟩ := start_eq_inside h
  · obtain ⟨rfl, hbits⟩ := htwo
    obtain _ | ⟨b, tail⟩ := tail
    · exact htail.elim
    obtain ⟨hb, hb', hnumber, rfl⟩ := htail
    obtain ⟨hchar, hcode⟩ := @utf8EncodeChar_ofNat number (by unfold Nat.isValidChar; omega)
    refine ⟨_, hchar, ?_⟩
    rw [hcode, if_neg (by omega), if_pos (by omega)]
    simp only [List.cons.injEq, and_true]
    exact ⟨hbyte (by omega), hbyte (by omega)⟩
  · obtain ⟨rfl, hbits⟩ := hthree
    obtain _ | ⟨b, _ | ⟨c, tail⟩⟩ := tail
    · exact htail.elim
    · exact htail.2.2.elim
    obtain ⟨hb, hb', hc, hc', hnumber, rfl⟩ := htail
    obtain ⟨hchar, hcode⟩ := @utf8EncodeChar_ofNat number (by unfold Nat.isValidChar; omega)
    refine ⟨_, hchar, ?_⟩
    rw [hcode, if_neg (by omega), if_neg (by omega), if_pos (by omega)]
    simp only [List.cons.injEq, and_true]
    exact ⟨hbyte (by omega), hbyte (by omega), hbyte (by omega)⟩
  · obtain ⟨rfl, hbits⟩ := hfour
    obtain _ | ⟨b, _ | ⟨c, _ | ⟨d, tail⟩⟩⟩ := tail
    · exact htail.elim
    · exact htail.2.2.elim
    · exact htail.2.2.2.2.elim
    obtain ⟨hb, hb', hc, hc', hd, hd', hnumber, rfl⟩ := htail
    obtain ⟨hchar, hcode⟩ := @utf8EncodeChar_ofNat number (by unfold Nat.isValidChar; omega)
    refine ⟨_, hchar, ?_⟩
    rw [hcode, if_neg (by omega), if_neg (by omega), if_neg (by omega)]
    simp only [List.cons.injEq, and_true]
    exact ⟨hbyte (by omega), hbyte (by omega), hbyte (by omega), hbyte (by omega)⟩

end First

/-- The decoder is inside a character after reading `run`: what completes the character for the
decoder is what completes the code of a character. -/
structure Awaits (run : Bytes) (bits low high more : Nat) : Prop where
  ne_nil : run ≠ []
  range : low ≤ high ∧ high < 256
  completes_iff : ∀ tail number, Completes bits low high more tail number ↔
    ∃ c : Char, c.toNat = number ∧ String.utf8EncodeChar c = run ++ tail

section Inside

variable {run rest : Bytes} {byte : UInt8} {bits low high more : Nat}

private theorem awaits_start (h : start byte.toNat = ([], .inside bits low high more)) :
    Awaits [byte] bits low high more := by
  obtain ⟨hlow, hle, hhigh, -⟩ := start_eq_inside h
  refine ⟨List.cons_ne_nil byte [], ⟨hle, by omega⟩, fun tail number =>
    ⟨exists_char_of_completes h, ?_⟩⟩
  intro ⟨c, hnumber, hcode⟩
  obtain ⟨hstart, -⟩ | ⟨bits', low', high', more', hstart, hcompletes⟩ :=
    start_of_utf8EncodeChar hcode
  · rw [h] at hstart
    cases hstart
  · rw [h] at hstart
    cases hstart
    rwa [hnumber] at hcompletes

theorem Awaits.next (h : Awaits run bits low high (more + 1)) (hlow : low ≤ byte.toNat)
    (hhigh : byte.toNat ≤ high) :
    Awaits (run ++ [byte]) (bits * 64 + (byte.toNat - 0x80)) 0x80 0xBF more := by
  refine ⟨by simp, by omega, fun tail number => ?_⟩
  rw [List.append_assoc, List.singleton_append, ← h.completes_iff (byte :: tail) number]
  simp only [Completes, hlow, hhigh, true_and]

theorem Awaits.last (h : Awaits run bits low high 0) (hlow : low ≤ byte.toNat)
    (hhigh : byte.toNat ≤ high) :
    String.utf8EncodeChar (Char.ofNat (bits * 64 + (byte.toNat - 0x80))) = run ++ [byte] := by
  obtain ⟨c, hnumber, hcode⟩ := (h.completes_iff [byte] _).1 ⟨hlow, hhigh, rfl, rfl⟩
  rw [← hnumber, Char.ofNat_toNat, hcode]

private theorem exists_completes (bits : Nat) (hrange : low ≤ high ∧ high < 256) :
    ∃ byte tail number, Completes bits low high more (byte :: tail) number := by
  have hbyte : (UInt8.ofNat low).toNat = low :=
    UInt8.toNat_ofNat_of_lt' (hrange.1.trans_lt hrange.2)
  induction more generalizing bits low high with
  | zero => exact ⟨UInt8.ofNat low, [], _, hbyte.ge, hbyte.trans_le hrange.1, rfl, rfl⟩
  | succ more ih =>
    obtain ⟨byte, tail, number, hrest⟩ : ∃ byte tail number,
        Completes (bits * 64 + ((UInt8.ofNat low).toNat - 0x80)) 0x80 0xBF more (byte :: tail)
          number :=
      ih _ (by omega) rfl
    exact ⟨UInt8.ofNat low, byte :: tail, number, hbyte.ge, hbyte.trans_le hrange.1, hrest⟩

/-- Inside a character, what has been read is the start of a code and not a whole one. -/
theorem Awaits.exists_code (h : Awaits run bits low high more) :
    ∃ c byte tail, String.utf8EncodeChar c = run ++ byte :: tail := by
  obtain ⟨byte, tail, number, hcompletes⟩ : ∃ byte tail number,
      Completes bits low high more (byte :: tail) number := exists_completes bits h.range
  obtain ⟨c, -, hcode⟩ := (h.completes_iff _ _).1 hcompletes
  exact ⟨c, byte, tail, hcode⟩

private theorem Awaits.not_begins (h : Awaits run bits low high more)
    (hbyte : ¬(low ≤ byte.toNat ∧ byte.toNat ≤ high)) : ¬Begins (run ++ [byte]) := by
  intro ⟨c, tail, hcode⟩
  rw [List.append_assoc, List.singleton_append] at hcode
  have hcompletes := (h.completes_iff (byte :: tail) c.toNat).2 ⟨c, rfl, hcode.symm⟩
  cases more with
  | zero => exact hbyte ⟨hcompletes.1, hcompletes.2.1⟩
  | succ more => exact hbyte ⟨hcompletes.1, hcompletes.2.1⟩

private theorem Awaits.illFormed (h : Awaits run bits low high more)
    (hrest : ∀ byte ∈ rest.head?, ¬Begins (run ++ [byte])) : IllFormed run rest := by
  obtain ⟨c, next, tail, hcode⟩ := h.exists_code
  -- What starts with the run and goes on has the next byte after the run, and no code begins so.
  have hmaximal : ∀ longer, longer <+: run ++ rest → Begins longer →
      longer.length ≤ run.length := by
    intro longer hstarts hbegins
    by_contra hlonger
    cases rest with
    | nil =>
      have hle := hstarts.length_le
      simp at hle
      omega
    | cons byte rest =>
      have hrun : run ++ [byte] <+: longer := by
        apply List.prefix_of_prefix_length_le _ hstarts
        · simp
          omega
        · exact ⟨rest, by simp⟩
      exact hrest byte rfl (hbegins.mono hrun)
  refine ⟨h.ne_nil, fun d hd => ?_, .inr ⟨c, next :: tail, hcode.symm⟩, hmaximal⟩
  -- A code that ends inside the run would be the start of the code that the run begins.
  have hle := hmaximal _ hd ⟨d, List.prefix_refl _⟩
  obtain ⟨rest', hrun⟩ := List.prefix_of_prefix_length_le hd (List.prefix_append run rest) hle
  have hsame : String.utf8EncodeChar d ++ (rest' ++ next :: tail) =
      String.utf8EncodeChar c ++ [] := by
    rw [List.append_nil, hcode, ← hrun, List.append_assoc]
  obtain ⟨-, hnil⟩ := eq_of_utf8EncodeChar_append hsame
  simp at hnil

private theorem illFormed_of_start (h : start byte.toNat = ([none], .idle)) (rest : Bytes) :
    IllFormed [byte] rest := by
  have hbyte : ¬Begins [byte] := by
    intro ⟨c, tail, hcode⟩
    rcases start_of_utf8EncodeChar hcode.symm with ⟨hstart, -⟩ | ⟨_, _, _, _, hstart, -⟩
    · rw [h] at hstart
      cases hstart
    · rw [h] at hstart
      cases hstart
  have hnil : ∀ bytes, bytes <+: [byte] ++ rest → Begins bytes → bytes = [] := by
    intro bytes hstarts hbegins
    cases bytes with
    | nil => rfl
    | cons b bytes =>
      obtain ⟨rfl, -⟩ := List.cons_prefix_cons.1 hstarts
      exact absurd (hbegins.mono ⟨bytes, rfl⟩) hbyte
  refine ⟨List.cons_ne_nil byte [], fun c hc => ?_, .inl rfl, fun bytes hstarts hbegins => ?_⟩
  · exact utf8EncodeChar_ne_nil c (hnil _ hc ⟨c, List.prefix_refl _⟩)
  · rw [hnil bytes hstarts hbegins]
    exact Nat.zero_le _

private theorem start_cases (byte : UInt8) :
    (∃ c, start byte.toNat = ([some c], .idle) ∧ String.utf8EncodeChar c = [byte]) ∨
      start byte.toNat = ([none], .idle) ∨
      ∃ bits low high more, start byte.toNat = ([], .inside bits low high more) := by
  by_cases hone : byte.toNat < 0x80
  · obtain ⟨-, hcode⟩ := @utf8EncodeChar_ofNat byte.toNat (.inl (by omega))
    rw [if_pos (by omega), UInt8.ofNat_toNat] at hcode
    exact .inl ⟨_, by rw [start, if_pos hone], hcode⟩
  · right
    generalize hstart : start byte.toNat = first
    unfold start at hstart
    grind

end Inside

private theorem hasUnits_unitsFrom (bytes : Bytes) :
    HasUnits bytes (unitsFrom .idle bytes) ∧ ∀ run bits low high more,
      Awaits run bits low high more →
        HasUnits (run ++ bytes) (unitsFrom (.inside bits low high more) bytes) := by
  induction bytes with
  | nil => exact ⟨.nil, fun run bits low high more h => .illFormed (h.illFormed (by simp)) .nil⟩
  | cons byte bytes ih =>
    have hidle : HasUnits (byte :: bytes) (unitsFrom .idle (byte :: bytes)) := by
      rw [unitsFrom, step]
      rcases start_cases byte with ⟨c, hstart, hcode⟩ | hstart | ⟨bits, low, high, more, hstart⟩
      · rw [hstart, ← List.singleton_append, ← hcode]
        exact .char ih.1
      · rw [hstart]
        exact .illFormed (illFormed_of_start hstart bytes) ih.1
      · rw [hstart]
        exact ih.2 [byte] bits low high more (awaits_start hstart)
    refine ⟨hidle, fun run bits low high more h => ?_⟩
    by_cases hrange : low ≤ byte.toNat ∧ byte.toNat ≤ high
    · rw [← List.singleton_append, ← List.append_assoc, List.singleton_append]
      cases more with
      | zero =>
        rw [unitsFrom, step, if_pos hrange, ← h.last hrange.1 hrange.2]
        exact .char ih.1
      | succ more =>
        rw [unitsFrom, step, if_pos hrange]
        exact ih.2 _ _ _ _ _ (h.next hrange.1 hrange.2)
    · -- The byte closes the run and is read afresh.
      have hunits : unitsFrom (.inside bits low high more) (byte :: bytes) =
          none :: unitsFrom .idle (byte :: bytes) := by
        rw [unitsFrom, unitsFrom, step.eq_def, step]
        simp only [hrange, if_false]
        rfl
      rw [hunits]
      refine .illFormed (h.illFormed ?_) hidle
      intro next hnext
      obtain rfl : byte = next := Option.some.inj hnext
      exact h.not_begins hrange

theorem units_eq_iff {bytes : Bytes} {us : List (Option Char)} :
    units bytes = us ↔ HasUnits bytes us := by
  have hunits := (hasUnits_unitsFrom bytes).1
  constructor
  · rintro rfl
    exact hunits
  · exact hunits.unique

private theorem HasUnits.eq_utf8 {bytes : Bytes} {text : Text}
    (h : HasUnits bytes (text.map some)) : bytes = text.utf8 := by
  induction text generalizing bytes with
  | nil =>
    cases h
    rfl
  | cons c text ih =>
    cases h with
    | char h => rw [ih h, Text.utf8, Text.utf8, List.flatMap_cons]

private theorem eq_map_some_of_mapM {us : List (Option Char)} {text : Text}
    (h : us.mapM id = some text) : us = text.map some := by
  induction us generalizing text with
  | nil =>
    cases h
    rfl
  | cons u us ih =>
    simp only [List.mapM_cons, id, Option.bind_eq_bind, Option.bind_eq_some_iff] at h
    obtain ⟨c, rfl, rest, hrest, hpure⟩ := h
    cases hpure
    rw [ih hrest, List.map_cons]

private theorem decode?_eq_some_iff {bytes : Bytes} {text : Text} :
    decode? bytes = some text ↔ bytes = text.utf8 := by
  constructor
  · intro h
    apply HasUnits.eq_utf8
    rw [← units_eq_iff]
    exact eq_map_some_of_mapM h
  · rintro rfl
    exact decode?_utf8 text

theorem decode?_eq_none_iff {bytes : Bytes} :
    decode? bytes = none ↔ ∀ text : Text, bytes ≠ text.utf8 := by
  rw [Option.eq_none_iff_forall_ne_some]
  exact forall_congr' fun text => not_congr decode?_eq_some_iff

@[simp] theorem decodeLossy_utf8 (text : Text) : decodeLossy text.utf8 = text := by
  rw [decodeLossy, units_utf8, List.map_map]
  exact List.map_id text

end Utf8

end LineShell
