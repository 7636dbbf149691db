import Mathlib.Data.Nat.Digits.Lemmas
import Socnet.Utility.EncodeUtil

namespace Socnet.Libjson

open Utility.EncodeUtil

def quote : UInt8 := '"'.toUInt8
def backslash : UInt8 := '\\'.toUInt8

def isNumber (c : UInt8) : Bool := between '0' '9' c
def isExponent (c : UInt8) : Bool := c = 'e'.toUInt8 || c = 'E'.toUInt8
def isSpace (c : UInt8) : Bool := c = SP || c = 9 || c = 11
def isNewline (c : UInt8) : Bool := c = LF

def isValidNextEscapeCharacter (c : UInt8) : Bool := (ascii "tn0bfxur\"\\").contains c

/-- The characters that are written with a backslash, with the letter that
follows it. -/
def escapes : List (UInt8 × Char) :=
  [(LF, 'n'), (0, '0'), (9, 't'), (quote, '"'), (8, 'b'), (12, 'f'), (CR, 'r'), (backslash, '\\')]

def unescapeCharacter (c : UInt8) : Bytes :=
  match escapes.lookup c with
  | some l => [backslash, l.toUInt8]
  | none => [c]

def escapeCharacter (c : UInt8) : UInt8 :=
  if c = 'n'.toUInt8 then LF
  else if c = '0'.toUInt8 then 0
  else if c = 't'.toUInt8 then 9
  else if c = 'b'.toUInt8 then 8
  else if c = 'f'.toUInt8 then 12
  else if c = 'r'.toUInt8 then CR
  else c

/-- `std::to_string` and `toStr` of a number that is not negative. -/
def natText (n : ℕ) : Bytes :=
  if n = 0 then ascii "0" else ((Nat.digits 10 n).map fun d ↦ 48 + d.toUInt8).reverse

def natValue (s : Bytes) : ℕ := Nat.ofDigits 10 (s.map fun c ↦ (c - 48).toNat).reverse

/-- `toStr<int>`. -/
def intText (n : ℤ) : Bytes :=
  if n < 0 then ascii "-" ++ natText n.natAbs else natText n.natAbs

def hexValue (s : Bytes) : ℕ := Nat.ofDigits 16 (s.map fun c ↦ (hex2dec c).toNat).reverse

/-- `toBase<int, 16>`; extraction stops at the largest `int`. -/
def toBase16 (s : Bytes) : ℕ := min (hexValue s) 2147483647

/-- `std::wstring_convert` to UTF-8 of a value of four hexadecimal digits.
A surrogate cannot be converted, and what is then thrown is no error of the library. -/
def unicodeHexToString (unicode : Bytes) : Except Fault Bytes :=
  let val := hexValue unicode
  if val < 0x80 then .ok [val.toUInt8]
  else if val < 0x800 then .ok [(0xC0 + val / 64).toUInt8, (0x80 + val % 64).toUInt8]
  else if 0xD800 ≤ val ∧ val < 0xE000 then .error .rangeError
  else .ok [(0xE0 + val / 4096).toUInt8, (0x80 + val / 64 % 64).toUInt8, (0x80 + val % 64).toUInt8]

/-- `s[s.size()]` is the terminating NUL, which is no hexadecimal digit. -/
def escapeString : Bytes → Except Fault Bytes
  | [] => .ok []
  | c :: s =>
    if c ≠ backslash then do
      let t ← escapeString s
      .ok (c :: t)
    else
      match s with
      | [] => .ok [0]
      | e :: s =>
        if e = 'u'.toUInt8 then
          if (s.take 4).length = 4 ∧ (s.take 4).all isxdigit then do
            let u ← unicodeHexToString (s.take 4)
            let t ← escapeString (s.drop 4)
            .ok (u ++ t)
          else .error .exception
        else if e = 'x'.toUInt8 then
          if s.takeWhile isxdigit = [] then .error .exception
          else do
            let t ← escapeString (s.dropWhile isxdigit)
            .ok (natText (toBase16 (s.takeWhile isxdigit)) ++ t)
        else do
          let t ← escapeString s
          .ok (escapeCharacter e :: t)
termination_by s => s.length
decreasing_by
  · simp
  · simp
    omega
  · have := (List.dropWhile_sublist (l := s) isxdigit).length_le
    simp
    omega
  · simp

def unescapeString (s : Bytes) : Bytes := s.flatMap unescapeCharacter

section Digits

theorem toNat_digit : ∀ d < 10, ((48 + d.toUInt8 : UInt8) - 48).toNat = d := by decide

theorem isNumber_digit : ∀ d < 10, isNumber (48 + d.toUInt8) = true := by decide

theorem digit_ne_zero : ∀ d < 10, (48 + d.toUInt8 : UInt8) = '0'.toUInt8 → d = 0 := by decide

theorem natValue_natText (n : ℕ) : natValue (natText n) = n := by
  unfold natText natValue
  split_ifs with h
  · rw [h]
    rfl
  · rw [List.map_reverse, List.reverse_reverse, List.map_map]
    have hmap : (Nat.digits 10 n).map ((fun c : UInt8 ↦ (c - 48).toNat) ∘ fun d ↦ 48 + d.toUInt8) =
        Nat.digits 10 n := by
      refine (List.map_congr_left fun d hd ↦ ?_).trans (List.map_id _)
      exact toNat_digit d (Nat.digits_lt_base (by decide) hd)
    rw [hmap, Nat.ofDigits_digits]

theorem isNumber_of_mem_natText {n : ℕ} {c : UInt8} (hc : c ∈ natText n) : isNumber c = true := by
  unfold natText at hc
  split_ifs at hc
  · have : ∀ c ∈ ascii "0", isNumber c = true := by decide +kernel
    exact this c hc
  · rw [List.mem_reverse, List.mem_map] at hc
    obtain ⟨d, hd, rfl⟩ := hc
    exact isNumber_digit d (Nat.digits_lt_base (by decide) hd)

/-- Only zero is written with a leading zero. -/
theorem natText_eq_cons (n : ℕ) :
    ∃ c s, natText n = c :: s ∧ isNumber c = true ∧ (c = '0'.toUInt8 → s = []) := by
  by_cases h : n = 0
  · exact ⟨'0'.toUInt8, [], by rw [natText, if_pos h]; rfl, by decide, fun _ ↦ rfl⟩
  · have hne : Nat.digits 10 n ≠ [] := Nat.digits_ne_nil_iff_ne_zero.mpr h
    have hlast := Nat.getLast_digit_ne_zero 10 h
    have hlt : (Nat.digits 10 n).getLast hne < 10 :=
      Nat.digits_lt_base (by decide) (List.getLast_mem hne)
    refine ⟨48 + ((Nat.digits 10 n).getLast hne).toUInt8,
      ((Nat.digits 10 n).dropLast.map fun d ↦ 48 + d.toUInt8).reverse, ?_, isNumber_digit _ hlt,
      fun hz ↦ absurd (digit_ne_zero _ hlt hz) hlast⟩
    rw [natText, if_neg h]
    conv_lhs => rw [← List.dropLast_append_getLast hne]
    simp

theorem natText_length {n k : ℕ} (hk : 0 < k) (h : n < 10 ^ k) : (natText n).length ≤ k := by
  unfold natText
  split_ifs
  · exact hk
  · rw [List.length_reverse, List.length_map]
    exact (Nat.digits_length_le_iff (by decide) n).mpr h

end Digits

section Escapes

theorem escapeString_cons {c : UInt8} (hc : c ≠ backslash) (s : Bytes) :
    escapeString (c :: s) = escapeString s >>= fun t ↦ .ok (c :: t) := by
  rw [escapeString.eq_def]
  simp only [if_pos hc]

/-- The letter of an escape gives back the character. -/
theorem escapeString_letter {c : UInt8} {l : Char} (h : escapes.lookup c = some l) (s : Bytes) :
    escapeString (backslash :: l.toUInt8 :: s) = escapeString s >>= fun t ↦ .ok (c :: t) := by
  have hmem : (c, l) ∈ escapes := by
    obtain ⟨l₁, l₂, hl, -⟩ := List.lookup_eq_some_iff.mp h
    rw [hl]
    simp
  have hall : ∀ p ∈ escapes, p.2.toUInt8 ≠ 'u'.toUInt8 ∧ p.2.toUInt8 ≠ 'x'.toUInt8 ∧
      escapeCharacter p.2.toUInt8 = p.1 := by decide
  obtain ⟨hu, hx, he⟩ := hall _ hmem
  rw [escapeString, if_neg (by simp)]
  simp only [if_neg hu, if_neg hx, he]

/-- Reading the escapes undoes writing them. -/
theorem escapeString_unescapeString (s : Bytes) : escapeString (unescapeString s) = .ok s := by
  induction s with
  | nil => simp [unescapeString, escapeString]
  | cons c s ih =>
    rw [unescapeString, List.flatMap_cons, unescapeCharacter]
    cases h : escapes.lookup c with
    | some l =>
      change escapeString (backslash :: l.toUInt8 :: unescapeString s) = _
      rw [escapeString_letter h, ih]
      rfl
    | none =>
      have hc : c ≠ backslash := by
        intro hc
        rw [hc] at h
        revert h
        decide
      change escapeString (c :: unescapeString s) = _
      rw [escapeString_cons hc, ih]
      rfl

end Escapes

end Socnet.Libjson
