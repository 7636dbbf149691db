import Mathlib.Data.List.TakeWhile
import Socnet.Libjson.RoundTrip

namespace Socnet.Libjson

open Utility.EncodeUtil JsonLexer

section Escapes

theorem hex2dec_lt : ∀ n < 256, isxdigit n.toUInt8 → (hex2dec n.toUInt8).toNat < 16 := by
  decide +kernel

theorem hexValue_lt {s : Bytes} (h : ∀ c ∈ s, isxdigit c = true) : hexValue s < 16 ^ s.length := by
  have hlt : ∀ d ∈ (s.map fun c ↦ (hex2dec c).toNat).reverse, d < 16 := by
    intro d hd
    rw [List.mem_reverse, List.mem_map] at hd
    obtain ⟨c, hc, rfl⟩ := hd
    simpa using hex2dec_lt c.toNat c.toNat_lt (by simpa using h c hc)
  simpa [hexValue] using Nat.ofDigits_lt_base_pow_length (by decide) hlt

/-- A number read in base sixteen has no more decimal digits than its escape
has characters. -/
theorem natText_toBase16_length {s : Bytes} (h : ∀ c ∈ s, isxdigit c = true) :
    (natText (toBase16 s)).length ≤ s.length + 2 := by
  apply natText_length (Nat.succ_pos _)
  have hv := hexValue_lt h
  by_cases h8 : s.length < 8
  · have hpow : ∀ n < 8, 16 ^ n < 10 ^ (n + 2) := by decide
    exact (min_le_left _ _).trans_lt (hv.trans (hpow _ h8))
  · calc toBase16 s ≤ 2147483647 := min_le_right _ _
      _ < 10 ^ (8 + 2) := by decide
      _ ≤ 10 ^ (s.length + 2) := Nat.pow_le_pow_right (by decide) (by omega)

theorem unicodeHexToString_length {s u : Bytes} (h : unicodeHexToString s = .ok u) :
    u.length ≤ 3 := by
  unfold unicodeHexToString at h
  dsimp only at h
  split_ifs at h
  · cases h; simp
  · cases h; simp
  · cases h; simp

/-- What an escape is read as: `k` hexadecimal digits behind its letter belong to
it, and the output is shorter than it or does not start as it does. -/
theorem escapeString_unit {e : UInt8} {s out : Bytes}
    (h : escapeString (backslash :: e :: s) = .ok out) :
    ∃ k u t, k ≤ s.length ∧ (∀ c ∈ s.take k, isxdigit c = true) ∧
      escapeString (s.drop k) = .ok t ∧ out = u ++ t ∧ u.length ≤ k + 2 ∧
      (u.length = k + 2 → u.head? ≠ some backslash) := by
  rw [escapeString, if_neg (by simp)] at h
  split_ifs at h with hu hhex hx hdigits
  · obtain ⟨u, hu, h⟩ := bind_eq_ok.mp h
    obtain ⟨t, ht, h⟩ := bind_eq_ok.mp h
    cases h
    have hlen := unicodeHexToString_length hu
    refine ⟨4, u, t, ?_, fun c hc ↦ List.all_eq_true.mp hhex.2 c hc, ht, rfl, by omega, by omega⟩
    have := hhex.1
    rw [List.length_take] at this
    omega
  · obtain ⟨t, ht, h⟩ := bind_eq_ok.mp h
    cases h
    have hsplit : s.takeWhile isxdigit ++ s.dropWhile isxdigit = s := List.takeWhile_append_dropWhile
    have htake : (s.takeWhile isxdigit ++ s.dropWhile isxdigit).take
        (s.takeWhile isxdigit).length = _ := List.take_left
    have hdrop : (s.takeWhile isxdigit ++ s.dropWhile isxdigit).drop
        (s.takeWhile isxdigit).length = _ := List.drop_left
    rw [hsplit] at htake hdrop
    have hall : ∀ c ∈ s.takeWhile isxdigit, isxdigit c = true := fun c hc ↦
      List.mem_takeWhile_imp hc
    refine ⟨(s.takeWhile isxdigit).length, _, t, (List.takeWhile_sublist _).length_le,
      by rwa [htake], by rw [hdrop, ht], rfl, natText_toBase16_length hall, fun _ hb ↦ ?_⟩
    · have hd := isNumber_of_mem_natText (List.mem_of_mem_head? hb)
      revert hd
      decide
  · obtain ⟨t, ht, h⟩ := bind_eq_ok.mp h
    cases h
    exact ⟨0, [escapeCharacter e], t, Nat.zero_le _, by simp, ht, rfl, by simp, by simp⟩

/-- Reading escapes makes no string longer. -/
theorem escapeString_length {s out : Bytes} (h : escapeString s = .ok out) :
    out.length ≤ s.length := by
  induction hn : s.length using Nat.strong_induction_on generalizing s out with
  | _ n ih =>
    subst hn
    cases s with
    | nil =>
      rw [escapeString] at h
      cases h
      exact le_rfl
    | cons c s =>
      by_cases hc : c = backslash
      · subst hc
        cases s with
        | nil =>
          rw [escapeString, if_neg (by simp)] at h
          cases h
          exact le_rfl
        | cons e s =>
          obtain ⟨k, u, t, hk, -, ht, rfl, hu, -⟩ := escapeString_unit h
          have := ih (s.drop k).length (by simp; omega) ht rfl
          simp only [List.length_append, List.length_cons, List.length_drop] at this ⊢
          omega
      · rw [escapeString_cons hc] at h
        obtain ⟨t, ht, h⟩ := bind_eq_ok.mp h
        cases h
        exact Nat.succ_le_succ (ih s.length (by simp) ht rfl)

/-- A string that is read as itself has no escape. -/
theorem backslash_not_mem_of_fixed {s : Bytes} (h : escapeString s = .ok s) : backslash ∉ s := by
  induction s with
  | nil => simp
  | cons c s ih =>
    by_cases hc : c = backslash
    · subst hc
      cases s with
      | nil =>
        rw [escapeString, if_neg (by simp)] at h
        cases h
      | cons e s =>
        obtain ⟨k, u, t, hk, -, ht, hout, hu, hhead⟩ := escapeString_unit h
        have hlen := escapeString_length ht
        have hsum := congrArg List.length hout
        simp only [List.length_append, List.length_cons, List.length_drop] at hlen hsum
        have hu2 : u.length = k + 2 := by omega
        refine absurd ?_ (hhead hu2)
        cases u with
        | nil => simp at hu2
        | cons x u =>
          rw [List.cons_append] at hout
          rw [(List.cons.inj hout).1]
          rfl
    · rw [escapeString_cons hc] at h
      obtain ⟨t, ht, h⟩ := bind_eq_ok.mp h
      cases h
      simp only [List.mem_cons, not_or]
      exact ⟨Ne.symm hc, ih ht⟩

theorem escapeString_of_not_mem {s : Bytes} (h : backslash ∉ s) : escapeString s = .ok s := by
  induction s with
  | nil => rw [escapeString]
  | cons c s ih =>
    simp only [List.mem_cons, not_or] at h
    rw [escapeString_cons (Ne.symm h.1), ih h.2]
    rfl

/-- What stands behind a quote, with no further escape, is copied to the end of
the output. -/
theorem suffix_of_escapeString {w u out : Bytes} (hu : backslash ∉ u)
    (h : escapeString (w ++ quote :: u) = .ok out) : u <:+ out := by
  have htail {v : Bytes} {c : UInt8} (h : escapeString u >>= (fun t ↦ .ok (c :: t)) = .ok v) :
      u <:+ v := by
    rw [escapeString_of_not_mem hu] at h
    cases h
    exact List.suffix_cons c u
  induction hn : w.length using Nat.strong_induction_on generalizing w out with
  | _ n ih =>
    subst hn
    cases w with
    | nil =>
      rw [List.nil_append, escapeString_cons (by decide)] at h
      exact htail h
    | cons c w =>
      rw [List.cons_append] at h
      by_cases hc : c = backslash
      · subst hc
        cases w with
        | nil =>
          have hquote : escapes.lookup quote = some '"' := by decide
          exact htail ((escapeString_letter hquote u).symm.trans h)
        | cons e w =>
          change escapeString (backslash :: e :: (w ++ quote :: u)) = _ at h
          obtain ⟨k, x, t, -, hhex, ht, rfl, -, -⟩ := escapeString_unit h
          -- the digits of an escape stop before the quote
          have hk : k ≤ w.length := by
            by_contra hk
            have hmem : quote ∈ (w ++ quote :: u).take k := by
              rw [List.take_append, List.mem_append]
              right
              obtain ⟨j, hj⟩ : ∃ j, k - w.length = j + 1 := ⟨k - w.length - 1, by omega⟩
              rw [hj, List.take_succ_cons]
              exact .head _
            have := hhex quote hmem
            revert this
            decide
          rw [List.drop_append_of_le_length hk] at ht
          have hsuffix := ih (w.drop k).length (by simp; omega) ht rfl
          exact hsuffix.trans (List.suffix_append x t)
      · rw [escapeString_cons hc] at h
        obtain ⟨t, ht, h⟩ := bind_eq_ok.mp h
        cases h
        exact (ih w.length (by simp) ht rfl).trans (List.suffix_cons c t)

end Escapes

section Scan

/-- A string that can stand between quotes as it is. -/
def Clean (s : Bytes) : Prop := quote ∉ s ∧ backslash ∉ s

theorem scanString_split {text raw rest : Bytes} (h : scanString text = .ok (raw, rest)) :
    text = raw ++ quote :: rest := by
  fun_induction scanString text generalizing raw with
  | case1 => cases h
  | case2 => cases h; rfl
  | case3 => cases h
  | case4 _ e tail _ ih =>
    obtain ⟨⟨s', r⟩, hs, h⟩ := bind_eq_ok.mp h
    cases h
    rw [ih hs]
    rfl
  | case5 => cases h
  | case6 c tail _ _ ih =>
    obtain ⟨⟨s', r⟩, hs, h⟩ := bind_eq_ok.mp h
    cases h
    rw [ih hs]
    rfl

/-- A quote inside a string stands behind a backslash. -/
theorem scanString_inner {text raw rest w u : Bytes} (h : scanString text = .ok (raw, rest))
    (hr : raw = w ++ quote :: u) : w.getLast? = some backslash := by
  have hlast {c : UInt8} {w : Bytes} (h : w.getLast? = some backslash) :
      (c :: w).getLast? = some backslash := by
    rw [List.getLast?_cons, h]
    rfl
  fun_induction scanString text generalizing raw w with
  | case1 => cases h
  | case2 =>
    cases h
    simp at hr
  | case3 => cases h
  | case4 e tail _ _ ih =>
    obtain ⟨⟨s', r⟩, hs, h⟩ := bind_eq_ok.mp h
    cases h
    cases w with
    | nil => exact absurd (List.cons.inj hr).1 (by decide)
    | cons c w =>
      have hr' := (List.cons.inj hr).2
      cases w with
      | nil =>
        rw [← (List.cons.inj hr).1]
        rfl
      | cons e' w => exact hlast (hlast (ih hs (List.cons.inj hr').2))
  | case5 => cases h
  | case6 c tail hq hb ih =>
    obtain ⟨⟨s', r⟩, hs, h⟩ := bind_eq_ok.mp h
    cases h
    cases w with
    | nil => exact absurd (List.cons.inj hr).1 hq
    | cons c' w => exact hlast (ih hs (List.cons.inj hr).2)

theorem spells_of_clean {s : Bytes} (h : Clean s) : Spells s s := by
  refine ⟨fun rest ↦ ?_, escapeString_of_not_mem h.2⟩
  obtain ⟨hq, hb⟩ := h
  induction s with
  | nil => exact scanString_quote rest
  | cons c s ih =>
    simp only [List.mem_cons, not_or] at hq hb
    exact scanString_cons (Ne.symm hq.1) (Ne.symm hb.1) (ih hq.2 hb.2)

/-- Text outside of strings, up to the next string or the end. -/
def Outside (rest : Bytes) : Prop :=
  ∃ u v, rest = u ++ v ∧ Clean u ∧ (v = [] ∨ v.head? = some quote)

/-- A string that goes on behind its closing quote goes on with text that has no
backslash, at the latest up to the next string. -/
theorem stretch_of_outside {s rest raw rest' m : Bytes} (ho : Outside rest)
    (hhead : ∃ c ∈ rest.head?, c ≠ quote)
    (hscan : scanString (s ++ quote :: rest) = .ok (raw, rest')) (hraw : raw = s ++ quote :: m)
    (hm : rest = m ++ quote :: rest') : m ≠ [] ∧ backslash ∉ m := by
  obtain ⟨c, hc, hcq⟩ := hhead
  obtain ⟨u, v, hrest, ⟨-, hub⟩, hv⟩ := ho
  refine ⟨?_, ?_⟩
  · rintro rfl
    rw [hm] at hc
    exact hcq (Option.some.inj hc).symm
  · obtain ⟨a, ha, hv'⟩ | ⟨a, ha, hv'⟩ := List.append_eq_append_iff.mp (hm.symm.trans hrest)
    · rw [ha] at hub
      exact fun h ↦ hub (List.mem_append_left a h)
    · cases a with
      | nil => rwa [ha, List.append_nil]
      | cons y a =>
        rw [hv'] at hv
        obtain rfl : y = quote := by simpa using hv
        have hlast := scanString_inner hscan (w := s ++ quote :: u) (u := a) (by rw [hraw, ha]; simp)
        cases u with
        | nil =>
          rw [hrest, hv'] at hc
          exact absurd (Option.some.inj hc).symm hcq
        | cons z u =>
          rw [List.getLast?_append_of_ne_nil _ (by simp), List.getLast?_cons_cons] at hlast
          exact absurd (List.mem_of_getLast? hlast) hub

/-- A string that is written as it is and read as itself holds no quote and no
backslash. -/
theorem clean_of_scan {s rest raw rest' : Bytes} (ho : Outside rest)
    (hhead : ∃ c ∈ rest.head?, c ≠ quote)
    (hscan : scanString (s ++ quote :: rest) = .ok (raw, rest')) (hesc : escapeString raw = .ok s) :
    Clean s := by
  have hlen := escapeString_length hesc
  -- the string ends at its own closing quote
  have hown (h : raw = s) : Clean s := by
    subst h
    have hb := backslash_not_mem_of_fixed hesc
    refine ⟨fun hq ↦ ?_, hb⟩
    obtain ⟨w, u, rfl⟩ := List.append_of_mem hq
    exact hb (List.mem_append_left _ (List.mem_of_getLast? (scanString_inner hscan rfl)))
  obtain ⟨x, hx, hrest⟩ | ⟨x, hx, hrest⟩ :=
    List.append_eq_append_iff.mp (scanString_split hscan)
  · cases x with
    | nil => exact hown (by rw [hx, List.append_nil])
    | cons y m =>
      obtain ⟨rfl, hm⟩ : quote = y ∧ rest = m ++ quote :: rest' := by simpa using hrest
      obtain ⟨hne, hb⟩ := stretch_of_outside ho hhead hscan hx hm
      have hlast := scanString_inner hscan hx
      rw [hx] at hesc
      obtain ⟨t, rfl⟩ := suffix_of_escapeString hb hesc
      rw [List.getLast?_append_of_ne_nil _ hne] at hlast
      exact absurd (List.mem_of_getLast? hlast) hb
  · rw [hx, List.length_append] at hlen
    obtain rfl : x = [] := List.length_eq_zero_iff.mp (by omega)
    exact hown (by rw [hx, List.append_nil])

end Scan

end Socnet.Libjson
