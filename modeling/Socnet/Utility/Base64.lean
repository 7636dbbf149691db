import Socnet.Utility.EncodeUtil

namespace Socnet.Utility.EncodeUtil

def alphabet : Bytes := ascii "ABCDEFGHIJKLMNOPQRSTUVWXYZabcdefghijklmnopqrstuvwxyz0123456789+/"

def tab (i : UInt8) : UInt8 := alphabet.getD i.toNat 0

/-- Three octets at a time, and then the one or two that are left. -/
def base64Encode : Bytes → Bytes
  | a :: b :: c :: rest =>
    tab ((a &&& 0xfc) >>> 2) :: tab (((a &&& 0x03) <<< 4) + ((b &&& 0xf0) >>> 4)) ::
      tab (((c &&& 0xc0) >>> 6) + ((b &&& 0x0f) <<< 2)) :: tab (c &&& 0x3f) :: base64Encode rest
  | [a, b] =>
    [tab ((a &&& 0xfc) >>> 2), tab (((a &&& 0x03) <<< 4) + ((b &&& 0xf0) >>> 4)),
      tab ((b &&& 0x0f) <<< 2), '='.toUInt8]
  | [a] => [tab ((a &&& 0xfc) >>> 2), tab ((a &&& 0x03) <<< 4), '='.toUInt8, '='.toUInt8]
  | [] => []

theorem forall_lt {m n : ℕ} {P : UInt8 → UInt8 → Prop}
    (h : ∀ (i : Fin m) (j : Fin n), P (UInt8.ofNat i) (UInt8.ofNat j)) {c d : UInt8}
    (hc : c.toNat < m) (hd : d.toNat < n) : P c d := by
  simpa using h ⟨c.toNat, hc⟩ ⟨d.toNat, hd⟩

theorem forall_sextet {P : UInt8 → Prop} (h : ∀ i : Fin 64, P (UInt8.ofNat i)) {v : UInt8}
    (hv : v.toNat < 64) : P v := by
  simpa using h ⟨v.toNat, hv⟩

set_option maxRecDepth 4000 in
/-- A sextet is read back from its character. -/
theorem base64Inverse_tab {v : UInt8} (hv : v.toNat < 64) :
    tab v ≠ '='.toUInt8 ∧ base64Inverse (tab v) = some v :=
  forall_sextet (P := fun v ↦ tab v ≠ '='.toUInt8 ∧ base64Inverse (tab v) = some v)
    (by decide) hv

set_option maxRecDepth 4000 in
/-- The parts of an octet that go into its sextets. -/
theorem octet_parts : ∀ a : UInt8, ((a &&& 0xfc) >>> 2).toNat < 64 ∧ (a &&& 0x03).toNat < 4 ∧
    ((a &&& 0xf0) >>> 4).toNat < 16 ∧ (a &&& 0x0f).toNat < 16 ∧
    ((a &&& 0xc0) >>> 6).toNat < 4 ∧ (a &&& 0x3f).toNat < 64 :=
  forall_byte (by decide)

set_option maxRecDepth 4000 in
theorem octet_join : ∀ a : UInt8, (((a &&& 0xfc) >>> 2) <<< 2) + (a &&& 0x03) = a ∧
    (((a &&& 0xf0) >>> 4) <<< 4) + (a &&& 0x0f) = a ∧
    (((a &&& 0xc0) >>> 6) <<< 6) + (a &&& 0x3f) = a :=
  forall_byte (by decide)

/-- A sextet of the lower bits of an octet and the upper ones of the next. -/
theorem sextet_low {y z : UInt8} (hy : y.toNat < 4) (hz : z.toNat < 16) :
    ((y <<< 4) + z).toNat < 64 ∧ (((y <<< 4) + z) &&& 0x30) >>> 4 = y ∧
      ((y <<< 4) + z) &&& 0xf = z :=
  forall_lt (P := fun y z ↦ ((y <<< 4) + z).toNat < 64 ∧ (((y <<< 4) + z) &&& 0x30) >>> 4 = y ∧
    ((y <<< 4) + z) &&& 0xf = z) (by decide) hy hz

theorem sextet_high {u w : UInt8} (hu : u.toNat < 4) (hw : w.toNat < 16) :
    (u + (w <<< 2)).toNat < 64 ∧ ((u + (w <<< 2)) &&& 0x3c) >>> 2 = w ∧
      (u + (w <<< 2)) &&& 0x3 = u :=
  forall_lt (P := fun u w ↦ (u + (w <<< 2)).toNat < 64 ∧ ((u + (w <<< 2)) &&& 0x3c) >>> 2 = w ∧
    (u + (w <<< 2)) &&& 0x3 = u) (by decide) hu hw

theorem base64Octets_tab {c4 : Bytes} {v : UInt8} (hv : v.toNat < 64) (hlen : c4.length ≠ 3)
    (rest : Bytes) : base64Octets c4 (tab v :: rest) = base64Octets (c4 ++ [v]) rest := by
  obtain ⟨hne, hinv⟩ := base64Inverse_tab hv
  rw [base64Octets, if_neg hne, hinv]
  exact if_neg hlen

theorem base64Octets_full {c4 : Bytes} {v : UInt8} (hv : v.toNat < 64) (hlen : c4.length = 3)
    (rest : Bytes) :
    base64Octets c4 (tab v :: rest) = base64Group (c4 ++ [v]) ++ base64Octets [] rest := by
  obtain ⟨hne, hinv⟩ := base64Inverse_tab hv
  rw [base64Octets, if_neg hne, hinv]
  exact if_pos hlen

theorem base64Octets_pad (c4 rest : Bytes) :
    base64Octets c4 ('='.toUInt8 :: rest) = (base64Group c4).take (c4.length - 1) := by
  rw [base64Octets, if_pos rfl]

/-- What is encoded is decoded to the same octets, group by group. -/
theorem base64Octets_base64Encode (s : Bytes) : base64Octets [] (base64Encode s) = s := by
  induction s using base64Encode.induct with
  | case1 a b c rest ih =>
    obtain ⟨ha0, ha1, -, -, -, -⟩ := octet_parts a
    obtain ⟨-, -, hb0, hb1, -, -⟩ := octet_parts b
    obtain ⟨-, -, -, -, hc0, hc1⟩ := octet_parts c
    obtain ⟨h1, h1a, h1b⟩ := sextet_low ha1 hb0
    obtain ⟨h2, h2b, h2c⟩ := sextet_high hc0 hb1
    rw [base64Encode, base64Octets_tab ha0 (by decide), base64Octets_tab h1 (by simp),
      base64Octets_tab h2 (by simp), base64Octets_full hc1 rfl, ih]
    simp only [List.nil_append, List.cons_append, base64Group, List.getD_cons_zero,
      List.getD_cons_succ, h1a, h1b, h2b, h2c, (octet_join a).1, (octet_join b).2.1,
      (octet_join c).2.2]
  | case2 a b =>
    obtain ⟨ha0, ha1, -, -, -, -⟩ := octet_parts a
    obtain ⟨-, -, hb0, hb1, -, -⟩ := octet_parts b
    obtain ⟨h1, h1a, h1b⟩ := sextet_low ha1 hb0
    obtain ⟨h2, h2b, -⟩ := sextet_high (u := 0) (by decide) hb1
    rw [UInt8.zero_add] at h2 h2b
    rw [base64Encode, base64Octets_tab ha0 (by decide), base64Octets_tab h1 (by simp),
      base64Octets_tab h2 (by simp), base64Octets_pad]
    simp only [List.nil_append, List.cons_append, base64Group, List.getD_cons_zero,
      List.getD_cons_succ, h1a, h1b, h2b, (octet_join a).1, (octet_join b).2.1]
    rfl
  | case3 a =>
    obtain ⟨ha0, ha1, -, -, -, -⟩ := octet_parts a
    obtain ⟨h1, h1a, -⟩ := sextet_low (z := 0) ha1 (by decide)
    rw [UInt8.add_zero] at h1 h1a
    rw [base64Encode, base64Octets_tab ha0 (by decide), base64Octets_tab h1 (by simp),
      base64Octets_pad]
    simp only [List.nil_append, List.cons_append, base64Group, List.getD_cons_zero,
      List.getD_cons_succ, h1a, (octet_join a).1]
    rfl
  | case4 => rfl

theorem length_base64Encode (s : Bytes) : (base64Encode s).length = 4 * ((s.length + 2) / 3) := by
  induction s using base64Encode.induct with
  | case1 a b c rest ih =>
    simp only [base64Encode, List.length_cons, ih]
    omega
  | case2 a b => simp [base64Encode]
  | case3 a => simp [base64Encode]
  | case4 => rfl

theorem base64Decode_base64Encode (s : Bytes) : base64Decode (base64Encode s) = .ok s := by
  rw [base64Decode, base64Octets_base64Encode, length_base64Encode]
  exact if_pos (by omega)

/-- The characters in front of the first one that is not of the alphabet. -/
def sextets (data : Bytes) : Bytes :=
  data.takeWhile fun c ↦ c ≠ '='.toUInt8 ∧ (base64Inverse c).isSome

/-- Each full group of sextets makes three octets, and what is left one less than itself. -/
theorem length_base64Octets {c4 : Bytes} (h : c4.length < 4) (data : Bytes) :
    (base64Octets c4 data).length = (c4.length + (sextets data).length) / 4 * 3 +
      ((c4.length + (sextets data).length) % 4 - 1) := by
  have hgroup (c4 : Bytes) : (base64Group c4).length = 3 := rfl
  have hstop {c4 : Bytes} (h : c4.length < 4) : ((base64Group c4).take (c4.length - 1)).length =
      (c4.length + 0) / 4 * 3 + ((c4.length + 0) % 4 - 1) := by
    rw [List.length_take, hgroup]
    omega
  induction data generalizing c4 with
  | nil => exact hstop h
  | cons c data ih =>
    by_cases hpad : c = '='.toUInt8
    · rw [hpad, base64Octets_pad]
      exact hstop h
    · cases hinv : base64Inverse c with
      | none =>
        have hnone : sextets (c :: data) = [] := by simp [sextets, hinv]
        rw [base64Octets, if_neg hpad, hinv, hnone]
        exact hstop h
      | some v =>
        have hsome : sextets (c :: data) = c :: sextets data := by simp [sextets, hinv, hpad]
        rw [base64Octets, if_neg hpad, hinv, hsome, List.length_cons]
        dsimp only
        split_ifs with hfull
        · rw [List.length_append, hgroup, @ih [] (by decide), List.length_nil]
          omega
        · rw [ih (by rw [List.length_append, List.length_singleton]; omega), List.length_append,
            List.length_singleton]
          omega

/-- A text that is encoded is decoded to itself, and a decoding writes behind its
destination just when a group of two or three sextets is left that the length of the data
does not round up to. -/
theorem base64Decode_exact :
    (∀ s, base64Decode (base64Encode s) = .ok s) ∧
    ∀ data, (∃ s, base64Decode data = .ok s) ↔
      (sextets data).length % 4 < 2 ∨ (sextets data).length / 4 < data.length / 4 := by
  refine ⟨base64Decode_base64Encode, fun data ↦ ?_⟩
  have hlen := @length_base64Octets [] (by decide) data
  rw [List.length_nil, Nat.zero_add] at hlen
  have hle : (sextets data).length ≤ data.length := (List.takeWhile_prefix _).length_le
  have hiff : (∃ s, base64Decode data = .ok s) ↔
      (base64Octets [] data).length ≤ data.length / 4 * 3 := by
    rw [base64Decode]
    split_ifs with h
    · exact iff_of_true ⟨_, rfl⟩ h
    · exact iff_of_false (fun ⟨s, hs⟩ ↦ by cases hs) h
  rw [hiff, hlen]
  omega

end Socnet.Utility.EncodeUtil
