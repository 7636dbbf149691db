import Socnet.Http.HeaderAgreement

namespace Socnet.Http

open Lib Sequence Net HeaderLine Utility.EncodeUtil

namespace HttpHeader

theorem mem_add {h : HttpHeader} {key value : Bytes} {e : Bytes × Bytes}
    (he : e ∈ (h.add key value).entries) : e = (toLowers key, value) ∨ e ∈ h.entries := by
  unfold add at he
  dsimp only at he
  split at he
  · exact Multimap.mem_assignLower he
  · exact Multimap.mem_insertUpper he

/-- Keys are in lower case, and only a `set-cookie` key may have several values. -/
structure WellFormed (h : HttpHeader) : Prop where
  lower : ∀ e ∈ h.entries, toLowers e.1 = e.1
  single : ∀ k, ¬ setCookie <+: k → (h.values k).length ≤ 1

theorem WellFormed.empty : WellFormed Multimap.empty := ⟨nofun, fun _ _ ↦ Nat.zero_le 1⟩

theorem WellFormed.add {h : HttpHeader} (hw : h.WellFormed) (key value : Bytes) :
    (h.add key value).WellFormed := by
  constructor
  · intro e he
    rcases mem_add he with rfl | he
    · exact toLowers_toLowers key
    · exact hw.lower e he
  · intro k hk
    have hle := hw.single k hk
    rw [values_add]
    split_ifs with hkey hv
    · simp only [List.length_cons, List.length_tail]
      omega
    · have hnil : h.values k = [] := by_contra fun hne ↦ hv ⟨hk, hne⟩
      simp [hnil]
    · exact hle

theorem WellFormed.values_eq {h : HttpHeader} (hw : h.WellFormed) (k : Bytes) :
    h.values k = (h.entries.filter fun e ↦ toLowers e.1 = k).map Prod.snd := by
  refine congrArg (List.map Prod.snd) (List.filter_congr fun e he ↦ ?_)
  rw [hw.lower e he]
  simp

/-- Well-formed entries are stored again as they stand. -/
theorem WellFormed.addHeader_empty {h : HttpHeader} (hw : h.WellFormed) :
    addHeader Multimap.empty h = h := by
  apply Multimap.ext_values
  intro k
  have hshown : (shown Prod.fst h.entries k).map Prod.snd = h.values k := by
    have hle := hw.single k
    rw [hw.values_eq, List.length_map] at hle
    rw [hw.values_eq, shown]
    split_ifs with hc
    · rfl
    · have hle := hle hc
      cases hl : h.entries.filter fun e ↦ toLowers e.1 = k with
      | nil => rfl
      | cons e l =>
        rw [hl, List.length_cons] at hle
        rw [List.length_eq_zero_iff.mp (show l.length = 0 by omega)]
        rfl
  rw [addHeader, values_foldl, hshown]
  simp

/-- An entry whose line reads back as that entry. -/
structure Printable (e : Bytes × Bytes) : Prop where
  colon_notMem : ':'.toUInt8 ∉ e.1
  name_crlf : ¬ CRLF <:+: e.1
  value_crlf : ¬ CRLF <:+: e.2
  no_blank : e.2.head? ≠ some SP

theorem crlf_toLowers {s : Bytes} (h : CRLF <:+: toLowers s) : CRLF <:+: s := by
  induction s with
  | nil => exact h
  | cons c s ih =>
    rw [toLowers, List.map_cons, List.infix_cons_iff] at h
    rw [List.infix_cons_iff]
    refine h.imp (fun hp ↦ ?_) ih
    obtain ⟨hc, hp⟩ := List.cons_prefix_cons.mp hp
    cases s with
    | nil => simp at hp
    | cons d s =>
      obtain ⟨hd, -⟩ := List.cons_prefix_cons.mp hp
      rw [(toLower_eq_iff (by decide) c).mp hc.symm, (toLower_eq_iff (by decide) d).mp hd.symm]
      exact ⟨s, rfl⟩

theorem HeaderLine.printable (l : HeaderLine) : Printable (toLowers l.name, l.value) := by
  refine ⟨fun hm ↦ ?_, fun hi ↦ l.name_crlf (crlf_toLowers hi), fun hi ↦ ?_, fun hh ↦ ?_⟩
  · obtain ⟨c, hc, he⟩ := List.mem_map.mp hm
    exact l.colon_notMem ((toLower_eq_iff (by decide) c).mp he ▸ hc)
  · exact l.rest_crlf (hi.trans (List.dropWhile_suffix _).isInfix)
  · have hno := List.head?_dropWhile_not (· = SP) l.rest
    rw [HeaderLine.value] at hh
    simp [hh] at hno

theorem storeLines_spec {h : HttpHeader} (hw : h.WellFormed) (hp : ∀ e ∈ h.entries, Printable e)
    (ls : List HeaderLine) :
    (storeLines h ls).WellFormed ∧ ∀ e ∈ (storeLines h ls).entries, Printable e := by
  induction ls generalizing h with
  | nil => exact ⟨hw, hp⟩
  | cons l ls ih =>
    apply ih (hw.add l.name l.value)
    intro e he
    rcases mem_add he with rfl | he
    · exact HeaderLine.printable l
    · exact hp e he

/-- Printed entries are header lines that store them again. -/
theorem exists_printed {es : List (Bytes × Bytes)} (hp : ∀ e ∈ es, Printable e) :
    ∃ ls : List HeaderLine, lines ls = es.flatMap (fun e ↦ e.1 ++ ascii ": " ++ e.2 ++ CRLF) ∧
      ∀ h, storeLines h ls = es.foldl (fun h e ↦ h.add e.1 e.2) h := by
  induction es with
  | nil => exact ⟨[], rfl, fun h ↦ rfl⟩
  | cons e es ih =>
    obtain ⟨he, hes⟩ := List.forall_mem_cons.mp hp
    obtain ⟨ls, hls, hstore⟩ := ih hes
    have hrest : ¬ CRLF <:+: SP :: e.2 := by
      rw [List.infix_cons_iff, not_or]
      refine ⟨fun hpre ↦ ?_, he.value_crlf⟩
      exact absurd (List.cons_prefix_cons.mp hpre).1 (by decide)
    have hvalue : (SP :: e.2).dropWhile (· = SP) = e.2 := by
      rw [List.dropWhile_cons_of_pos (by simp)]
      cases hv : e.2 with
      | nil => rfl
      | cons c v =>
        have hc := he.no_blank
        rw [hv] at hc
        exact List.dropWhile_cons_of_neg (by simpa using hc)
    refine ⟨⟨e.1, SP :: e.2, he.colon_notMem, he.name_crlf, hrest⟩ :: ls, ?_, fun h ↦ ?_⟩
    · have htext : e.1 ++ ascii ": " ++ e.2 = e.1 ++ ':'.toUInt8 :: SP :: e.2 := by
        rw [List.append_assoc]
        rfl
      rw [List.flatMap_cons, ← hls, htext]
      rfl
    · rw [List.foldl_cons, ← hstore]
      change storeLines (h.add e.1 ((SP :: e.2).dropWhile (· = SP))) ls = _
      rw [hvalue]

theorem toString_eq (h : HttpHeader) : toString h = h.text := by
  rw [toString, text, List.foldl_append_eq_append]
  rfl

theorem peek_store (h : HttpHeader) (sender : Buffer) :
    ∃ sender', store h (some sender) = some sender' ∧
      sender'.peek = sender.peek ++ toString h := by
  rw [toString_eq]
  exact ⟨_, rfl, Buffer.peek_foldl_append _ h.entries sender⟩

/-- `parse` returns for every text that an `int` can count, and never more than its
length. -/
theorem parse_length (b : Bytes) (h : HttpHeader) :
    (b.length < 2 ^ 31 → ∃ i h', parse h b = .ok (i, h')) ∧
      ∀ i h', parse h b = .ok (i, h') → i ≤ b.length ∧ ∃ ls, h' = storeLines h ls := by
  obtain ⟨ls, t, rfl, ht⟩ := exists_lines b
  have hle : Int.bmod (lines ls).length (2 ^ 32) ≤ (lines ls).length := by
    rw [Int.bmod_def]
    omega
  rw [List.length_append]
  rcases ht with ⟨t, rfl⟩ | ht
  · rw [parse_lines, List.length_append, show CRLF.length = 2 from rfl]
    constructor
    · intro hlt
      rw [bmod_of_lt (by omega)]
      exact ⟨_, _, if_pos (by omega)⟩
    · intro i h' he
      dsimp only at he
      split at he
      · simp only [Except.ok.injEq, Prod.mk.injEq] at he
        exact ⟨by omega, ls, he.2.symm⟩
      · cases he
  · rw [parse, parseLoop_lines ls t rfl h, Int.zero_add, parseLoop_eq, ht]
    refine ⟨fun _ ↦ ⟨_, _, rfl⟩, fun i h' he ↦ ?_⟩
    simp only [Except.ok.injEq, Prod.mk.injEq] at he
    exact ⟨by omega, ls, he.2.symm⟩

/-- The text that a parsed header is printed as, followed by the blank line, is parsed
to that header again, and the value returned is its length when an `int` holds it. -/
theorem parse_printed (ls : List HeaderLine) :
    let h := storeLines Multimap.empty ls
    parse Multimap.empty (toString h ++ CRLF) = .ok ((toString h ++ CRLF).length, h) ↔
      (toString h ++ CRLF).length < 2 ^ 31 := by
  intro h
  obtain ⟨hw, hp⟩ := storeLines_spec WellFormed.empty nofun ls
  obtain ⟨ls', hls', hstore⟩ := exists_printed hp
  have hprint : toString h = lines ls' := by
    rw [toString_eq, hls']
    rfl
  have hback : storeLines Multimap.empty ls' = h := (hstore _).trans hw.addHeader_empty
  have hiff := @parse_lines_iff ls' Multimap.empty h []
  rw [List.append_nil] at hiff
  rw [hprint]
  exact hiff.trans (and_iff_left hback.symm)

/-- A header that `parse` has read from any text is a normal form. -/
theorem parse_toString (b : Bytes) :
    (b.length < 2 ^ 31 → ∃ i h, parse Multimap.empty b = .ok (i, h)) ∧
    ∀ i h, parse Multimap.empty b = .ok (i, h) →
      i ≤ b.length ∧
      ((toString h ++ CRLF).length < 2 ^ 31 →
        parse Multimap.empty (toString h ++ CRLF) = .ok ((toString h ++ CRLF).length, h)) ∧
      ∀ sender, ∃ sender', store h (some sender) = some sender' ∧
        sender'.peek = sender.peek ++ toString h := by
  obtain ⟨hret, hparse⟩ := parse_length b Multimap.empty
  refine ⟨hret, fun i h hb ↦ ?_⟩
  obtain ⟨hi, ls, rfl⟩ := hparse i h hb
  exact ⟨hi, (parse_printed ls).mpr, peek_store _⟩

def longLine (n : ℕ) : HeaderLine where
  name := ascii "n"
  rest := List.replicate n 'x'.toUInt8
  colon_notMem := by decide
  name_crlf := by decide
  rest_crlf h := absurd (List.eq_of_mem_replicate (h.subset List.mem_cons_self)) (by decide)

theorem value_longLine (n : ℕ) : (longLine n).value = List.replicate n 'x'.toUInt8 := by
  cases n with
  | zero => rfl
  | succ n => exact List.dropWhile_cons_of_neg (by decide)

theorem length_toString_longLine (n : ℕ) :
    n ≤ (toString (storeLines Multimap.empty [longLine n])).length := by
  have hmem : (ascii "n", (longLine n).value) ∈ (storeLines Multimap.empty [longLine n]).entries := by
    apply Multimap.mem_values.mp
    change _ ∈ (HttpHeader.add Multimap.empty (ascii "n") (longLine n).value).values (ascii "n")
    rw [values_add, if_pos (by decide)]
    simp
  obtain ⟨s, t, hst⟩ := List.append_of_mem hmem
  rw [toString_eq, text, hst, value_longLine]
  simp only [List.flatMap_append, List.flatMap_cons, List.length_append, List.length_replicate]
  omega

theorem not_parse_toString : ∃ i h,
    parse Multimap.empty (lines [longLine (2 ^ 31)]) = .ok (i, h) ∧
      parse Multimap.empty (toString h ++ CRLF) ≠ .ok ((toString h ++ CRLF).length, h) := by
  have hparse := parseLoop_lines [longLine (2 ^ 31)] [] Int.zero_bmod Multimap.empty
  rw [List.append_nil, parseLoop_eq [], show parseTurn [] = .ok .stop from rfl] at hparse
  refine ⟨_, _, hparse, fun he ↦ ?_⟩
  have hlt := (parse_printed [longLine (2 ^ 31)]).mp he
  have hle := length_toString_longLine (2 ^ 31)
  rw [List.length_append] at hlt
  omega

end HttpHeader

end Socnet.Http
