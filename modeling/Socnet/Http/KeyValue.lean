import Mathlib.Data.List.TakeWhile
import Socnet.Http.HttpRequest

namespace Socnet.Http.HttpRequest

open Lib Sequence Utility.EncodeUtil

/-- The text ends in a separator and blanks only, so that the blank count of
`parseKeyValue` runs on into the memory behind it. -/
def OpenEnded (s2 : UInt8) (s : Bytes) : Prop :=
  ∃ k < s.length, s2 :: List.replicate k SP <:+ s

instance (s2 : UInt8) : DecidablePred (OpenEnded s2) := fun s ↦
  inferInstanceAs (Decidable (∃ k < s.length, s2 :: List.replicate k SP <:+ s))

theorem OpenEnded.of_suffix {s2 : UInt8} {s t : Bytes} (h : OpenEnded s2 t) (ht : t <:+ s) :
    OpenEnded s2 s := by
  obtain ⟨k, hk, h⟩ := h
  exact ⟨k, hk.trans_le ht.length_le, h.trans ht⟩

def lead (l : Bytes) : ℕ := (l.takeWhile (· = SP)).length

theorem lead_le (l : Bytes) : lead l ≤ l.length := (List.takeWhile_sublist _).length_le

theorem blanks_append (l : Bytes) {x : UInt8} (hx : x ≠ SP) (m : Bytes) :
    blanks (l ++ x :: m) = .ok (lead l) := by
  induction l with
  | nil => simp [blanks, hx, lead]
  | cons c l ih =>
    by_cases hc : c = SP
    · simp [blanks, hc, ih, lead, bind, Except.bind]
    · simp [blanks, hc, lead]

theorem blanks_cases (l m : Bytes) :
    l = List.replicate l.length SP ∨ blanks (l ++ m) = .ok (lead l) := by
  induction l with
  | nil => exact .inl rfl
  | cons c l ih =>
    by_cases hc : c = SP
    · cases ih with
      | inl h => exact .inl (by rw [List.length_cons, List.replicate_succ, ← h, hc])
      | inr h => exact .inr (by simp [blanks, hc, h, lead, bind, Except.bind])
    · exact .inr (by simp [blanks, hc, lead])

theorem openEnded_of_find {s2 : UInt8} {s : Bytes} {p : ℕ} (hp : find [s2] s = some p)
    (hb : s.drop (p + 1) = List.replicate (s.drop (p + 1)).length SP) : OpenEnded s2 s := by
  have hlen : p + 1 ≤ s.length := find_length hp
  have hs := (find_split (by simp) hp).1
  refine ⟨(s.drop (p + 1)).length, by rw [List.length_drop]; omega, s.take p, ?_⟩
  rw [← hb]
  simpa using hs.symm

theorem blanks_find {s2 : UInt8} {s : Bytes} {p : ℕ} (hp : find [s2] s = some p)
    {memory : Bytes} (h : OpenEnded s2 s → ∃ x ∈ memory.head?, x ≠ SP) :
    blanks ((s ++ memory).drop (p + 1)) = .ok (lead (s.drop (p + 1))) := by
  have hlen : p + 1 ≤ s.length := find_length hp
  rw [List.drop_append_of_le_length hlen]
  cases blanks_cases (s.drop (p + 1)) memory with
  | inr hb => exact hb
  | inl hb =>
    obtain ⟨x, hm, hx⟩ := h (openEnded_of_find hp hb)
    obtain ⟨m, rfl⟩ := List.head?_eq_some_iff.mp hm
    exact blanks_append _ hx m

theorem terminator_head : ∃ x ∈ terminator.head?, x ≠ SP := ⟨0, rfl, by decide⟩

/-- When the byte behind an open-ended text is no blank, parsing returns, and
what it returns does not depend on the memory. -/
theorem parseKeyValue_ok {memory : Bytes} (s1 s2 : UInt8) (s : Bytes) (c : HttpMap Bytes Bytes)
    (h : OpenEnded s2 s → ∃ x ∈ memory.head?, x ≠ SP) :
    ∃ c', parseKeyValue memory s1 s2 s c = .ok c' ∧
      parseKeyValue terminator s1 s2 s c = .ok c' := by
  induction hn : s.length using Nat.strong_induction_on generalizing s c with
  | _ n ih =>
    subst hn
    have hterm : OpenEnded s2 s → ∃ x ∈ terminator.head?, x ≠ SP :=
      fun _ ↦ terminator_head
    rw [parseKeyValue, parseKeyValue]
    by_cases hs : s = []
    · simp [hs]
    · rw [dif_neg hs, dif_neg hs]
      cases hp : find [s2] s with
      | none => exact ⟨_, rfl, rfl⟩
      | some p =>
        have hlen : p + 1 ≤ s.length := find_length hp
        have hlead := lead_le (s.drop (p + 1))
        rw [List.length_drop] at hlead
        simp only [blanks_find hp h, blanks_find hp hterm]
        rw [if_pos (by omega), if_pos (by omega)]
        refine ih _ ?_ _ _ (fun ho ↦ h (ho.of_suffix (List.drop_suffix _ _))) rfl
        rw [List.length_drop]
        omega

theorem parseKeyValue_terminator (s1 s2 : UInt8) (s : Bytes) (c : HttpMap Bytes Bytes) :
    ∃ c', parseKeyValue terminator s1 s2 s c = .ok c' := by
  obtain ⟨c', h, -⟩ := parseKeyValue_ok s1 s2 s c (fun _ ↦ terminator_head)
  exact ⟨c', h⟩

theorem blanks_replicate (k : ℕ) (m : Bytes) :
    blanks (List.replicate k SP ++ m) = (blanks m).map (· + k) := by
  induction k with
  | zero => cases h : blanks m <;> simp [Except.map, h]
  | succ k ih =>
    rw [List.replicate_succ, List.cons_append, blanks, if_pos rfl, ih]
    cases blanks m with
    | error e => rfl
    | ok n => rfl

theorem OpenEnded.drop_lead {s2 : UInt8} {s : Bytes} {p : ℕ} (h : OpenEnded s2 s)
    (hb : s.drop (p + 1) ≠ List.replicate (s.drop (p + 1)).length SP) :
    OpenEnded s2 (s.drop (p + lead (s.drop (p + 1)) + 1)) := by
  obtain ⟨k, hk, hsuf⟩ := h
  have hsplit := List.takeWhile_append_dropWhile (p := (· = SP)) (l := s.drop (p + 1))
  have hdrop : s.drop (p + lead (s.drop (p + 1)) + 1) = (s.drop (p + 1)).dropWhile (· = SP) := by
    rw [Nat.add_right_comm, ← List.drop_drop]
    conv_lhs => rw [← hsplit]
    exact List.drop_left' (by rw [hsplit]; rfl)
  rw [hdrop]
  cases hw : (s.drop (p + 1)).dropWhile (· = SP) with
  | nil =>
    rw [hw, List.append_nil] at hsplit
    refine absurd (List.eq_replicate_of_mem fun x hx ↦ ?_) hb
    rw [← hsplit] at hx
    simpa using List.mem_takeWhile_imp hx
  | cons y ys =>
    have hy : y ≠ SP := by
      have := List.head?_dropWhile_not (· = SP) (s.drop (p + 1))
      simpa [hw] using this
    have ht : y :: ys <:+ s := by
      rw [← hw, ← hdrop]
      exact List.drop_suffix _ _
    rcases List.suffix_or_suffix_of_suffix hsuf ht with h | h
    · exact ⟨k, by simpa [Nat.lt_succ_iff] using h.length_le, h⟩
    · rcases List.suffix_cons_iff.mp h with h | h
      · exact ⟨k, by simp [h], h ▸ List.suffix_rfl⟩
      · exact absurd (List.eq_of_mem_replicate (h.subset List.mem_cons_self)) hy

/-- An open-ended text is only parsed to its end in front of a byte other than
a blank. -/
theorem head_of_parseKeyValue {memory : Bytes} {s1 s2 : UInt8} {s : Bytes}
    {c c' : HttpMap Bytes Bytes} (hok : parseKeyValue memory s1 s2 s c = .ok c')
    (ho : OpenEnded s2 s) : ∃ x ∈ memory.head?, x ≠ SP := by
  induction hn : s.length using Nat.strong_induction_on generalizing s c with
  | _ n ih =>
    subst hn
    have hmem : s2 ∈ s := by
      obtain ⟨k, -, hsuf⟩ := ho
      exact hsuf.subset List.mem_cons_self
    have hs : s ≠ [] := List.ne_nil_of_mem hmem
    rw [parseKeyValue, dif_neg hs] at hok
    cases hp : find [s2] s with
    | none => exact absurd hmem (find_singleton_none.mp hp)
    | some p =>
      have hlen : p + 1 ≤ s.length := find_length hp
      simp only [hp, List.drop_append_of_le_length hlen] at hok
      by_cases hb : s.drop (p + 1) = List.replicate (s.drop (p + 1)).length SP
      · rw [hb, blanks_replicate] at hok
        cases memory with
        | nil => cases hok
        | cons x m =>
          refine ⟨x, rfl, ?_⟩
          rintro rfl
          rw [blanks, if_pos rfl] at hok
          cases hm : blanks m with
          | error e =>
            rw [hm] at hok
            cases hok
          | ok j =>
            rw [hm] at hok
            simp only [bind, Except.bind, Except.map, List.length_drop] at hok
            rw [if_neg (by omega)] at hok
            cases hok
      · have hlead := (blanks_cases (s.drop (p + 1)) memory).resolve_left hb
        have hle := lead_le (s.drop (p + 1))
        rw [List.length_drop] at hle
        simp only [hlead] at hok
        rw [if_pos (by omega)] at hok
        refine ih _ ?_ hok (ho.drop_lead hb) rfl
        rw [List.length_drop]
        omega

/-- What follows a text in memory has no say in its parsing just when the text does not
end in a separator and blanks. -/
theorem parseKeyValue_memory_iff (s : Bytes) (c : HttpMap Bytes Bytes) :
    (∀ memory memory', ∃ c', parseKeyValue memory '='.toUInt8 '&'.toUInt8 s c = .ok c' ∧
      parseKeyValue memory' '='.toUInt8 '&'.toUInt8 s c = .ok c') ↔ ¬ OpenEnded '&'.toUInt8 s := by
  constructor
  · intro hall ho
    obtain ⟨c', hok, -⟩ := hall [] []
    obtain ⟨x, hx, -⟩ := head_of_parseKeyValue hok ho
    cases hx
  · intro ho memory memory'
    obtain ⟨c', hok, hterm⟩ := parseKeyValue_ok '='.toUInt8 '&'.toUInt8 s c
      (fun h ↦ absurd h ho : OpenEnded '&'.toUInt8 s → ∃ x ∈ memory.head?, x ≠ SP)
    obtain ⟨c'', hok', hterm'⟩ := parseKeyValue_ok '='.toUInt8 '&'.toUInt8 s c
      (fun h ↦ absurd h ho : OpenEnded '&'.toUInt8 s → ∃ x ∈ memory'.head?, x ≠ SP)
    rw [hterm] at hterm'
    cases hterm'
    exact ⟨c', hok, hok'⟩

/-- A buffer that holds a form behind which the last one still lies. -/
def reused : Net.Buffer := (((Net.Buffer.init 8).append (ascii "a=b& c")).retiredAll).append (ascii "a=b&")

theorem not_parseKeyValue_memory : reused.peek = ascii "a=b&" ∧
    ¬ ∃ c', parseKeyValue reused.memory '='.toUInt8 '&'.toUInt8 reused.peek ∅ = .ok c' ∧
      parseKeyValue terminator '='.toUInt8 '&'.toUInt8 reused.peek ∅ = .ok c' := by
  refine ⟨by decide, ?_⟩
  rintro ⟨c', hok, -⟩
  obtain ⟨x, hx, hsp⟩ := head_of_parseKeyValue hok (by decide)
  have hmem : reused.memory.head? = some SP := by decide
  rw [hmem] at hx
  exact hsp (Option.some.inj hx).symm

end Socnet.Http.HttpRequest
