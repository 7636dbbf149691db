import Mathlib.Data.List.Infix
import Mathlib.Data.List.Basic

namespace Socnet.Lib.Sequence

variable {α : Type} [DecidableEq α]

/-- Position of the first occurrence of a pattern in a sequence. -/
def find (pat : List α) : List α → Option ℕ
  | [] => if pat = [] then some 0 else none
  | a :: l => if pat <+: a :: l then some 0 else (find pat l).map (· + 1)

theorem find_length {pat l : List α} {n : ℕ} (h : find pat l = some n) :
    n + pat.length ≤ l.length := by
  induction l generalizing n with
  | nil =>
    simp only [find] at h
    split at h
    · rename_i hp
      simp only [Option.some.injEq] at h
      subst hp h
      simp
    · simp at h
  | cons a l ih =>
    simp only [find] at h
    split at h
    · rename_i hp
      simp only [Option.some.injEq] at h
      subst h
      simpa using hp.length_le
    · obtain ⟨m, hm, rfl⟩ := Option.map_eq_some_iff.mp h
      have := ih hm
      simp only [List.length_cons]
      omega

theorem find_split {pat l : List α} {n : ℕ} (hp : pat ≠ []) (h : find pat l = some n) :
    l = l.take n ++ pat ++ l.drop (n + pat.length) ∧ ¬ pat <:+: l.take n := by
  induction l generalizing n with
  | nil => simp [find, hp] at h
  | cons a l ih =>
    simp only [find] at h
    split at h
    · rename_i hpre
      simp only [Option.some.injEq] at h
      subst h
      obtain ⟨t, ht⟩ := hpre
      refine ⟨?_, by simpa using hp⟩
      simp [← ht]
    · rename_i hpre
      obtain ⟨m, hm, rfl⟩ := Option.map_eq_some_iff.mp h
      obtain ⟨hs, hno⟩ := ih hm
      refine ⟨?_, ?_⟩
      · rw [Nat.add_right_comm, List.take_succ_cons, List.drop_succ_cons]
        simpa using hs
      · rw [List.take_succ_cons, List.infix_cons_iff]
        rintro (hc | hc)
        · refine hpre (hc.trans ?_)
          exact List.cons_prefix_cons.mpr ⟨rfl, List.take_prefix _ _⟩
        · exact hno hc

/-- The pattern ends the stretch that it is found in. -/
theorem take_of_find {pat l : List α} {n : ℕ} (hp : pat ≠ []) (h : find pat l = some n) :
    l.take (n + pat.length) = l.take n ++ pat := by
  have hpre : l.take n ++ pat <+: l := ⟨l.drop (n + pat.length), (find_split hp h).1.symm⟩
  have hlen : (l.take n ++ pat).length = n + pat.length := by
    have := find_length h
    rw [List.length_append, List.length_take]
    omega
  rw [← hlen]
  exact (List.prefix_iff_eq_take.mp hpre).symm

theorem find_eq_none {pat l : List α} (h : find pat l = none) : ¬ pat <:+: l := by
  induction l with
  | nil =>
    simp only [find] at h
    split at h
    · simp at h
    · rename_i hp
      simpa using hp
  | cons a l ih =>
    simp only [find] at h
    split at h
    · simp at h
    · rename_i hpre
      rw [List.infix_cons_iff]
      rintro (hc | hc)
      · exact hpre hc
      · exact ih (Option.map_eq_none_iff.mp h) hc

theorem find_of_not_infix {pat l : List α} (h : ¬ pat <:+: l) : find pat l = none := by
  cases hf : find pat l with
  | none => rfl
  | some n =>
    by_cases hp : pat = []
    · exact absurd (hp ▸ List.nil_infix) h
    · have hs := (find_split hp hf).1
      exact absurd ⟨_, _, hs.symm⟩ h

theorem find_append {pat l : List α} {n : ℕ} (h : find pat l = some n) (t : List α) :
    find pat (l ++ t) = some n := by
  induction l generalizing n with
  | nil =>
    simp only [find] at h
    split at h
    · rename_i hp
      simp only [Option.some.injEq] at h
      subst hp h
      cases t <;> simp [find]
    · simp at h
  | cons a l ih =>
    have hlen := find_length h
    simp only [find] at h
    simp only [List.cons_append, find]
    split at h
    · rename_i hpre
      rw [if_pos]
      · exact h
      · simpa using hpre.trans (List.prefix_append (a :: l) t)
    · rename_i hpre
      obtain ⟨m, hm, rfl⟩ := Option.map_eq_some_iff.mp h
      rw [if_neg, ih hm, Option.map_some]
      intro hc
      exact hpre (List.prefix_of_prefix_length_le hc (List.prefix_append (a :: l) t) (by omega))

theorem find_singleton {c : α} {u : List α} (h : c ∉ u) (t : List α) :
    find [c] (u ++ c :: t) = some u.length := by
  induction u with
  | nil => simp [find]
  | cons a u ih =>
    simp only [List.mem_cons, not_or] at h
    simp only [List.cons_append, find, ih h.2]
    rw [if_neg]
    · simp
    · simpa using h.1

theorem find_singleton_none {c : α} {u : List α} : find [c] u = none ↔ c ∉ u := by
  constructor
  · intro h
    exact mt (List.singleton_infix_iff c u).mpr (find_eq_none h)
  · intro h
    exact find_of_not_infix (mt (List.singleton_infix_iff c u).mp h)

theorem mem_of_find {c : α} {u : List α} {n : ℕ} (h : find [c] u = some n) : c ∈ u := by
  by_contra hc
  rw [find_singleton_none.mpr hc] at h
  cases h

omit [DecidableEq α] in
theorem infix_of_infix_append {a : α} {s u v : List α} (h : a ∉ u) (hi : a :: s <:+: u ++ v) :
    a :: s <:+: v := by
  induction u with
  | nil => exact hi
  | cons x u ih =>
    simp only [List.mem_cons, not_or] at h
    rw [List.cons_append, List.infix_cons_iff] at hi
    cases hi with
    | inl hp => exact absurd (List.cons_prefix_cons.mp hp).1 h.1
    | inr hi => exact ih h.2 hi

/-- A two-symbol mark cannot overlap itself, so it is found right after a
stretch that does not hold it, whatever that stretch ends in. -/
theorem find_pair {a b : α} (hab : a ≠ b) {u : List α} (h : ¬ [a, b] <:+: u) (t : List α) :
    find [a, b] (u ++ a :: b :: t) = some u.length := by
  induction u with
  | nil => simp [find]
  | cons x u ih =>
    rw [List.infix_cons_iff] at h
    push Not at h
    simp only [List.cons_append, find, ih h.2]
    rw [if_neg]
    · simp
    · cases u with
      | nil =>
        intro hc
        have := (List.cons_prefix_cons.mp (List.cons_prefix_cons.mp hc).2).1
        exact hab this.symm
      | cons y u =>
        intro hc
        refine h.1 ?_
        obtain ⟨h₁, h₂⟩ := List.cons_prefix_cons.mp hc
        obtain ⟨h₃, -⟩ := List.cons_prefix_cons.mp h₂
        subst h₁ h₃
        exact ⟨u, rfl⟩

omit [DecidableEq α] in
/-- A two-symbol mark does not reach over a third symbol. -/
theorem pair_infix_append_cons {a b c : α} (ha : a ≠ c) (hb : b ≠ c) (u v : List α) :
    [a, b] <:+: u ++ c :: v ↔ [a, b] <:+: u ∨ [a, b] <:+: v := by
  induction u with
  | nil =>
    rw [List.nil_append, List.infix_cons_iff, List.cons_prefix_cons]
    simp [ha]
  | cons x u ih =>
    rw [List.cons_append, List.infix_cons_iff, ih, List.infix_cons_iff, or_assoc]
    refine or_congr_left ?_
    cases u with
    | nil => simp [hb]
    | cons y u => simp

end Socnet.Lib.Sequence
