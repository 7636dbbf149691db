import Mathlib.Order.Lattice
import Mathlib.Data.List.Basic

namespace Socnet.Lib

/-- An ordered associative container with repeated keys. Entries are sorted by
key, and entries of one key stand in the order of their insertion. -/
structure Multimap (κ ν : Type) [LinearOrder κ] where
  entries : List (κ × ν)
  sorted : entries.Pairwise fun a b ↦ a.1 ≤ b.1

namespace Multimap

variable {κ ν : Type} [LinearOrder κ]

def empty : Multimap κ ν := ⟨[], List.Pairwise.nil⟩

/-- All values of a key, oldest first. -/
def values (m : Multimap κ ν) (k : κ) : List ν := (m.entries.filter (·.1 = k)).map Prod.snd

def find (m : Multimap κ ν) (k : κ) : Option ν := (m.values k).head?

/-- Insertion at the upper bound of a key. -/
def insertUpper (k : κ) (v : ν) : List (κ × ν) → List (κ × ν)
  | [] => [(k, v)]
  | e :: l => if k < e.1 then (k, v) :: e :: l else e :: insertUpper k v l

theorem mem_insertUpper {k : κ} {v : ν} {l : List (κ × ν)} {x : κ × ν}
    (h : x ∈ insertUpper k v l) : x = (k, v) ∨ x ∈ l := by
  induction l with
  | nil => simpa [insertUpper] using h
  | cons e l ih =>
    simp only [insertUpper] at h
    split at h
    · simpa using h
    · cases List.mem_cons.mp h with
      | inl h => exact .inr (h ▸ List.mem_cons_self)
      | inr h => exact (ih h).imp_right (List.mem_cons_of_mem e)

theorem sorted_insertUpper (k : κ) (v : ν) {l : List (κ × ν)}
    (h : l.Pairwise fun a b ↦ a.1 ≤ b.1) :
    (insertUpper k v l).Pairwise fun a b ↦ a.1 ≤ b.1 := by
  induction l with
  | nil => simp [insertUpper]
  | cons e l ih =>
    obtain ⟨he, hl⟩ := List.pairwise_cons.mp h
    simp only [insertUpper]
    split
    · rename_i hlt
      refine List.pairwise_cons.mpr ⟨fun x hx ↦ ?_, h⟩
      cases List.mem_cons.mp hx with
      | inl hx => exact hx ▸ hlt.le
      | inr hx => exact hlt.le.trans (he x hx)
    · rename_i hge
      refine List.pairwise_cons.mpr ⟨fun x hx ↦ ?_, ih hl⟩
      cases mem_insertUpper hx with
      | inl hx => exact hx ▸ not_lt.mp hge
      | inr hx => exact he x hx

def emplace (m : Multimap κ ν) (k : κ) (v : ν) : Multimap κ ν :=
  ⟨insertUpper k v m.entries, sorted_insertUpper k v m.sorted⟩

/-- Overwriting the value at the lower bound of a key. -/
def assignLower (k : κ) (v : ν) : List (κ × ν) → List (κ × ν)
  | [] => []
  | e :: l => if e.1 = k then (k, v) :: l else e :: assignLower k v l

theorem keys_assignLower (k : κ) (v : ν) (l : List (κ × ν)) :
    (assignLower k v l).map Prod.fst = l.map Prod.fst := by
  induction l with
  | nil => rfl
  | cons e l ih =>
    simp only [assignLower]
    split
    · rename_i h
      simp [h]
    · simp [ih]

theorem mem_assignLower {k : κ} {v : ν} {l : List (κ × ν)} {x : κ × ν}
    (h : x ∈ assignLower k v l) : x = (k, v) ∨ x ∈ l := by
  induction l with
  | nil => cases h
  | cons e l ih =>
    simp only [assignLower] at h
    split at h
    · exact (List.mem_cons.mp h).imp_right (List.mem_cons_of_mem e)
    · cases List.mem_cons.mp h with
      | inl h => exact .inr (h ▸ List.mem_cons_self)
      | inr h => exact (ih h).imp_right (List.mem_cons_of_mem e)

def assign (m : Multimap κ ν) (k : κ) (v : ν) : Multimap κ ν :=
  ⟨assignLower k v m.entries, by
    have h := List.pairwise_map.mpr m.sorted
    rw [← keys_assignLower k v] at h
    exact List.pairwise_map.mp h⟩

def erase (m : Multimap κ ν) (k : κ) : Multimap κ ν :=
  ⟨m.entries.filter (·.1 ≠ k), m.sorted.filter _⟩

@[simp] theorem values_empty (k : κ) : (empty : Multimap κ ν).values k = [] := rfl

@[simp] theorem values_emplace_self (m : Multimap κ ν) (k : κ) (v : ν) :
    (m.emplace k v).values k = m.values k ++ [v] := by
  obtain ⟨l, hl⟩ := m
  simp only [values, emplace]
  induction l with
  | nil => simp [insertUpper]
  | cons e l ih =>
    obtain ⟨he, hl'⟩ := List.pairwise_cons.mp hl
    simp only [insertUpper]
    split
    · rename_i hlt
      have hnone : (e :: l).filter (·.1 = k) = [] := by
        simp only [List.filter_eq_nil_iff, decide_eq_true_eq]
        intro x hx
        cases List.mem_cons.mp hx with
        | inl hx => exact hx ▸ hlt.ne'
        | inr hx => exact (hlt.trans_le (he x hx)).ne'
      rw [List.filter_cons_of_pos (by simp), hnone]
      rfl
    · rw [List.filter_cons, List.filter_cons]
      split
      · rw [List.map_cons, List.map_cons, List.cons_append, ih hl']
      · exact ih hl'

@[simp] theorem values_emplace_of_ne (m : Multimap κ ν) {k k' : κ} (v : ν) (hk : k ≠ k') :
    (m.emplace k v).values k' = m.values k' := by
  obtain ⟨l, hl⟩ := m
  simp only [values, emplace]
  induction l with
  | nil => simp [insertUpper, hk]
  | cons e l ih =>
    simp only [insertUpper]
    split
    · rw [List.filter_cons_of_neg (by simpa using hk)]
    · rw [List.filter_cons, List.filter_cons]
      split
      · rw [List.map_cons, List.map_cons, ih (List.Pairwise.of_cons hl)]
      · exact ih (List.Pairwise.of_cons hl)

@[simp] theorem values_assign_self (m : Multimap κ ν) (k : κ) (v : ν) (h : m.values k ≠ []) :
    (m.assign k v).values k = v :: (m.values k).tail := by
  obtain ⟨l, hl⟩ := m
  simp only [values, assign] at h ⊢
  induction l with
  | nil => simp at h
  | cons e l ih =>
    simp only [assignLower]
    split
    · rename_i he
      simp [he]
    · rename_i he
      rw [List.filter_cons_of_neg (by simpa using he)] at h ⊢
      rw [List.filter_cons_of_neg (by simpa using he)]
      exact ih (List.Pairwise.of_cons hl) h

@[simp] theorem values_assign_of_ne (m : Multimap κ ν) {k k' : κ} (v : ν) (hk : k ≠ k') :
    (m.assign k v).values k' = m.values k' := by
  obtain ⟨l, hl⟩ := m
  simp only [values, assign]
  induction l with
  | nil => rfl
  | cons e l ih =>
    simp only [assignLower]
    split
    · rename_i he
      rw [List.filter_cons_of_neg (by simpa using hk),
        List.filter_cons_of_neg (by simpa [he] using hk)]
    · rw [List.filter_cons, List.filter_cons]
      split
      · rw [List.map_cons, List.map_cons, ih (List.Pairwise.of_cons hl)]
      · exact ih (List.Pairwise.of_cons hl)

@[simp] theorem values_erase_self (m : Multimap κ ν) (k : κ) : (m.erase k).values k = [] := by
  simp [values, erase, List.filter_filter]

theorem values_erase_of_ne (m : Multimap κ ν) {k k' : κ} (hk : k ≠ k') :
    (m.erase k).values k' = m.values k' := by
  simp only [values, erase, List.filter_filter]
  refine congrArg _ (List.filter_congr fun e _ ↦ ?_)
  simp only [ne_eq, decide_not, Bool.and_eq_left_iff_imp, decide_eq_true_eq, Bool.not_eq_true',
    decide_eq_false_iff_not]
  rintro rfl
  exact hk.symm

theorem mem_values {m : Multimap κ ν} {k : κ} {v : ν} :
    v ∈ m.values k ↔ (k, v) ∈ m.entries := by
  simp [values]

theorem head_le {e : κ × ν} {l : List (κ × ν)} (hl : (e :: l).Pairwise fun a b ↦ a.1 ≤ b.1)
    {k : κ} (hk : ((e :: l).filter (·.1 = k)).map Prod.snd ≠ []) : e.1 ≤ k := by
  obtain ⟨x, hx⟩ := List.exists_mem_of_ne_nil _ (mt (congrArg (List.map Prod.snd)) hk)
  obtain ⟨hx, hxk⟩ := List.mem_filter.mp hx
  rw [← of_decide_eq_true hxk]
  cases List.mem_cons.mp hx with
  | inl hx => exact hx ▸ le_rfl
  | inr hx => exact (List.pairwise_cons.mp hl).1 x hx

/-- The values of all keys make the entries: the keys stand in their order, and
the entries of one key in that of its values. -/
theorem ext_values {m m' : Multimap κ ν} (h : ∀ k, m.values k = m'.values k) : m = m' := by
  obtain ⟨l, hl⟩ := m
  obtain ⟨l', hl'⟩ := m'
  simp only [mk.injEq]
  simp only [values] at h
  induction l generalizing l' with
  | nil =>
    cases l' with
    | nil => rfl
    | cons e' l' => simpa using h e'.1
  | cons e l ih =>
    cases l' with
    | nil => simpa using h e.1
    | cons e' l' =>
      have hkey : e.1 = e'.1 := by
        apply le_antisymm
        · exact head_le hl (by rw [h]; simp)
        · exact head_le hl' (by rw [← h]; simp)
      have hhead := h e.1
      rw [List.filter_cons_of_pos (by simp), List.filter_cons_of_pos (by simp [hkey])] at hhead
      simp only [List.map_cons, List.cons.injEq] at hhead
      have htail : ∀ k, (l.filter (·.1 = k)).map Prod.snd = (l'.filter (·.1 = k)).map Prod.snd := by
        intro k
        by_cases hk : e.1 = k
        · exact hk ▸ hhead.2
        · have hk' := h k
          rwa [List.filter_cons_of_neg (by simpa using hk),
            List.filter_cons_of_neg (by simpa [← hkey] using hk)] at hk'
      rw [Prod.ext hkey hhead.1, ih (List.Pairwise.of_cons hl) l' (List.Pairwise.of_cons hl') htail]

theorem find_eq_none_iff {m : Multimap κ ν} {k : κ} : m.find k = none ↔ m.values k = [] := by
  simp [find]

end Multimap

end Socnet.Lib
