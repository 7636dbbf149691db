import Mathlib.Data.List.Basic
import Mathlib.Data.Nat.Basic
import Mathlib.Logic.Equiv.Basic
import Mathlib.Order.Lattice
import Mathlib.Order.Nat

namespace Socnet.Lib.Heap

variable {τ : Type} [LinearOrder τ] {n i : ℕ} {f : ℕ → τ}

/-- Parent of a node of a binary tree laid out in an array; the root is its own. -/
def parent (j : ℕ) : ℕ := (j - 1) / 2

theorem parent_lt {j : ℕ} (h : 0 < j) : parent j < j := by
  unfold parent
  omega

theorem parent_eq_iff {j p : ℕ} (h : 0 < j) : parent j = p ↔ j = 2 * p + 1 ∨ j = 2 * p + 2 := by
  unfold parent
  omega

/-- No key is less than its parent's, among the first `n`. -/
def Ordered (n : ℕ) (f : ℕ → τ) : Prop := ∀ j, 0 < j → j < n → f (parent j) ≤ f j

theorem Ordered.root_le (h : Ordered n f) {j : ℕ} (hj : j < n) : f 0 ≤ f j := by
  induction j using Nat.strong_induction_on with
  | _ j ih =>
    by_cases h0 : j = 0
    · rw [h0]
    · have hp := parent_lt (Nat.pos_of_ne_zero h0)
      calc f 0 ≤ f (parent j) := ih _ hp (hp.trans hj)
        _ ≤ f j := h j (Nat.pos_of_ne_zero h0) hj

/-- Ordered except that the key at `i` may be too small: what goes into `i` is
out of order, what goes out of it is not, and no child of `i` would be out of
order under the parent of `i`. -/
structure UpFrom (n : ℕ) (f : ℕ → τ) (i : ℕ) : Prop where
  edge : ∀ j, 0 < j → j < n → j ≠ i → f (parent j) ≤ f j
  skip : 0 < i → ∀ j, 0 < j → j < n → parent j = i → f (parent i) ≤ f j

theorem Ordered.upFrom (h : Ordered n f) (hi : 0 < i → i < n) : UpFrom n f i where
  edge j h0 hj _ := h j h0 hj
  skip hi0 j h0 hj hp := (h i hi0 (hi hi0)).trans (hp ▸ h j h0 hj)

theorem UpFrom.ordered (h : UpFrom n f i) (hi : 0 < i → f (parent i) ≤ f i) : Ordered n f := by
  intro j h0 hj
  by_cases hji : j = i
  · rw [hji] at h0 ⊢
    exact hi h0
  · exact h.edge j h0 hj hji

theorem UpFrom.step (h : UpFrom n f i) (h0 : 0 < i) (hi : i < n) (hle : f i ≤ f (parent i)) :
    UpFrom n (f ∘ Equiv.swap i (parent i)) (parent i) where
  edge j hj0 hj hne := by
    have hp := parent_lt h0
    simp only [Function.comp_apply]
    by_cases hji : j = i
    · rw [hji, Equiv.swap_apply_left, Equiv.swap_apply_right]
      exact hle
    · rw [Equiv.swap_apply_of_ne_of_ne hji hne]
      by_cases hpi : parent j = i
      · rw [hpi, Equiv.swap_apply_left]
        exact h.skip h0 j hj0 hj hpi
      · by_cases hpp : parent j = parent i
        · rw [hpp, Equiv.swap_apply_right]
          exact hle.trans (hpp ▸ h.edge j hj0 hj hji)
        · rw [Equiv.swap_apply_of_ne_of_ne hpi hpp]
          exact h.edge j hj0 hj hji
  skip hp0 j hj0 hj hjp := by
    have hp := parent_lt h0
    have hpp := parent_lt hp0
    have htop : f (parent (parent i)) ≤ f (parent i) :=
      h.edge _ hp0 (hp.trans hi) hp.ne
    simp only [Function.comp_apply]
    rw [Equiv.swap_apply_of_ne_of_ne (by omega) hpp.ne]
    by_cases hji : j = i
    · rw [hji, Equiv.swap_apply_left]
      exact htop
    · have hne : j ≠ parent i := by
        have := parent_lt hj0
        omega
      rw [Equiv.swap_apply_of_ne_of_ne hji hne]
      exact htop.trans (hjp ▸ h.edge j hj0 hj hji)

/-- Ordered except that the key at `i` may be too large. -/
structure DownFrom (n : ℕ) (f : ℕ → τ) (i : ℕ) : Prop where
  edge : ∀ j, 0 < j → j < n → parent j ≠ i → f (parent j) ≤ f j
  skip : 0 < i → ∀ j, 0 < j → j < n → parent j = i → f (parent i) ≤ f j

theorem DownFrom.ordered (h : DownFrom n f i)
    (hi : ∀ j, 0 < j → j < n → parent j = i → f i ≤ f j) : Ordered n f := by
  intro j h0 hj
  by_cases hji : parent j = i
  · rw [hji]
    exact hi j h0 hj hji
  · exact h.edge j h0 hj hji

theorem DownFrom.step {c : ℕ} (h : DownFrom n f i) (h0 : 0 < c) (hc : c < n) (hp : parent c = i)
    (hmin : ∀ j, 0 < j → j < n → parent j = i → f c ≤ f j) (hle : f c ≤ f i) :
    DownFrom n (f ∘ Equiv.swap i c) c where
  edge j hj0 hj hne := by
    have hci : i < c := hp ▸ parent_lt h0
    simp only [Function.comp_apply]
    by_cases hpi : parent j = i
    · rw [hpi, Equiv.swap_apply_left]
      by_cases hjc : j = c
      · rw [hjc, Equiv.swap_apply_right]
        exact hle
      · have hji : j ≠ i := by
          have := parent_lt hj0
          omega
        rw [Equiv.swap_apply_of_ne_of_ne hji hjc]
        exact hmin j hj0 hj hpi
    · rw [Equiv.swap_apply_of_ne_of_ne hpi hne]
      have hedge := h.edge j hj0 hj hpi
      by_cases hji : j = i
      · rw [hji, Equiv.swap_apply_left]
        rw [hji] at hj0
        exact h.skip hj0 c h0 hc hp
      · have hjc : j ≠ c := fun hjc ↦ hpi (hjc ▸ hp)
        rw [Equiv.swap_apply_of_ne_of_ne hji hjc]
        exact hedge
  skip _ j hj0 hj hjp := by
    have hcj : c < j := hjp ▸ parent_lt hj0
    have hci : i < c := hp ▸ parent_lt h0
    simp only [Function.comp_apply]
    rw [hp, Equiv.swap_apply_left, Equiv.swap_apply_of_ne_of_ne (by omega) (by omega)]
    exact hjp ▸ h.edge j hj0 hj (by omega)

theorem Ordered.downFrom_update (h : Ordered n f) (hi : i < n) {x : τ} (hle : f i ≤ x) :
    DownFrom n (Function.update f i x) i where
  edge j h0 hj hp := by
    rw [Function.update_of_ne hp]
    by_cases hji : j = i
    · rw [hji, Function.update_self]
      exact (hji ▸ h j h0 hj).trans hle
    · rw [Function.update_of_ne hji]
      exact h j h0 hj
  skip hi0 j h0 hj hp := by
    have hji : i < j := hp ▸ parent_lt h0
    rw [Function.update_of_ne (parent_lt hi0).ne, Function.update_of_ne hji.ne']
    exact (h i hi0 hi).trans (hp ▸ h j h0 hj)

theorem Ordered.upFrom_update (h : Ordered n f) (hi : i < n) {x : τ} (hle : x ≤ f i) :
    UpFrom n (Function.update f i x) i where
  edge j h0 hj hji := by
    rw [Function.update_of_ne hji]
    by_cases hp : parent j = i
    · rw [hp, Function.update_self]
      exact hle.trans (hp ▸ h j h0 hj)
    · rw [Function.update_of_ne hp]
      exact h j h0 hj
  skip hi0 j h0 hj hp := by
    have hji : i < j := hp ▸ parent_lt h0
    rw [Function.update_of_ne (parent_lt hi0).ne, Function.update_of_ne hji.ne']
    exact (h i hi0 hi).trans (hp ▸ h j h0 hj)

section Hole

variable {α : Type} {l : List α} {j : ℕ} {v x : α}

theorem getElem?_set_set (hi : i < l.length) (hx : l[j]? = some x) (k : ℕ) :
    ((l.set i x).set j v)[k]? = (l.set i v)[Equiv.swap i j k]? := by
  have hj : j < l.length := (List.getElem?_eq_some_iff.mp hx).1
  by_cases hki : k = i
  · subst hki
    rw [Equiv.swap_apply_left]
    by_cases hjk : j = k
    · subst hjk
      simp [hj]
    · rw [List.getElem?_set_ne hjk, List.getElem?_set_self hi, List.getElem?_set_ne (Ne.symm hjk), hx]
  · by_cases hkj : k = j
    · subst hkj
      rw [Equiv.swap_apply_right, List.getElem?_set_self (by simpa using hj),
        List.getElem?_set_self hi]
    · rw [Equiv.swap_apply_of_ne_of_ne hki hkj, List.getElem?_set_ne (Ne.symm hkj),
        List.getElem?_set_ne (Ne.symm hki), List.getElem?_set_ne (Ne.symm hki)]

theorem set_set_perm (hi : i < l.length) (hx : l[j]? = some x) :
    ((l.set i x).set j v).Perm (l.set i v) := by
  obtain ⟨hj, rfl⟩ := List.getElem?_eq_some_iff.mp hx
  by_cases hij : i = j
  · subst hij
    rw [List.set_set]
  · have hi' : i < (l.set i v).length := by simpa using hi
    have hj' : j < (l.set i v).length := by simpa using hj
    have hperm := List.set_set_perm hi' hj'
    simpa [List.getElem_set_ne hij] using hperm

theorem set_of_getElem? (hx : l[i]? = some x) : l.set i x = l := by
  obtain ⟨hi, rfl⟩ := List.getElem?_eq_some_iff.mp hx
  exact List.set_getElem_self hi

end Hole

end Socnet.Lib.Heap
