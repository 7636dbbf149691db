import Socnet.Net.TimerSift

namespace Socnet.Net.TimerHeap

open Lib.Heap

variable {κ : Type} {h : TimerHeap κ}

/-- Between the operations: the vector and the counter agree, no fd occurs twice,
and the map sends each fd to the place of its timer and holds no other. -/
structure WellFormed (h : TimerHeap κ) : Prop where
  size : h.c.length = h.n
  nodup : (h.c.map Timer.fd).Nodup
  index : ∀ j t, h.c[j]? = some t → h.fds t.fd = some j
  keys : ∀ fd, h.fds fd ≠ none → ∃ t ∈ h.c, t.fd = fd

theorem wellFormed_init : (init : TimerHeap κ).WellFormed :=
  ⟨rfl, List.nodup_nil, by simp [init], by simp [init]⟩

theorem WellFormed.lookup (hw : h.WellFormed) {fd : ℤ} {i : ℕ} (hi : h.fds fd = some i) :
    ∃ t, h.c[i]? = some t ∧ t.fd = fd := by
  obtain ⟨t, ht, rfl⟩ := hw.keys fd (by simp [hi])
  obtain ⟨j, hj⟩ := List.mem_iff_getElem?.mp ht
  have hij := hw.index j t hj
  rw [hi] at hij
  cases hij
  exact ⟨t, hj, rfl⟩

theorem WellFormed.fds_eq_none (hw : h.WellFormed) {fd : ℤ} :
    h.fds fd = none ↔ fd ∉ h.c.map Timer.fd := by
  rw [List.mem_map]
  constructor
  · rintro hn ⟨t, ht, rfl⟩
    obtain ⟨j, hj⟩ := List.mem_iff_getElem?.mp ht
    rw [hw.index j t hj] at hn
    cases hn
  · intro hn
    by_contra hs
    exact hn (hw.keys fd hs)

theorem WellFormed.consistent (hw : h.WellFormed) : h.Consistent :=
  ⟨hw.size.ge, hw.nodup, fun j _ t ht ↦ hw.index j t ht, hw.keys⟩

theorem Consistent.wellFormed (hc : h.Consistent) (hs : h.c.length = h.n) : h.WellFormed where
  size := hs
  nodup := hc.nodup
  index j t hj := hc.index j (hs ▸ (List.getElem?_eq_some_iff.mp hj).1) t hj
  keys := hc.keys

theorem map_fd_set {l : List (Timer κ)} {i : ℕ} {t u : Timer κ} (ht : l[i]? = some t)
    (hfd : u.fd = t.fd) : (l.set i u).map Timer.fd = l.map Timer.fd := by
  rw [List.map_set, set_of_getElem?]
  rw [List.getElem?_map, ht, Option.map_some, hfd]

theorem WellFormed.holed_set (hw : h.WellFormed) {i : ℕ} {t u : Timer κ} (ht : h.c[i]? = some t)
    (hfd : u.fd = t.fd) : Holed { h with c := h.c.set i u } i u := by
  have hi : i < h.c.length := (List.getElem?_eq_some_iff.mp ht).1
  have hmap := map_fd_set ht hfd
  refine ⟨by simpa using hi, by simpa using hw.size.ge, ?_, ?_, ?_⟩
  · rw [List.set_set, hmap]
    exact hw.nodup
  · intro j hj hji s hs
    rw [List.getElem?_set_ne (Ne.symm hji)] at hs
    exact hw.index j s hs
  · intro fd hf
    rw [List.set_set, ← List.mem_map, hmap, List.mem_map]
    exact hw.keys fd hf

section New

variable (hw : h.WellFormed) {t : Timer κ} (hnew : h.fds t.fd = none)

def appended (h : TimerHeap κ) (t : Timer κ) : TimerHeap κ :=
  { h with c := h.c ++ [t], fds := Function.update h.fds t.fd (some h.n), n := h.n + 1 }

include hw hnew in
theorem WellFormed.appended : (h.appended t).WellFormed := by
  have hnot := hw.fds_eq_none.mp hnew
  refine ⟨by simp [TimerHeap.appended, hw.size], ?_, ?_, ?_⟩
  · change ((h.c ++ [t]).map Timer.fd).Nodup
    rw [List.map_append]
    refine List.nodup_append.mpr ⟨hw.nodup, by simp, ?_⟩
    intro a ha b hb hab
    rw [List.map_singleton, List.mem_singleton] at hb
    exact hnot (hb ▸ hab ▸ ha)
  · intro j s hs
    change (h.c ++ [t])[j]? = some s at hs
    change Function.update h.fds t.fd (some h.n) s.fd = some j
    by_cases hj : j < h.c.length
    · rw [List.getElem?_append_left hj] at hs
      have hne : s.fd ≠ t.fd := fun heq ↦
        hnot (heq ▸ List.mem_map_of_mem (List.mem_of_getElem? hs))
      rw [Function.update_of_ne hne]
      exact hw.index j s hs
    · have hlen := (List.getElem?_eq_some_iff.mp hs).1
      have hjn : j = h.c.length := by
        rw [List.length_append, List.length_singleton] at hlen
        omega
      subst hjn
      rw [List.getElem?_concat_length] at hs
      cases hs
      rw [Function.update_self, hw.size]
  · intro fd hf
    change Function.update h.fds t.fd (some h.n) fd ≠ none at hf
    change ∃ s ∈ h.c ++ [t], s.fd = fd
    by_cases hft : fd = t.fd
    · exact ⟨t, by simp, hft.symm⟩
    · rw [Function.update_of_ne hft] at hf
      obtain ⟨s, hs, hsf⟩ := hw.keys fd hf
      exact ⟨s, List.mem_append_left _ hs, hsf⟩

theorem key_append {l : List (Timer κ)} {j : ℕ} (hj : j < l.length) (t : Timer κ) :
    key (l ++ [t]) j = key l j := by rw [key, key, List.getElem?_append_left hj]

include hw hnew in
theorem WellFormed.push_new :
    ∃ h', h.push t = .ok h' ∧ h'.WellFormed ∧ h'.c.Perm (t :: h.c) ∧
      (Ordered h.n (key h.c) → Ordered h'.n (key h'.c)) := by
  have hw₁ := hw.appended hnew
  have hperm : (h.c ++ [t]).Perm (t :: h.c) := List.perm_append_singleton t h.c
  rw [push, hnew]
  change ∃ h', (if h.n + 1 = 1 then .ok (h.appended t) else (h.appended t).upAdjust (h.n + 1 - 1)) =
    _ ∧ _
  by_cases hn : h.n + 1 = 1
  · rw [if_pos hn]
    refine ⟨h.appended t, rfl, hw₁, hperm, fun _ j h0 hj ↦ ?_⟩
    change j < h.n + 1 at hj
    omega
  · have hlast : (h.appended t).c[h.n]? = some t := by
      change (h.c ++ [t])[h.n]? = some t
      rw [← hw.size, List.getElem?_concat_length]
    obtain ⟨h', hup, hs, -, -, hord⟩ := (hw₁.consistent.holed hlast).upLoop_ok
    have hset := set_of_getElem? hlast
    have hs_perm := hs.perm
    rw [hset] at hs_perm hord
    have hsize : h'.c.length = h'.n := by rw [hs_perm.length_eq, hw₁.size, hs.n_eq]
    refine ⟨h', ?_, hs.consistent.wellFormed hsize, hs_perm.trans hperm, fun ho ↦ ?_⟩
    · rw [if_neg hn, Nat.add_sub_cancel, upAdjust, get_eq_ok hlast]
      exact hup
    · rw [hs.n_eq]
      refine hord (fun _ ↦ Nat.lt_succ_self _) ⟨?_, ?_⟩
      · intro j h0 hj hne
        have hjn : j < h.c.length := by
          change j < h.n + 1 at hj
          rw [hw.size]
          omega
        change key (h.c ++ [t]) (parent j) ≤ key (h.c ++ [t]) j
        rw [key_append hjn, key_append ((parent_lt h0).trans hjn)]
        exact ho j h0 (hw.size ▸ hjn)
      · intro _ j h0 hj hp
        have := parent_lt h0
        change j < h.n + 1 at hj
        omega

end New

theorem WellFormed.push_known (hw : h.WellFormed) {t : Timer κ} {i : ℕ}
    (hi : h.fds t.fd = some i) :
    ∃ h', h.push t = .ok h' ∧ h'.WellFormed ∧ h'.c.Perm (h.c.set i t) ∧
      (Ordered h.n (key h.c) → Ordered h'.n (key h'.c)) := by
  obtain ⟨u, hu, hut⟩ := hw.lookup hi
  have hlt : i < h.c.length := (List.getElem?_eq_some_iff.mp hu).1
  have hself : (h.c.set i t)[i]? = some t := List.getElem?_set_self hlt
  have hh := hw.holed_set hu hut.symm
  obtain ⟨h', hadj, hs, -, hord⟩ := hh.adjustBoth_ok hself (fun _ ↦ hw.size ▸ hlt)
  have hperm := hs.perm
  rw [List.set_set] at hperm
  have hsize : h'.c.length = h'.n := by rw [hperm.length_eq, List.length_set, hw.size, hs.n_eq]
  refine ⟨h', ?_, hs.consistent.wellFormed hsize, hperm, fun ho ↦ ?_⟩
  · have hsame : { u with timestamp := t.timestamp, callback := t.callback } = t := by
      rw [hut]
    rw [push, hi]
    dsimp only
    rw [get_eq_ok hu]
    simp only [bind, Except.bind, hsame, put_eq_ok t hlt]
    exact hadj
  · rw [hs.n_eq]
    apply hord
    dsimp only
    rw [key_set hlt]
    have hin : i < h.n := hw.size ▸ hlt
    rcases le_or_gt u.timestamp t.timestamp with hle | hgt
    · refine .inl (ho.downFrom_update hin ?_)
      rw [key_of_getElem? hu]
      exact hle
    · refine .inr ⟨ho.upFrom_update hin ?_, fun j h0 hj hp ↦ ?_⟩
      · rw [key_of_getElem? hu]
        exact hgt.le
      · have hij : i < j := hp ▸ parent_lt h0
        have hedge := ho j h0 hj
        rw [hp, key_of_getElem? hu] at hedge
        rw [Function.update_of_ne hij.ne']
        exact hgt.trans_le hedge

theorem WellFormed.push_ok (hw : h.WellFormed) (t : Timer κ) :
    ∃ h', h.push t = .ok h' ∧ h'.WellFormed ∧
      h'.c.Perm (match h.fds t.fd with
        | none => t :: h.c
        | some i => h.c.set i t) ∧
      (Ordered h.n (key h.c) → Ordered h'.n (key h'.c)) := by
  cases hfd : h.fds t.fd with
  | none => exact hw.push_new hfd
  | some i => exact hw.push_known hfd

theorem WellFormed.adjust_ok (hw : h.WellFormed) (t : Timer κ) :
    ∃ h', h.adjust t = .ok h' ∧ h'.WellFormed ∧
      match h.fds t.fd with
      | none => h' = h
      | some i => ∃ u, h.c[i]? = some u ∧ u.fd = t.fd ∧
          h'.c.Perm (h.c.set i { u with timestamp := t.timestamp }) ∧
          (Ordered h.n (key h.c) → u.timestamp ≤ t.timestamp → Ordered h'.n (key h'.c)) := by
  rw [adjust]
  cases hfd : h.fds t.fd with
  | none => exact ⟨h, rfl, hw, rfl⟩
  | some i =>
    obtain ⟨u, hu, hut⟩ := hw.lookup hfd
    have hi : i < h.c.length := (List.getElem?_eq_some_iff.mp hu).1
    have hh := hw.holed_set hu (u := { u with timestamp := t.timestamp }) rfl
    obtain ⟨h', j, hdown, -, hs, -, -, hord, -⟩ := hh.downLoop_ok
    have hperm := hs.perm
    rw [List.set_set] at hperm
    have hsize : h'.c.length = h'.n := by
      rw [hperm.length_eq, List.length_set, hw.size, hs.n_eq]
    refine ⟨h', ?_, hs.consistent.wellFormed hsize, u, hu, hut, hperm, ?_⟩
    · dsimp only
      rw [get_eq_ok hu]
      simp only [bind, Except.bind, put_eq_ok _ hi]
      rw [downAdjust, get_eq_ok (List.getElem?_set_self hi)]
      simp only [bind, Except.bind, hdown]
    · intro ho hle
      rw [hs.n_eq]
      apply hord
      dsimp only
      rw [List.set_set, key_set hi]
      apply ho.downFrom_update (hw.size ▸ hi)
      rw [key_of_getElem? hu]
      exact hle

section Pop

variable (hw : h.WellFormed) {t : Timer κ} (ht : h.c[0]? = some t)

/-- The first and the last timer exchanged, and the last one left out. -/
def exchanged (h : TimerHeap κ) (first last : Timer κ) : TimerHeap κ :=
  { h with c := (h.c.set 0 last).set (h.n - 1) first, n := h.n - 1 }

include hw ht in
theorem WellFormed.exchanged {l : Timer κ} (hl : h.c[h.n - 1]? = some l) :
    Holed (h.exchanged t l) 0 l ∧ (h.exchanged t l).c.Perm h.c ∧
      ∀ k, (h.exchanged t l).c[k]? = h.c[Equiv.swap 0 (h.n - 1) k]? := by
  have hpos : 0 < h.c.length := (List.getElem?_eq_some_iff.mp ht).1
  have hget (k : ℕ) : (h.exchanged t l).c[k]? = h.c[Equiv.swap 0 (h.n - 1) k]? := by
    change ((h.c.set 0 l).set (h.n - 1) t)[k]? = _
    rw [getElem?_set_set hpos hl, set_of_getElem? ht]
  have hperm : (h.exchanged t l).c.Perm h.c := by
    change ((h.c.set 0 l).set (h.n - 1) t).Perm h.c
    have := set_set_perm (v := t) hpos hl
    rwa [set_of_getElem? ht] at this
  have hset : (h.exchanged t l).c.set 0 l = (h.exchanged t l).c := by
    apply set_of_getElem?
    rw [hget, Equiv.swap_apply_left, hl]
  refine ⟨⟨?_, ?_, ?_, ?_, ?_⟩, hperm, hget⟩
  · rw [hperm.length_eq]
    exact hpos
  · change h.n - 1 ≤ _
    rw [hperm.length_eq, hw.size]
    omega
  · rw [hset]
    exact (hperm.map _).nodup_iff.mpr hw.nodup
  · intro j hj hj0 s hs
    change j < h.n - 1 at hj
    rw [hget, Equiv.swap_apply_of_ne_of_ne hj0 (by omega)] at hs
    exact hw.index j s hs
  · intro fd hf
    rw [hset]
    obtain ⟨s, hs, hsf⟩ := hw.keys fd hf
    exact ⟨s, hperm.mem_iff.mpr hs, hsf⟩

include hw ht in
theorem WellFormed.pop_ok :
    ∃ h', h.pop = .ok h' ∧ h'.WellFormed ∧ h'.n + 1 = h.n ∧ (t :: h'.c).Perm h.c ∧
      (Ordered h.n (key h.c) → Ordered h'.n (key h'.c)) := by
  have hpos : 0 < h.c.length := (List.getElem?_eq_some_iff.mp ht).1
  have hn : 0 < h.n := hw.size ▸ hpos
  obtain ⟨l, hl⟩ : ∃ l, h.c[h.n - 1]? = some l :=
    ⟨_, List.getElem?_eq_getElem (by rw [hw.size]; omega)⟩
  obtain ⟨hh, hperm, hget⟩ := hw.exchanged ht hl
  have hfirst : (h.exchanged t l).c[0]? = some l := by
    rw [hget, Equiv.swap_apply_left, hl]
  obtain ⟨h₁, hadj, hs, htail, hord⟩ := hh.adjustBoth_ok hfirst (fun h0 ↦ absurd h0 (lt_irrefl 0))
  have hperm₁ : h₁.c.Perm h.c := by
    have := hs.perm
    rw [set_of_getElem? hfirst] at this
    exact this.trans hperm
  have hlen₁ : h₁.c.length = h.n := by rw [hperm₁.length_eq, hw.size]
  have hn₁ : h₁.n = h.n - 1 := hs.n_eq
  have hlast : h₁.c[h.n - 1]? = some t := by
    rw [htail (h.n - 1) le_rfl (Nat.zero_le _), hget, Equiv.swap_apply_right, ht]
  have hback : h₁.c.getLast? = some t := by rw [List.getLast?_eq_getElem?, hlen₁, hlast]
  have hsplit : h₁.c.dropLast ++ [t] = h₁.c := List.dropLast_append_getLast? t hback
  have hsize : h₁.c.dropLast.length = h₁.n := by rw [List.length_dropLast, hlen₁, hn₁]
  have hcut {j : ℕ} (hj : j < h₁.n) : h₁.c.dropLast[j]? = h₁.c[j]? := by
    conv_rhs => rw [← hsplit]
    rw [List.getElem?_append_left (by omega)]
  have hnd := hs.consistent.nodup
  rw [← hsplit, List.map_append, List.map_singleton] at hnd
  have hgone : ∀ s ∈ h₁.c.dropLast, s.fd ≠ t.fd := by
    intro s hs heq
    exact (List.nodup_append.mp hnd).2.2 s.fd (List.mem_map_of_mem hs) t.fd
      (List.mem_singleton_self _) heq
  refine ⟨{ h₁ with c := h₁.c.dropLast, fds := Function.update h₁.fds t.fd none }, ?_, ?_, ?_, ?_, ?_⟩
  · rw [pop, if_neg hn.ne', del, if_neg hn.ne', get_eq_ok ht, get_eq_ok hl]
    have hput : put (h.c.set 0 l) (h.n - 1) t = .ok (h.exchanged t l).c := by
      apply put_eq_ok t
      rw [List.length_set, hw.size]
      omega
    have hadj' : adjustBoth { h with c := (h.exchanged t l).c, n := h.n - 1 } 0 = .ok h₁ := hadj
    simp only [bind, Except.bind, put_eq_ok l hpos, hput, hadj', hback]
  · refine ⟨hsize, (List.nodup_append.mp hnd).1, ?_, ?_⟩
    · intro j s hj
      dsimp only at hj ⊢
      have hlt : j < h₁.n := hsize ▸ (List.getElem?_eq_some_iff.mp hj).1
      rw [Function.update_of_ne (hgone s (List.mem_of_getElem? hj))]
      exact hs.consistent.index j hlt s (hcut hlt ▸ hj)
    · intro fd hf
      dsimp only at hf ⊢
      by_cases hft : fd = t.fd
      · rw [hft, Function.update_self] at hf
        exact absurd rfl hf
      · rw [Function.update_of_ne hft] at hf
        obtain ⟨s, hs, rfl⟩ := hs.consistent.keys fd hf
        rw [← hsplit, List.mem_append, List.mem_singleton] at hs
        rcases hs with hs | rfl
        · exact ⟨s, hs, rfl⟩
        · exact absurd rfl hft
  · dsimp only
    omega
  · have := (List.perm_append_singleton t h₁.c.dropLast).symm
    rw [hsplit] at this
    exact this.trans hperm₁
  · intro ho
    have hdown : DownFrom (h.exchanged t l).n (key (h.exchanged t l).c) 0 := by
      refine ⟨fun j h0 hj hp ↦ ?_, fun h0 ↦ absurd h0 (lt_irrefl 0)⟩
      change j < h.n - 1 at hj
      have hlt := parent_lt h0
      rw [key, key, hget, hget, Equiv.swap_apply_of_ne_of_ne hp (by omega),
        Equiv.swap_apply_of_ne_of_ne h0.ne' (by omega)]
      exact ho j h0 (by omega)
    have hord₁ := hord (.inl hdown)
    intro j h0 hj
    dsimp only at hj ⊢
    rw [key, key, hcut hj, hcut ((parent_lt h0).trans hj)]
    exact hord₁ j h0 (hs.n_eq ▸ hj)

end Pop

end Socnet.Net.TimerHeap
