import Socnet.Lib.Heap
import Socnet.Net.TimerHeap

namespace Socnet.Net.TimerHeap

open Lib.Heap

variable {κ : Type} {h : TimerHeap κ} {i : ℕ} {v : Timer κ}

/-- The expiry time of the timer at an index. -/
def key (l : List (Timer κ)) (j : ℕ) : TimeStamp := (l[j]?.map Timer.timestamp).getD default

theorem key_of_getElem? {l : List (Timer κ)} {j : ℕ} {t : Timer κ} (h : l[j]? = some t) :
    key l j = t.timestamp := by simp [key, h]

/-- The index of every timer among the first `n` is where the map says, and the
map holds no other fds than those of the timers. -/
structure Consistent (h : TimerHeap κ) : Prop where
  le : h.n ≤ h.c.length
  nodup : (h.c.map Timer.fd).Nodup
  index : ∀ j < h.n, ∀ t ∈ h.c[j]?, h.fds t.fd = some j
  keys : ∀ fd, h.fds fd ≠ none → ∃ t ∈ h.c, t.fd = fd

/-- The same, with the place `i` open for the timer `v`. -/
structure Holed (h : TimerHeap κ) (i : ℕ) (v : Timer κ) : Prop where
  lt : i < h.c.length
  le : h.n ≤ h.c.length
  nodup : ((h.c.set i v).map Timer.fd).Nodup
  index : ∀ j < h.n, j ≠ i → ∀ t ∈ h.c[j]?, h.fds t.fd = some j
  keys : ∀ fd, h.fds fd ≠ none → ∃ t ∈ h.c.set i v, t.fd = fd

theorem fd_ne {l : List (Timer κ)} (hc : (l.map Timer.fd).Nodup) {j k : ℕ} {s t : Timer κ}
    (hs : l[j]? = some s) (ht : l[k]? = some t) (hjk : j ≠ k) : s.fd ≠ t.fd := by
  intro heq
  have hj : j < (l.map Timer.fd).length := by
    simpa using (List.getElem?_eq_some_iff.mp hs).1
  refine hjk ((List.getElem?_inj hj hc).mp ?_)
  rw [List.getElem?_map, List.getElem?_map, hs, ht, Option.map_some, Option.map_some, heq]

theorem get_eq_ok {l : List (Timer κ)} {t : Timer κ} (h : l[i]? = some t) : get l i = .ok t := by
  rw [get, h]

theorem put_eq_ok {l : List (Timer κ)} (t : Timer κ) (h : i < l.length) :
    put l i t = .ok (l.set i t) := if_pos h

theorem Holed.place_ok (hh : Holed h i v) :
    ∃ h', h.place v i = .ok h' ∧ h'.c = h.c.set i v ∧ h'.n = h.n ∧ h'.Consistent := by
  refine ⟨{ h with c := h.c.set i v, fds := Function.update h.fds v.fd (some i) }, ?_, rfl, rfl, ?_⟩
  · rw [place, put_eq_ok v hh.lt]
    rfl
  · have hself : (h.c.set i v)[i]? = some v := List.getElem?_set_self hh.lt
    refine ⟨by simpa using hh.le, hh.nodup, ?_, ?_⟩
    · intro j hj t ht
      dsimp only at hj ht ⊢
      by_cases hji : j = i
      · subst hji
        rw [hself] at ht
        cases ht
        exact Function.update_self ..
      · have hne : t.fd ≠ v.fd := fd_ne hh.nodup ht hself hji
        rw [Function.update_of_ne hne]
        rw [List.getElem?_set_ne (Ne.symm hji)] at ht
        exact hh.index j hj hji t ht
    · intro fd hfd
      dsimp only at hfd ⊢
      by_cases hv : fd = v.fd
      · exact ⟨v, List.mem_of_getElem? hself, hv.symm⟩
      · rw [Function.update_of_ne hv] at hfd
        exact hh.keys fd hfd

theorem Holed.move (hh : Holed h i v) {j : ℕ} {x : Timer κ} (hx : h.c[j]? = some x)
    (hij : i ≠ j) :
    Holed { h with c := h.c.set i x, fds := Function.update h.fds x.fd (some i) } j v := by
  have hj : j < h.c.length := (List.getElem?_eq_some_iff.mp hx).1
  have hperm : ((h.c.set i x).set j v).Perm (h.c.set i v) := set_set_perm hh.lt hx
  have hold : (h.c.set i v)[j]? = some x := by rw [List.getElem?_set_ne hij, hx]
  refine ⟨by simpa using hj, by simpa using hh.le, (hperm.map _).nodup_iff.mpr hh.nodup, ?_, ?_⟩
  · intro k hk hkj t ht
    dsimp only at hk ht ⊢
    by_cases hki : k = i
    · subst hki
      rw [List.getElem?_set_self hh.lt] at ht
      cases ht
      exact Function.update_self ..
    · rw [List.getElem?_set_ne (Ne.symm hki)] at ht
      have hne : t.fd ≠ x.fd := by
        refine fd_ne hh.nodup ?_ hold hkj
        rw [List.getElem?_set_ne (Ne.symm hki)]
        exact ht
      rw [Function.update_of_ne hne]
      exact hh.index k hk hki t ht
  · intro fd hfd
    dsimp only at hfd ⊢
    by_cases hfx : fd = x.fd
    · exact ⟨x, hperm.mem_iff.mpr (List.mem_of_getElem? hold), hfx.symm⟩
    · rw [Function.update_of_ne hfx] at hfd
      obtain ⟨t, ht, hfd⟩ := hh.keys fd hfd
      exact ⟨t, hperm.mem_iff.mpr ht, hfd⟩

theorem key_move {l : List (Timer κ)} {j : ℕ} {x : Timer κ} (hi : i < l.length)
    (hx : l[j]? = some x) : key ((l.set i x).set j v) = key (l.set i v) ∘ Equiv.swap i j := by
  funext k
  simp only [key, Function.comp_apply, getElem?_set_set hi hx]

theorem key_hole {l : List (Timer κ)} (hi : i < l.length) : key (l.set i v) i = v.timestamp :=
  key_of_getElem? (List.getElem?_set_self hi)

theorem key_of_ne {l : List (Timer κ)} {j : ℕ} (hij : i ≠ j) : key (l.set i v) j = key l j := by
  rw [key, key, List.getElem?_set_ne hij]

theorem key_set {l : List (Timer κ)} (hi : i < l.length) :
    key (l.set i v) = Function.update (key l) i v.timestamp := by
  funext j
  by_cases hji : j = i
  · rw [hji, key_hole hi, Function.update_self]
  · rw [key_of_ne (Ne.symm hji), Function.update_of_ne hji]

/-- What every sift of `v` from the place `i` does to a heap. -/
structure Sifted (h : TimerHeap κ) (i : ℕ) (v : Timer κ) (h' : TimerHeap κ) : Prop where
  consistent : h'.Consistent
  n_eq : h'.n = h.n
  perm : h'.c.Perm (h.c.set i v)

theorem Sifted.of_move {j : ℕ} {x : Timer κ} {h' : TimerHeap κ} (hi : i < h.c.length)
    (hx : h.c[j]? = some x)
    (hs : Sifted { h with c := h.c.set i x, fds := Function.update h.fds x.fd (some i) } j v h') :
    Sifted h i v h' :=
  ⟨hs.consistent, hs.n_eq, hs.perm.trans (set_set_perm hi hx)⟩

theorem Holed.place_sifted (hh : Holed h i v) :
    ∃ h', h.place v i = .ok h' ∧ Sifted h i v h' ∧ h'.c = h.c.set i v := by
  obtain ⟨h', hp, hc, hn, hcons⟩ := hh.place_ok
  exact ⟨h', hp, ⟨hcons, hn, hc ▸ List.Perm.refl _⟩, hc⟩

theorem Holed.upLoop_ok (hh : Holed h i v) :
    ∃ h', h.upLoop v i = .ok h' ∧ Sifted h i v h' ∧ (∀ j, i < j → h'.c[j]? = h.c[j]?) ∧
      (i = 0 → h'.c = h.c.set i v) ∧
      ((0 < i → i < h.n) → UpFrom h.n (key (h.c.set i v)) i → Ordered h.n (key h'.c)) := by
  induction i using Nat.strong_induction_on generalizing h with
  | _ i ih =>
    obtain ⟨h₁, hplace, hsift, hc⟩ := hh.place_sifted
    have htail : ∀ j, i < j → h₁.c[j]? = h.c[j]? := by
      intro j hj
      rw [hc, List.getElem?_set_ne hj.ne]
    rw [upLoop]
    by_cases hi : i = 0
    · rw [dif_pos hi]
      refine ⟨h₁, hplace, hsift, htail, fun _ ↦ hc, fun _ hup ↦ ?_⟩
      rw [hc]
      exact hup.ordered fun h0 ↦ absurd h0 (by omega)
    · have h0 : 0 < i := Nat.pos_of_ne_zero hi
      have hlt : parent i < i := parent_lt h0
      obtain ⟨p, hp⟩ : ∃ p, h.c[parent i]? = some p :=
        ⟨_, List.getElem?_eq_getElem (hlt.trans hh.lt)⟩
      rw [dif_neg hi]
      change ∃ h', (get h.c (parent i) >>= _) = _ ∧ _
      rw [get_eq_ok hp]
      change ∃ h', (if v.lt p then h.place v i else (put h.c i p >>= _)) = _ ∧ _
      have hkey : key (h.c.set i v) (parent i) = p.timestamp := by
        rw [key_of_ne hlt.ne', key_of_getElem? hp]
      by_cases hv : v.lt p
      · rw [if_pos hv]
        refine ⟨h₁, hplace, hsift, htail, fun _ ↦ hc, fun _ hup ↦ ?_⟩
        rw [hc]
        refine hup.ordered fun _ ↦ ?_
        rw [hkey, key_hole hh.lt]
        exact (of_decide_eq_true hv).le
      · rw [if_neg hv, put_eq_ok p hh.lt]
        obtain ⟨h', hloop, hs, htail', -, hord⟩ := ih (parent i) hlt (hh.move hp hlt.ne')
        refine ⟨h', hloop, hs.of_move hh.lt hp, ?_, fun hz ↦ absurd hz hi, ?_⟩
        · intro j hj
          rw [htail' j (hlt.trans hj), List.getElem?_set_ne hj.ne]
        · intro hin hup
          refine hord (fun _ ↦ hlt.trans (hin h0)) ?_
          dsimp only
          rw [key_move hh.lt hp]
          refine hup.step h0 (hin h0) ?_
          rw [hkey, key_hole hh.lt]
          exact not_lt.mp fun hlt' ↦ hv (decide_eq_true hlt')

theorem minChild_ok (hle : h.n ≤ h.c.length) (hc : i * 2 + 1 < h.n) :
    ∃ m, h.minChild (i * 2 + 1) = .ok m ∧ 0 < m ∧ m < h.n ∧ parent m = i ∧
      ∀ j, 0 < j → j < h.n → parent j = i → key h.c m ≤ key h.c j := by
  obtain ⟨a, ha⟩ : ∃ a, h.c[i * 2 + 1]? = some a :=
    ⟨_, List.getElem?_eq_getElem (by omega)⟩
  rw [minChild]
  by_cases hr : i * 2 + 1 + 1 < h.n
  · obtain ⟨b, hb⟩ : ∃ b, h.c[i * 2 + 1 + 1]? = some b :=
      ⟨_, List.getElem?_eq_getElem (by omega)⟩
    have hka := key_of_getElem? ha
    have hkb := key_of_getElem? hb
    rw [if_pos hr, get_eq_ok ha, get_eq_ok hb]
    refine ⟨_, rfl, ?_⟩
    by_cases hab : a.lt b
    · rw [if_pos hab]
      refine ⟨by omega, hr, by unfold parent; omega, fun j h0 hj hp ↦ ?_⟩
      have hlt : b.timestamp ≤ a.timestamp := (of_decide_eq_true hab).le
      rcases (parent_eq_iff h0).mp hp with rfl | rfl
      · rw [Nat.mul_comm 2, hka, hkb]
        exact hlt
      · rw [Nat.mul_comm 2]
    · rw [if_neg hab]
      refine ⟨by omega, by omega, by unfold parent; omega, fun j h0 hj hp ↦ ?_⟩
      have hle' : a.timestamp ≤ b.timestamp := not_lt.mp fun hlt ↦ hab (decide_eq_true hlt)
      rcases (parent_eq_iff h0).mp hp with rfl | rfl
      · rw [Nat.mul_comm 2]
      · rw [Nat.mul_comm 2, hka, hkb]
        exact hle'
  · rw [if_neg hr]
    refine ⟨_, rfl, by omega, hc, by unfold parent; omega, fun j h0 hj hp ↦ ?_⟩
    rcases (parent_eq_iff h0).mp hp with rfl | rfl
    · rw [Nat.mul_comm 2]
    · omega

theorem Holed.downLoop_ok (hh : Holed h i v) :
    ∃ h' j, h.downLoop v i = .ok (h', j) ∧ i ≤ j ∧ Sifted h i v h' ∧
      (∀ k, h.n ≤ k → k ≠ i → h'.c[k]? = h.c[k]?) ∧
      (h.n ≤ i → h'.c = h.c.set i v) ∧
      (DownFrom h.n (key (h.c.set i v)) i → Ordered h.n (key h'.c)) ∧
      ((∀ j, 0 < j → j < h.n → parent j = i → v.timestamp < key h.c j) →
        h'.c = h.c.set i v) := by
  induction hm : h.n - i using Nat.strong_induction_on generalizing h i with
  | _ m ih =>
    subst hm
    obtain ⟨h₁, hplace, hsift, hc⟩ := hh.place_sifted
    have htail : ∀ k, h.n ≤ k → k ≠ i → h₁.c[k]? = h.c[k]? := by
      intro k _ hk
      rw [hc, List.getElem?_set_ne (Ne.symm hk)]
    rw [downLoop]
    by_cases hn : h.n ≤ i * 2 + 1
    · rw [dif_pos hn, hplace]
      refine ⟨h₁, i, rfl, le_rfl, hsift, htail, fun _ ↦ hc, fun hdown ↦ ?_, fun _ ↦ hc⟩
      rw [hc]
      refine hdown.ordered fun j h0 hj hp ↦ ?_
      rcases (parent_eq_iff h0).mp hp with rfl | rfl
      · omega
      · omega
    · obtain ⟨child, hmin, h0, hlt, hp, hleast⟩ := minChild_ok hh.le (not_le.mp hn)
      have hchild : i < child := hp ▸ parent_lt h0
      obtain ⟨a, ha⟩ : ∃ a, h.c[child]? = some a :=
        ⟨_, List.getElem?_eq_getElem (hlt.trans_le hh.le)⟩
      have hka := key_of_getElem? ha
      rw [dif_neg hn]
      split
      · rename_i e he
        rw [hmin] at he
        cases he
      · rename_i child' he
        rw [hmin] at he
        cases he
        rw [get_eq_ok ha]
        change ∃ h' j, (if a.lt v then h.place v i >>= fun h ↦ .ok (h, i)
          else (put h.c i a >>= _)) = _ ∧ _
        by_cases hv : a.lt v
        · rw [if_pos hv, hplace]
          refine ⟨h₁, i, rfl, le_rfl, hsift, htail, fun _ ↦ hc, fun hdown ↦ ?_, fun _ ↦ hc⟩
          rw [hc]
          refine hdown.ordered fun j hj0 hj hpj ↦ ?_
          have hji : i < j := hpj ▸ parent_lt hj0
          rw [key_hole hh.lt, key_of_ne hji.ne]
          calc v.timestamp ≤ a.timestamp := (of_decide_eq_true hv).le
            _ = key h.c child := hka.symm
            _ ≤ key h.c j := hleast j hj0 hj hpj
        · rw [if_neg hv, put_eq_ok a hh.lt]
          have hav : a.timestamp ≤ v.timestamp := not_lt.mp fun hlt' ↦ hv (decide_eq_true hlt')
          obtain ⟨h', j, hloop, hj, hs, htail', -, hord, -⟩ :=
            ih (h.n - child) (by omega) (hh.move ha hchild.ne) rfl
          refine ⟨h', j, hloop, hchild.le.trans hj, hs.of_move hh.lt ha, ?_, ?_, ?_, ?_⟩
          · intro k hk hki
            rw [htail' k hk (by omega), List.getElem?_set_ne (Ne.symm hki)]
          · intro hni
            omega
          · intro hdown
            refine hord ?_
            dsimp only
            rw [key_move hh.lt ha]
            refine hdown.step h0 hlt hp (fun j hj0 hj hpj ↦ ?_) ?_
            · have hji : i < j := hpj ▸ parent_lt hj0
              rw [key_of_ne hchild.ne, key_of_ne hji.ne]
              exact hleast j hj0 hj hpj
            · rw [key_of_ne hchild.ne, key_hole hh.lt, hka]
              exact hav
          · intro hless
            have := hless child h0 hlt hp
            rw [hka] at this
            exact absurd this (not_lt.mpr hav)

theorem Consistent.holed (hc : h.Consistent) (hv : h.c[i]? = some v) : Holed h i v where
  lt := (List.getElem?_eq_some_iff.mp hv).1
  le := hc.le
  nodup := by
    rw [set_of_getElem? hv]
    exact hc.nodup
  index j hj _ := hc.index j hj
  keys := by
    rw [set_of_getElem? hv]
    exact hc.keys

/-- A timer sifted in both directions from its place `i`. The way down never ends
before `i`, so the way up always follows, whatever has come to `i`. -/
theorem Holed.adjustBoth_ok (hh : Holed h i v) (hv : h.c[i]? = some v) (hi : 0 < i → i < h.n) :
    ∃ h', h.adjustBoth i = .ok h' ∧ Sifted h i v h' ∧
      (∀ k, h.n ≤ k → i ≤ k → h'.c[k]? = h.c[k]?) ∧
      (DownFrom h.n (key h.c) i ∨
        UpFrom h.n (key h.c) i ∧
          (∀ j, 0 < j → j < h.n → parent j = i → v.timestamp < key h.c j) →
        Ordered h.n (key h'.c)) := by
  have hset := set_of_getElem? hv
  obtain ⟨h₁, j, hdown, hij, hs₁, htail₁, hlast₁, hord₁, hstay₁⟩ := hh.downLoop_ok
  have hlen : h₁.c.length = h.c.length := by rw [hs₁.perm.length_eq, List.length_set]
  obtain ⟨u, hu⟩ : ∃ u, h₁.c[i]? = some u :=
    ⟨_, List.getElem?_eq_getElem (hlen.symm ▸ hh.lt)⟩
  obtain ⟨h₂, hup, hs₂, htail₂, hzero₂, hord₂⟩ := (hs₁.consistent.holed hu).upLoop_ok
  have hset₁ := set_of_getElem? hu
  rw [hset₁] at hzero₂ hord₂
  rw [hset] at hord₁ hstay₁ hlast₁
  rw [hs₁.n_eq] at hord₂
  refine ⟨h₂, ?_, ⟨hs₂.consistent, hs₂.n_eq.trans hs₁.n_eq, ?_⟩, ?_, ?_⟩
  · rw [adjustBoth, downAdjust, get_eq_ok hv]
    simp only [bind, Except.bind, hdown]
    rw [if_neg (by simpa using hij), upAdjust, get_eq_ok hu]
    exact hup
  · have hperm := hs₂.perm
    rw [hset₁] at hperm
    exact hperm.trans hs₁.perm
  · intro k hk hik
    by_cases hki : k = i
    · subst hki
      have hz : k = 0 := by
        by_contra hne
        exact absurd (hi (Nat.pos_of_ne_zero hne)) (not_lt.mpr hk)
      rw [hzero₂ hz, hlast₁ hk]
    · rw [htail₂ k (by omega), htail₁ k hk hki]
  · intro hcase
    refine hord₂ hi ?_
    rcases hcase with hd | ⟨hu, hless⟩
    · exact (hord₁ hd).upFrom hi
    · rw [hstay₁ hless]
      exact hu

end Socnet.Net.TimerHeap
