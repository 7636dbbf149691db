import Socnet.Net.TimerQueue

namespace Socnet.Net.TimerHeap

open Lib.Heap

variable {κ : Type} {h : TimerHeap κ}

/-- No entry expires before its parent, and the first entry is one that expires first. -/
def TopLeast (h : TimerHeap κ) : Prop :=
  Ordered h.n (key h.c) ∧ ∃ t ∈ h.c, h.top = .ok t ∧ ∀ u ∈ h.c, t.timestamp ≤ u.timestamp

theorem WellFormed.topLeast (hw : h.WellFormed) (hne : h.c ≠ []) (ho : Ordered h.n (key h.c)) :
    h.TopLeast := by
  obtain ⟨t, l, hc⟩ := List.exists_cons_of_ne_nil hne
  have ht : h.c[0]? = some t := by
    rw [hc]
    rfl
  exact ⟨ho, t, List.mem_of_getElem? ht, hw.top_eq ht, hw.top_least ho ht⟩

/-- A timer moved to an earlier time stays where it is: `adjust` sifts down only, and
the children expire later still. -/
theorem WellFormed.adjust_earlier (hw : h.WellFormed) (ho : Ordered h.n (key h.c)) {t u : Timer κ}
    {i : ℕ} (hi : h.fds t.fd = some i) (hu : h.c[i]? = some u) (hlt : t.timestamp < u.timestamp) :
    ∃ h', h.adjust t = .ok h' ∧ h'.WellFormed ∧ h'.n = h.n ∧
      h'.c = h.c.set i { u with timestamp := t.timestamp } := by
  have hilt : i < h.c.length := (List.getElem?_eq_some_iff.mp hu).1
  have hh := hw.holed_set hu (u := { u with timestamp := t.timestamp }) rfl
  obtain ⟨h', j, hdown, -, hs, -, -, -, hstay⟩ := hh.downLoop_ok
  have hc : h'.c = h.c.set i { u with timestamp := t.timestamp } := by
    rw [hstay, List.set_set]
    intro j h0 hj hp
    have hij : i < j := hp ▸ parent_lt h0
    have hedge := ho j h0 hj
    rw [hp, key_of_getElem? hu] at hedge
    dsimp only
    rw [key_of_ne hij.ne]
    exact hlt.trans_le hedge
  have hsize : h'.c.length = h'.n := by rw [hc, List.length_set, hw.size, hs.n_eq]
  refine ⟨h', ?_, hs.consistent.wellFormed hsize, hs.n_eq, hc⟩
  rw [adjust, hi]
  dsimp only
  rw [get_eq_ok hu]
  simp only [bind, Except.bind, put_eq_ok _ hilt]
  rw [downAdjust, get_eq_ok (List.getElem?_set_self hilt)]
  simp only [bind, Except.bind, hdown]

/-- `adjust` to an earlier time keeps the heap in order just when the timer is on top or
does not come to expire before its parent; `push` keeps it in order always. -/
theorem WellFormed.adjust_earlier_iff (hw : h.WellFormed) (ho : Ordered h.n (key h.c))
    {t u : Timer κ} {i : ℕ} (hi : h.fds t.fd = some i) (hu : h.c[i]? = some u)
    (hlt : t.timestamp < u.timestamp) :
    ∃ h' h'', h.adjust t = .ok h' ∧ h.push t = .ok h'' ∧ h''.TopLeast ∧
      (h'.TopLeast ↔ (0 < i → key h.c (parent i) ≤ t.timestamp)) := by
  have hilt : i < h.c.length := (List.getElem?_eq_some_iff.mp hu).1
  have hin : i < h.n := hw.size ▸ hilt
  obtain ⟨h', hadjust, hw', hn, hc⟩ := hw.adjust_earlier ho hi hu hlt
  obtain ⟨h'', hpush, hw'', hperm, hord⟩ := hw.push_known hi
  refine ⟨h', h'', hadjust, hpush, hw''.topLeast ?_ (hord ho), ?_⟩
  · intro hnil
    have hlen := hperm.length_eq
    rw [hnil, List.length_set] at hlen
    simp only [List.length_nil] at hlen
    omega
  have hkey : key h'.c = Function.update (key h.c) i t.timestamp := by rw [hc, key_set hilt]
  have hup : UpFrom h'.n (key h'.c) i := by
    rw [hn, hkey]
    apply ho.upFrom_update hin
    rw [key_of_getElem? hu]
    exact hlt.le
  have hparent (h0 : 0 < i) : key h'.c (parent i) = key h.c (parent i) := by
    rw [hkey, Function.update_of_ne (parent_lt h0).ne]
  have hself : key h'.c i = t.timestamp := by rw [hkey, Function.update_self]
  constructor
  · intro htop h0
    rw [← hparent h0, ← hself]
    exact htop.1 i h0 (hn ▸ hin)
  · intro hle
    refine hw'.topLeast (fun hnil ↦ ?_) (hup.ordered fun h0 ↦ ?_)
    · rw [hc] at hnil
      have hlen := congrArg List.length hnil
      rw [List.length_set, List.length_nil] at hlen
      omega
    · rw [hparent h0, hself]
      exact hle h0

theorem twoTimers_fds : twoTimers.fds 2 = some 1 := by decide +kernel

theorem twoTimers_second : ∃ u, twoTimers.c[1]? = some u ∧ u.timestamp = ⟨10⟩ := by
  obtain ⟨u, hu, -⟩ := twoTimers_ordered.1.lookup twoTimers_fds
  have ht : twoTimers.c[1]?.map Timer.timestamp = some ⟨10⟩ := by decide +kernel
  rw [hu] at ht
  exact ⟨u, hu, Option.some.inj ht⟩

theorem adjust_earlier_iff_two : ∃ h', twoTimers.adjust ⟨2, ⟨6⟩, ()⟩ = .ok h' ∧ h'.TopLeast := by
  obtain ⟨hw, ho⟩ := twoTimers_ordered
  obtain ⟨u, hu, ht⟩ := twoTimers_second
  obtain ⟨h', -, hadjust, -, -, hiff⟩ := hw.adjust_earlier_iff ho (t := ⟨2, ⟨6⟩, ()⟩) twoTimers_fds hu
    (by rw [ht]; decide)
  exact ⟨h', hadjust, hiff.mpr fun _ ↦ by decide +kernel⟩

theorem not_adjust_topLeast : twoTimers.WellFormed ∧ Ordered twoTimers.n (key twoTimers.c) ∧
    ∃ h', twoTimers.adjust ⟨2, ⟨1⟩, ()⟩ = .ok h' ∧ ¬ h'.TopLeast := by
  obtain ⟨hw, ho⟩ := twoTimers_ordered
  obtain ⟨u, hu, ht⟩ := twoTimers_second
  obtain ⟨h', hadjust, -, hn, hc⟩ := hw.adjust_earlier ho (t := ⟨2, ⟨1⟩, ()⟩) twoTimers_fds hu
    (by rw [ht]; decide)
  refine ⟨hw, ho, h', hadjust, fun htop ↦ ?_⟩
  have hedge := htop.1 1 Nat.one_pos (hn ▸ (show 1 < twoTimers.n by decide +kernel))
  rw [hc, key_set (List.getElem?_eq_some_iff.mp hu).1, Function.update_self,
    Function.update_of_ne (by decide)] at hedge
  exact absurd hedge (show ¬ key twoTimers.c (parent 1) ≤ ⟨1⟩ by decide +kernel)

end Socnet.Net.TimerHeap
