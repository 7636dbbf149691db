import Socnet.Net.TimerRun

namespace Socnet.Net.TimerHeap

open Lib.Heap

variable {κ σ : Type} {h h' : TimerHeap κ}

theorem place_n {v : Timer κ} {i : ℕ} (hp : h.place v i = .ok h') : h'.n = h.n := by
  obtain ⟨c, -, heq⟩ := bind_eq_ok.mp hp
  cases heq
  rfl

theorem upLoop_n {v : Timer κ} {i : ℕ} (hu : h.upLoop v i = .ok h') : h'.n = h.n := by
  induction i using Nat.strong_induction_on generalizing h with
  | _ i ih =>
    rw [upLoop] at hu
    split_ifs at hu with hi
    · exact place_n hu
    · obtain ⟨p, -, hu⟩ := bind_eq_ok.mp hu
      split_ifs at hu
      · exact place_n hu
      · obtain ⟨c, -, hu⟩ := bind_eq_ok.mp hu
        exact ih ((i - 1) / 2) (by omega) (h := { h with c, fds := _ }) hu

theorem downLoop_n {v : Timer κ} {i j : ℕ} (hd : h.downLoop v i = .ok (h', j)) : h'.n = h.n := by
  induction hk : h.n - i using Nat.strong_induction_on generalizing h i with
  | _ k ih =>
    rw [downLoop] at hd
    split_ifs at hd with hn
    · obtain ⟨h₁, hp, heq⟩ := bind_eq_ok.mp hd
      cases heq
      exact place_n hp
    · split at hd
      · cases hd
      · rename_i child hm
        have hb := minChild_bounds (not_le.mp hn) hm
        obtain ⟨a, -, hd⟩ := bind_eq_ok.mp hd
        split_ifs at hd
        · obtain ⟨h₁, hp, heq⟩ := bind_eq_ok.mp hd
          cases heq
          exact place_n hp
        · obtain ⟨c, -, hd⟩ := bind_eq_ok.mp hd
          exact ih (h.n - child) (by omega) (h := { h with c, fds := _ }) hd rfl

theorem adjustBoth_n {i : ℕ} (ha : h.adjustBoth i = .ok h') : h'.n = h.n := by
  obtain ⟨⟨h₁, moved⟩, hd, ha⟩ := bind_eq_ok.mp ha
  obtain ⟨v, -, hd⟩ := bind_eq_ok.mp hd
  obtain ⟨⟨h₂, j⟩, hdown, heq⟩ := bind_eq_ok.mp hd
  cases heq
  have hn := downLoop_n hdown
  dsimp only at ha
  split_ifs at ha
  · cases ha
    exact hn
  · obtain ⟨v, -, hu⟩ := bind_eq_ok.mp ha
    exact (upLoop_n hu).trans hn

theorem pop_n (hp : h.pop = .ok h') : h'.n < h.n := by
  rw [pop] at hp
  split_ifs at hp with h0
  rw [del, if_neg h0] at hp
  obtain ⟨a, -, hp⟩ := bind_eq_ok.mp hp
  obtain ⟨b, -, hp⟩ := bind_eq_ok.mp hp
  obtain ⟨c, -, hp⟩ := bind_eq_ok.mp hp
  obtain ⟨c', -, hp⟩ := bind_eq_ok.mp hp
  obtain ⟨h₁, ha, hp⟩ := bind_eq_ok.mp hp
  have hn : h₁.n = h.n - 1 := adjustBoth_n ha
  split at hp
  · cases hp
  · cases hp
    change h₁.n < h.n
    omega

/-- The loop of `TimerQueue::handleTimeout`: `fire` runs a callback on what the
callbacks act on, which the heap is not part of. -/
def handleTimeout (fire : κ → σ → Except Fault σ) (now : TimeStamp) (h : TimerHeap κ) (s : σ) :
    Except Fault (TimerHeap κ × σ) :=
  if h.empty then .ok (h, s)
  else do
    let expired ← h.top
    if expired.timestamp ≤ now then do
      let s ← fire expired.callback s
      match _hp : h.pop with
      | .error e => .error e
      | .ok h => handleTimeout fire now h s
    else .ok (h, s)
termination_by h.n
decreasing_by exact pop_n _hp

theorem WellFormed.handleTimeout_ok (hw : h.WellFormed) (now : TimeStamp) :
    ∃ (l : List (Timer κ)) (h' : TimerHeap κ), h'.WellFormed ∧ (l ++ h'.c).Perm h.c ∧
      (∀ t ∈ l, t.timestamp ≤ now) ∧
      (Ordered h.n (key h.c) → Ordered h'.n (key h'.c) ∧ (∀ t ∈ h'.c, now < t.timestamp) ∧
        l.Pairwise (fun t u ↦ t.timestamp ≤ u.timestamp)) ∧
      ∀ (fire : κ → σ → Except Fault σ) (s : σ), handleTimeout fire now h s =
        (l.foldlM (fun s t ↦ fire t.callback s) s).map fun s ↦ (h', s) := by
  induction hk : h.n using Nat.strong_induction_on generalizing h with
  | _ k ih =>
    subst hk
    cases ht : h.c[0]? with
    | none =>
      have hnil : h.c = [] := by simpa using ht
      have hempty : h.empty = true := by simp [empty, ← hw.size, hnil]
      refine ⟨[], h, hw, by simp, by simp, fun ho ↦ ⟨ho, by simp [hnil], .nil⟩, fun fire s ↦ ?_⟩
      rw [handleTimeout, if_pos hempty]
      rfl
    | some t =>
      have hn : 0 < h.n := hw.size ▸ (List.getElem?_eq_some_iff.mp ht).1
      have hempty : ¬ h.empty = true := by simp [empty, hn.ne']
      rcases le_or_gt t.timestamp now with hle | hgt
      · obtain ⟨h₁, hpop, hw₁, hn₁, hperm₁, hord⟩ := hw.pop_ok ht
        obtain ⟨l, h', hw', hperm, hdue, hrest, heq⟩ := ih h₁.n (by omega) hw₁ rfl
        refine ⟨t :: l, h', hw', (hperm.cons t).trans hperm₁, ?_, fun ho ↦ ?_, fun fire s ↦ ?_⟩
        · intro u hu
          rcases List.mem_cons.mp hu with rfl | hu
          · exact hle
          · exact hdue u hu
        · obtain ⟨ho', hlate, hsorted⟩ := hrest (hord ho)
          refine ⟨ho', hlate, List.pairwise_cons.mpr ⟨fun u hu ↦ ?_, hsorted⟩⟩
          refine hw.top_least ho ht u ?_
          exact hperm₁.mem_iff.mp (.tail t (hperm.mem_iff.mp (List.mem_append_left _ hu)))
        · rw [handleTimeout, if_neg hempty, hw.top_eq ht, List.foldlM_cons]
          simp only [bind, Except.bind, if_pos hle]
          cases hfire : fire t.callback s with
          | error e => rfl
          | ok s₁ =>
            dsimp only
            split
            · rename_i e herr
              rw [hpop] at herr
              cases herr
            · rename_i h₂ hok
              rw [hpop] at hok
              cases hok
              exact heq fire s₁
      · refine ⟨[], h, hw, by simp, by simp, fun ho ↦ ⟨ho, fun u hu ↦ ?_, .nil⟩, fun fire s ↦ ?_⟩
        · exact hgt.trans_le (hw.top_least ho ht u hu)
        · rw [handleTimeout, if_neg hempty, hw.top_eq ht]
          simp only [bind, Except.bind, if_neg (not_le.mpr hgt)]
          rfl

/-- From an ordered heap the timers that are due run once each, in the order in which they
expire, and the others stay. -/
theorem WellFormed.handleTimeout_exact (hw : h.WellFormed) (ho : Ordered h.n (key h.c))
    (now : TimeStamp) :
    ∃ (l : List (Timer κ)) (h' : TimerHeap κ), h'.WellFormed ∧ Ordered h'.n (key h'.c) ∧
      l.Perm (h.c.filter fun t ↦ t.timestamp ≤ now) ∧
      l.Pairwise (fun t u ↦ t.timestamp ≤ u.timestamp) ∧
      h'.c.Perm (h.c.filter fun t ↦ now < t.timestamp) ∧
      ∀ (fire : κ → σ → Except Fault σ) (s : σ), handleTimeout fire now h s =
        (l.foldlM (fun s t ↦ fire t.callback s) s).map fun s ↦ (h', s) := by
  obtain ⟨l, h', hw', hperm, hdue, hrest, hrun⟩ := hw.handleTimeout_ok (σ := σ) now
  obtain ⟨ho', hlate, hsorted⟩ := hrest ho
  refine ⟨l, h', hw', ho', ?_, hsorted, ?_, hrun⟩
  · have hl : (l ++ h'.c).filter (fun t ↦ t.timestamp ≤ now) = l := by
      rw [List.filter_append, List.filter_eq_self.mpr fun t ht ↦ decide_eq_true (hdue t ht),
        List.filter_eq_nil_iff.mpr fun t ht ↦ by simpa using hlate t ht, List.append_nil]
    exact hl ▸ hperm.filter _
  · have hc : (l ++ h'.c).filter (fun t ↦ now < t.timestamp) = h'.c := by
      rw [List.filter_append, List.filter_eq_self.mpr fun t ht ↦ decide_eq_true (hlate t ht),
        List.filter_eq_nil_iff.mpr fun t ht ↦ by simpa using hdue t ht, List.nil_append]
    exact hc ▸ hperm.filter _

def twoTimers : TimerHeap Unit :=
  [Op.push ⟨1, ⟨5⟩, ()⟩, .push ⟨2, ⟨10⟩, ()⟩].foldl step init

theorem twoTimers_ordered :
    twoTimers.WellFormed ∧ Ordered twoTimers.n (key twoTimers.c) :=
  wellFormed_init.foldl_ordered (fun j _ hj ↦ absurd hj (Nat.not_lt_zero j)) ⟨trivial, trivial, trivial⟩

def count (_ : Unit) (n : ℕ) : Except Fault ℕ := .ok (n + 1)

theorem handleTimeout_exact_two : ∃ (l : List (Timer Unit)) (h' : TimerHeap Unit),
    h'.WellFormed ∧ Ordered h'.n (key h'.c) ∧
    l.Perm (twoTimers.c.filter fun t ↦ t.timestamp ≤ ⟨7⟩) ∧
    handleTimeout count ⟨7⟩ twoTimers 0 =
      (l.foldlM (fun n t ↦ count t.callback n) 0).map fun n ↦ (h', n) := by
  obtain ⟨hw, ho⟩ := twoTimers_ordered
  obtain ⟨l, h', hw', ho', hl, -, -, hrun⟩ := hw.handleTimeout_exact ho (σ := ℕ) ⟨7⟩
  exact ⟨l, h', hw', ho', hl, hrun count 0⟩

end Socnet.Net.TimerHeap
