import Socnet.Lib.Run
import Socnet.Net.TimerQueue

namespace Socnet.Net

open Lib.Heap

variable {κ : Type}

namespace TimerHeap

variable {h h' : TimerHeap κ} {v r : Timer κ} {i : ℕ}

theorem place_c (hp : h.place v i = .ok h') : h'.c = h.c.set i v := by
  obtain ⟨l, hput, heq⟩ := bind_eq_ok.mp hp
  cases heq
  rw [put] at hput
  split_ifs at hput
  cases hput
  rfl

theorem get_eq {l : List (Timer κ)} {t : Timer κ} (hg : get l i = .ok t) : l[i]? = some t := by
  rw [get] at hg
  split at hg
  · cases hg
  · cases hg
    assumption

theorem put_eq {l l' : List (Timer κ)} (hp : put l i v = .ok l') : l' = l.set i v := by
  rw [put] at hp
  split_ifs at hp
  cases hp
  rfl

theorem upLoop_root (hi : 0 < i) (hr : h.c[0]? = some r) (hlt : r.timestamp < v.timestamp)
    (hu : h.upLoop v i = .ok h') : h'.c[0]? = some r := by
  induction i using Nat.strong_induction_on generalizing h with
  | _ i ih =>
    rw [upLoop, dif_neg hi.ne'] at hu
    obtain ⟨p, hget, hu⟩ := bind_eq_ok.mp hu
    have hp := get_eq hget
    split_ifs at hu with hv
    · rw [place_c hu, List.getElem?_set_ne hi.ne', hr]
    · obtain ⟨l, hput, hu⟩ := bind_eq_ok.mp hu
      have hpar : 0 < (i - 1) / 2 := by
        refine Nat.pos_of_ne_zero fun hz ↦ ?_
        rw [hz, hr] at hp
        cases hp
        exact hv (decide_eq_true hlt)
      refine ih ((i - 1) / 2) (by omega) hpar ?_ hu
      change l[0]? = some r
      rw [put_eq hput, List.getElem?_set_ne hi.ne', hr]

theorem downLoop_before {j k : ℕ} (hk : k < i) (hd : h.downLoop v i = .ok (h', j)) :
    h'.c[k]? = h.c[k]? := by
  induction hm : h.n - i using Nat.strong_induction_on generalizing h i with
  | _ m ih =>
    have hplace {h₁ : TimerHeap κ} (hp : h.place v i = .ok h₁) : h₁.c[k]? = h.c[k]? := by
      rw [place_c hp, List.getElem?_set_ne hk.ne']
    rw [downLoop] at hd
    split_ifs at hd with hn
    · obtain ⟨h₁, hp, heq⟩ := bind_eq_ok.mp hd
      cases heq
      exact hplace hp
    · split at hd
      · cases hd
      · rename_i child hmin
        have hb := minChild_bounds (not_le.mp hn) hmin
        obtain ⟨a, -, hd⟩ := bind_eq_ok.mp hd
        split_ifs at hd
        · obtain ⟨h₁, hp, heq⟩ := bind_eq_ok.mp hd
          cases heq
          exact hplace hp
        · obtain ⟨l, hput, hd⟩ := bind_eq_ok.mp hd
          have hrec := ih (h.n - child) (by omega) (h := { h with c := l, fds := _ })
            (by omega : k < child) hd rfl
          rw [hrec]
          change l[k]? = h.c[k]?
          rw [put_eq hput, List.getElem?_set_ne hk.ne']

/-- The timers at the two places below that of an fd. -/
def below (h : TimerHeap κ) (fd : ℤ) : List (Timer κ) :=
  match h.fds fd with
  | none => []
  | some i => (h.c.drop (i * 2 + 1)).take 2

theorem minChild_mem {m : ℕ} {a : Timer κ} (hmin : h.minChild (i * 2 + 1) = .ok m)
    (ha : h.c[m]? = some a) : a ∈ (h.c.drop (i * 2 + 1)).take 2 := by
  have hm : m = i * 2 + 1 ∨ m = i * 2 + 1 + 1 := by
    rw [minChild] at hmin
    split_ifs at hmin
    · obtain ⟨b, -, hmin⟩ := bind_eq_ok.mp hmin
      obtain ⟨d, -, hmin⟩ := bind_eq_ok.mp hmin
      cases hmin
      split_ifs
      · exact .inr rfl
      · exact .inl rfl
    · cases hmin
      exact .inl rfl
  apply List.mem_of_getElem? (i := m - (i * 2 + 1))
  rw [List.getElem?_take_of_lt (by omega), List.getElem?_drop, ← ha]
  congr 1
  omega

theorem downLoop_at {j : ℕ} {u : Timer κ} (hi : i < h.c.length)
    (hd : h.downLoop v i = .ok (h', j)) (hu : h'.c[i]? = some u) :
    u = v ∨ u ∈ (h.c.drop (i * 2 + 1)).take 2 := by
  have hplace {h₁ : TimerHeap κ} (hp : h.place v i = .ok h₁) (hu : h₁.c[i]? = some u) : u = v := by
    rw [place_c hp, List.getElem?_set_self hi] at hu
    exact (Option.some.inj hu).symm
  rw [downLoop] at hd
  split_ifs at hd with hn
  · obtain ⟨h₁, hp, heq⟩ := bind_eq_ok.mp hd
    cases heq
    exact .inl (hplace hp hu)
  · split at hd
    · cases hd
    · rename_i child hmin
      have hb := minChild_bounds (not_le.mp hn) hmin
      obtain ⟨a, hget, hd⟩ := bind_eq_ok.mp hd
      split_ifs at hd
      · obtain ⟨h₁, hp, heq⟩ := bind_eq_ok.mp hd
        cases heq
        exact .inl (hplace hp hu)
      · obtain ⟨l, hput, hd⟩ := bind_eq_ok.mp hd
        have hbefore := downLoop_before (by omega : i < child) hd
        rw [hbefore] at hu
        change l[i]? = some u at hu
        rw [put_eq hput, List.getElem?_set_self hi] at hu
        cases hu
        exact .inr (minChild_mem hmin (get_eq hget))

theorem adjustBoth_root (hi : 0 < i) (hlen : i < h.c.length) (hr : h.c[0]? = some r)
    (hv : h.c[i]? = some v) (hlt : r.timestamp < v.timestamp)
    (hbelow : ∀ u ∈ (h.c.drop (i * 2 + 1)).take 2, r.timestamp < u.timestamp)
    (ha : h.adjustBoth i = .ok h') : h'.c[0]? = some r := by
  obtain ⟨⟨h₁, moved⟩, hdown, ha⟩ := bind_eq_ok.mp ha
  obtain ⟨v', hget, hdown⟩ := bind_eq_ok.mp hdown
  rw [get_eq_ok hv] at hget
  cases hget
  obtain ⟨⟨h₂, j⟩, hloop, heq⟩ := bind_eq_ok.mp hdown
  cases heq
  have hr₁ : h₁.c[0]? = some r := (downLoop_before hi hloop).trans hr
  dsimp only at ha
  split_ifs at ha
  · cases ha
    exact hr₁
  · obtain ⟨u, hget, hup⟩ := bind_eq_ok.mp ha
    refine upLoop_root hi hr₁ ?_ hup
    rcases downLoop_at hlen hloop (get_eq hget) with rfl | hu
    · exact hlt
    · exact hbelow u hu

theorem WellFormed.lookup_of_ne (hw : h.WellFormed) (hr : h.c[0]? = some r) {fd : ℤ}
    (hfd : fd ≠ r.fd) (hi : h.fds fd = some i) :
    ∃ u, h.c[i]? = some u ∧ i < h.c.length ∧ 0 < i := by
  obtain ⟨u, hu, hut⟩ := hw.lookup hi
  refine ⟨u, hu, (List.getElem?_eq_some_iff.mp hu).1, Nat.pos_of_ne_zero fun hz ↦ hfd ?_⟩
  rw [hz, hr] at hu
  cases hu
  exact hut.symm

/-- A timer pushed behind the first one leaves it first, also when the push renews a
timer that stands above ones that are not due before the first. -/
theorem WellFormed.push_root (hw : h.WellFormed) (hr : h.c[0]? = some r) {t : Timer κ}
    (hfd : t.fd ≠ r.fd) (hlt : r.timestamp < t.timestamp)
    (hbelow : ∀ u ∈ h.below t.fd, r.timestamp < u.timestamp) (hp : h.push t = .ok h') :
    h'.c[0]? = some r := by
  have hpos : 0 < h.c.length := (List.getElem?_eq_some_iff.mp hr).1
  rw [push] at hp
  cases hi : h.fds t.fd with
  | none =>
    rw [hi] at hp
    dsimp only at hp
    have hone : ¬ h.n + 1 = 1 := by
      have := hw.size
      omega
    rw [if_neg hone, Nat.add_sub_cancel] at hp
    obtain ⟨v, hget, hup⟩ := bind_eq_ok.mp hp
    have hv : (h.c ++ [t])[h.n]? = some v := get_eq hget
    rw [← hw.size, List.getElem?_concat_length] at hv
    cases hv
    refine upLoop_root (hw.size ▸ hpos) ?_ hlt hup
    change (h.c ++ [t])[0]? = some r
    rw [List.getElem?_append_left hpos, hr]
  | some i =>
    obtain ⟨u, hu, hlen, hi0⟩ := hw.lookup_of_ne hr hfd hi
    rw [hi] at hp
    dsimp only at hp
    rw [get_eq_ok hu] at hp
    simp only [bind, Except.bind, put_eq_ok _ hlen] at hp
    refine adjustBoth_root (v := { u with timestamp := t.timestamp, callback := t.callback })
      hi0 ?_ ?_ (List.getElem?_set_self hlen) hlt ?_ hp
    · change i < (h.c.set i _).length
      rw [List.length_set]
      exact hlen
    · change (h.c.set i _)[0]? = some r
      rw [List.getElem?_set_ne hi0.ne', hr]
    · intro s hs
      apply hbelow s
      rw [below, hi]
      dsimp only at hs ⊢
      rwa [List.drop_set_of_lt (by omega)] at hs

theorem WellFormed.adjust_root_of_ne (hw : h.WellFormed) (hr : h.c[0]? = some r) {t : Timer κ}
    (hfd : t.fd ≠ r.fd) (ha : h.adjust t = .ok h') : h'.c[0]? = some r := by
  rw [adjust] at ha
  cases hi : h.fds t.fd with
  | none =>
    rw [hi] at ha
    cases ha
    exact hr
  | some i =>
    obtain ⟨u, hu, hlen, hi0⟩ := hw.lookup_of_ne hr hfd hi
    rw [hi] at ha
    dsimp only at ha
    rw [get_eq_ok hu] at ha
    simp only [bind, Except.bind, put_eq_ok _ hlen] at ha
    obtain ⟨⟨h₁, moved⟩, hdown, heq⟩ := bind_eq_ok.mp ha
    cases heq
    obtain ⟨v, -, hdown⟩ := bind_eq_ok.mp hdown
    obtain ⟨⟨h₂, j⟩, hloop, heq⟩ := bind_eq_ok.mp hdown
    cases heq
    rw [downLoop_before hi0 hloop]
    change (h.c.set i _)[0]? = some r
    rw [List.getElem?_set_ne hi0.ne', hr]

/-- The first timer stays first when it is adjusted to a time before that of every other. -/
theorem WellFormed.adjust_root_of_lt (hw : h.WellFormed) (hr : h.c[0]? = some r) {t : Timer κ}
    (hfd : t.fd = r.fd) (hlt : ∀ u ∈ h.c, u.fd ≠ r.fd → t.timestamp < u.timestamp)
    (ha : h.adjust t = .ok h') : h'.c[0]? = some { r with timestamp := t.timestamp } := by
  have hpos : 0 < h.c.length := (List.getElem?_eq_some_iff.mp hr).1
  have hi : h.fds t.fd = some 0 := by
    rw [hfd]
    exact hw.index 0 r hr
  have hh := hw.holed_set hr (u := { r with timestamp := t.timestamp }) rfl
  obtain ⟨h₁, j, hdown, -, -, -, -, -, hstay⟩ := hh.downLoop_ok
  rw [adjust, hi] at ha
  dsimp only at ha
  rw [get_eq_ok hr] at ha
  simp only [bind, Except.bind, put_eq_ok _ hpos] at ha
  rw [downAdjust, get_eq_ok (List.getElem?_set_self hpos)] at ha
  simp only [bind, Except.bind, hdown] at ha
  cases ha
  rw [hstay ?_]
  · change ((h.c.set 0 _).set 0 _)[0]? = _
    rw [List.set_set, List.getElem?_set_self hpos]
  · intro k hk0 hk _
    change k < h.n at hk
    change t.timestamp < key (h.c.set 0 _) k
    obtain ⟨u, hu⟩ : ∃ u, h.c[k]? = some u :=
      ⟨_, List.getElem?_eq_getElem (by rw [hw.size]; exact hk)⟩
    rw [key_of_ne hk0.ne, key_of_getElem? hu]
    exact hlt u (List.mem_of_getElem? hu) (fd_ne hw.nodup hu hr hk0.ne')

end TimerHeap

/-- Where the loop thread is in `TimerQueue::handleTimeout`. Each of the steps takes the
mutex of the heap by itself, and `expired` is a copy of the timer. -/
inductive Phase (κ : Type)
  | idle
  | empty (now : TimeStamp)
  | top (now : TimeStamp)
  | callback (now : TimeStamp) (expired : Timer κ)
  | pop (now : TimeStamp) (expired : Timer κ)

structure Expiry (κ : Type) where
  heap : TimerHeap κ
  phase : Phase κ
  called : List κ

/-- A step of the loop thread, which reads the clock when it enters `handleTimeout`, or
one of a worker. -/
inductive Turn (κ : Type)
  | loop (now : TimeStamp)
  | push (t : Timer κ)
  | adjust (t : Timer κ)

namespace Expiry

variable {s s' : Expiry κ}

def init : Expiry κ := ⟨.init, .idle, []⟩

def loopStep (s : Expiry κ) (now : TimeStamp) : Except Fault (Expiry κ) :=
  match s.phase with
  | .idle => .ok { s with phase := .empty now }
  | .empty now => .ok { s with phase := if s.heap.empty then .idle else .top now }
  | .top now => do
    let expired ← s.heap.top
    .ok { s with phase := if expired.timestamp ≤ now then .callback now expired else .idle }
  | .callback now expired =>
    .ok { s with phase := .pop now expired, called := s.called ++ [expired.callback] }
  | .pop now _ => do
    let heap ← s.heap.pop
    .ok { s with heap, phase := .empty now }

def step (s : Expiry κ) : Turn κ → Except Fault (Expiry κ)
  | .loop now => s.loopStep now
  | .push t => do
    let heap ← s.heap.push t
    .ok { s with heap }
  | .adjust t => do
    let heap ← s.heap.adjust t
    .ok { s with heap }

def run (turns : List (Turn κ)) : Except Fault (Expiry κ) := turns.foldlM step init

/-- With no worker in between, the steps of the loop thread are those of the loop. -/
theorem handleTimeout_steps {h : TimerHeap κ} (hw : h.WellFormed) (now : TimeStamp) (l : List κ) :
    ∃ k h' l', (List.replicate k (.loop now)).foldlM step ⟨h, .empty now, l⟩ = .ok ⟨h', .idle, l'⟩ ∧
      h.handleTimeout (fun callback l ↦ .ok (l ++ [callback])) now l = .ok (h', l') := by
  induction hk : h.n using Nat.strong_induction_on generalizing h l with
  | _ n ih =>
    rw [TimerHeap.handleTimeout]
    by_cases hempty : h.empty = true
    · refine ⟨1, h, l, ?_, by rw [if_pos hempty]⟩
      simp only [List.replicate_one, List.foldlM_cons, List.foldlM_nil, step, loopStep,
        if_pos hempty]
      rfl
    · have hpos : 0 < h.c.length := by
        rw [hw.size]
        exact Nat.pos_of_ne_zero fun hz ↦ hempty (decide_eq_true hz)
      obtain ⟨t, ht⟩ : ∃ t, h.c[0]? = some t := ⟨_, List.getElem?_eq_getElem hpos⟩
      rw [if_neg hempty, hw.top_eq ht]
      by_cases hle : t.timestamp ≤ now
      · obtain ⟨h₁, hpop, hw₁, hn₁, -, -⟩ := hw.pop_ok ht
        obtain ⟨k, h', l', hsteps, hloop⟩ := ih h₁.n (by omega) hw₁ (l ++ [t.callback]) rfl
        refine ⟨k + 4, h', l', ?_, ?_⟩
        · simp only [List.replicate_succ, List.foldlM_cons, step, loopStep, if_neg hempty,
            hw.top_eq ht, bind, Except.bind, if_pos hle, hpop]
          exact hsteps
        · simp only [bind, Except.bind, if_pos hle]
          split
          · rename_i e herr
            rw [hpop] at herr
            cases herr
          · rename_i h₂ hok
            rw [hpop] at hok
            cases hok
            exact hloop
      · refine ⟨2, h, l, ?_, ?_⟩
        · simp only [List.replicate_succ, List.replicate_zero, List.foldlM_cons, List.foldlM_nil,
            step, loopStep, if_neg hempty, hw.top_eq ht, bind, Except.bind, if_neg hle]
          rfl
        · simp only [bind, Except.bind, if_neg hle]

end Expiry

namespace Phase

/-- The timer that `handleTimeout` holds a copy of and is about to pop. -/
def held : Phase κ → Option (Timer κ)
  | .callback _ expired => some expired
  | .pop _ expired => some expired
  | _ => none

/-- The timer whose callback has just been called. -/
def ran : Phase κ → Option (Timer κ)
  | .pop _ expired => some expired
  | _ => none

theorem held_of_ran {phase : Phase κ} {e : Timer κ} (h : phase.ran = some e) :
    phase.held = some e := by
  cases phase with
  | pop now expired => exact h
  | _ => cases h

end Phase

/-- While a timer is held, a worker pushes no timer of its fd, none due as early as it
is, none in the place above one due as early; and adjusts it, if at all, to a time
before that of every other timer. -/
def TimerHeap.Keeps (h : TimerHeap κ) : Option (Timer κ) → Turn κ → Prop
  | some e, .push t => t.fd ≠ e.fd ∧ ∀ r ∈ h.c, r.fd = e.fd →
      r.timestamp < t.timestamp ∧ ∀ u ∈ h.below t.fd, r.timestamp < u.timestamp
  | some e, .adjust t => t.fd = e.fd → ∀ u ∈ h.c, u.fd ≠ e.fd → t.timestamp < u.timestamp
  | _, _ => True

instance TimerHeap.decidableKeeps (h : TimerHeap κ) :
    (held : Option (Timer κ)) → DecidablePred (h.Keeps held)
  | some _, .push _ => inferInstanceAs (Decidable (_ ∧ ∀ _ ∈ _, _))
  | some _, .adjust _ => inferInstanceAs (Decidable (_ → ∀ _ ∈ _, _))
  | some _, .loop _ => inferInstanceAs (Decidable True)
  | none, _ => inferInstanceAs (Decidable True)

namespace Expiry

variable {s s' : Expiry κ}

/-- The pop that follows removes the timer whose callback was called last, and no timer
of its fd is left. -/
def PopsExpired (s : Expiry κ) : Prop :=
  ∀ expired ∈ s.phase.ran, ∃ r heap, s.heap.pop = .ok heap ∧ (r :: heap.c).Perm s.heap.c ∧
    r.fd = expired.fd ∧ s.called.getLast? = some r.callback ∧ ∀ u ∈ heap.c, u.fd ≠ expired.fd

def Undisturbed (turns : List (Turn κ)) : Prop :=
  Lib.Run.Throughout step (fun s turn ↦ s.heap.Keeps s.phase.held turn) init turns

structure Invariant (s : Expiry κ) : Prop where
  wellFormed : s.heap.WellFormed
  nonempty : ∀ now, s.phase = .top now → s.heap.c ≠ []
  root : ∀ e, s.phase.held = some e →
    ∃ r, s.heap.c[0]? = some r ∧ r.fd = e.fd ∧ r.callback = e.callback
  last : ∀ e, s.phase.ran = some e → s.called.getLast? = some e.callback

theorem invariant_init : (init : Expiry κ).Invariant :=
  ⟨TimerHeap.wellFormed_init, by simp [init], by simp [init, Phase.held],
    by simp [init, Phase.ran]⟩

theorem Invariant.popsExpired (hi : s.Invariant) : s.PopsExpired := by
  intro e he
  obtain ⟨r, hr, hfd, hcb⟩ := hi.root e (Phase.held_of_ran he)
  obtain ⟨h', hpop, -, -, hperm, -⟩ := hi.wellFormed.pop_ok hr
  refine ⟨r, h', hpop, hperm, hfd, ?_, fun u hu heq ↦ ?_⟩
  · rw [hi.last e he, hcb]
  · have hnd : ((r :: h'.c).map Timer.fd).Nodup :=
      (hperm.map _).nodup_iff.mpr hi.wellFormed.nodup
    rw [List.map_cons, List.nodup_cons] at hnd
    apply hnd.1
    rw [hfd, ← heq]
    exact List.mem_map_of_mem hu

theorem Invariant.loopStep (hi : s.Invariant) (now : TimeStamp) :
    ∃ s', s.loopStep now = .ok s' ∧ s'.Invariant := by
  obtain ⟨hw, hne, hroot, hlast⟩ := hi
  obtain ⟨heap, phase, called⟩ := s
  dsimp only at hw hne hroot hlast
  cases phase with
  | idle => exact ⟨_, rfl, hw, by simp, by simp [Phase.held], by simp [Phase.ran]⟩
  | empty now =>
    refine ⟨_, rfl, hw, ?_, ?_, ?_⟩
    · intro now' hp hnil
      have hempty : heap.empty = true := by
        rw [TimerHeap.empty, ← hw.size, hnil]
        rfl
      simp [hempty] at hp
    · intro e he
      dsimp only at he
      split_ifs at he
      · cases he
      · cases he
    · intro e he
      dsimp only at he
      split_ifs at he
      · cases he
      · cases he
  | top now =>
    obtain ⟨t, rest, hc⟩ := List.exists_cons_of_ne_nil (hne now rfl)
    have ht : heap.c[0]? = some t := by rw [hc]; rfl
    simp only [Expiry.loopStep, hw.top_eq ht, bind, Except.bind]
    refine ⟨_, rfl, hw, ?_, ?_, ?_⟩
    · intro now' hp
      dsimp only at hp
      split_ifs at hp
    · intro e he
      dsimp only at he
      split_ifs at he
      · cases he
        exact ⟨t, ht, rfl, rfl⟩
      · cases he
    · intro e he
      dsimp only at he
      split_ifs at he
      · cases he
      · cases he
  | callback now e =>
    refine ⟨_, rfl, hw, by simp, fun e' he ↦ hroot e' he, ?_⟩
    intro e' he
    cases he
    exact List.getLast?_concat
  | pop now e =>
    obtain ⟨r, hr, -, -⟩ := hroot e rfl
    obtain ⟨h', hpop, hw', -, -, -⟩ := hw.pop_ok hr
    simp only [Expiry.loopStep, hpop, bind, Except.bind]
    exact ⟨_, rfl, hw', by simp, by simp [Phase.held], by simp [Phase.ran]⟩

theorem Invariant.push (hi : s.Invariant) {t : Timer κ} (hk : s.heap.Keeps s.phase.held (.push t)) :
    ∃ s', s.step (.push t) = .ok s' ∧ s'.Invariant := by
  obtain ⟨h', hpush, hw', hmem, -⟩ := hi.wellFormed.push_mem t
  refine ⟨{ s with heap := h' }, by simp only [step, hpush]; rfl, hw', ?_, ?_, hi.last⟩
  · intro now _ hnil
    have := (hmem t).mpr (.inl rfl)
    rw [hnil] at this
    cases this
  · intro e he
    change s.phase.held = some e at he
    obtain ⟨r, hr, hfd, hcb⟩ := hi.root e he
    rw [he] at hk
    obtain ⟨hne, hearly⟩ := hk
    obtain ⟨hlt, hbelow⟩ := hearly r (List.mem_of_getElem? hr) hfd
    exact ⟨r, hi.wellFormed.push_root hr (hfd ▸ hne) hlt hbelow hpush, hfd, hcb⟩

theorem Invariant.adjust (hi : s.Invariant) {t : Timer κ} (hk : s.heap.Keeps s.phase.held (.adjust t)) :
    ∃ s', s.step (.adjust t) = .ok s' ∧ s'.Invariant := by
  obtain ⟨h', hadjust, hw', hcase⟩ := hi.wellFormed.adjust_mem t
  refine ⟨{ s with heap := h' }, by simp only [step, hadjust]; rfl, hw', ?_, ?_, hi.last⟩
  · intro now hp hnil
    rcases hcase with ⟨-, rfl⟩ | ⟨u, -, -, hmem, -⟩
    · exact hi.nonempty now hp hnil
    · have := (hmem _).mpr (.inl rfl)
      rw [hnil] at this
      cases this
  · intro e he
    change s.phase.held = some e at he
    obtain ⟨r, hr, hfd, hcb⟩ := hi.root e he
    rw [he] at hk
    by_cases hte : t.fd = e.fd
    · refine ⟨_, hi.wellFormed.adjust_root_of_lt hr (hte.trans hfd.symm) ?_ hadjust, hfd, hcb⟩
      rw [hfd]
      exact hk hte
    · exact ⟨r, hi.wellFormed.adjust_root_of_ne hr (hfd ▸ hte) hadjust, hfd, hcb⟩

theorem Invariant.step (hi : s.Invariant) {turn : Turn κ} (hk : s.heap.Keeps s.phase.held turn) :
    ∃ s', s.step turn = .ok s' ∧ s'.Invariant := by
  cases turn with
  | loop now => exact hi.loopStep now
  | push t => exact hi.push hk
  | adjust t => exact hi.adjust hk

/-- In every run in which no worker disturbs the timer held between `top` and `pop`,
each pop removes the timer whose callback has just been called. -/
theorem undisturbed_pops_expired (turns : List (Turn κ)) (hu : Undisturbed turns) :
    ∃ s, run turns = .ok s ∧ s.PopsExpired := by
  obtain ⟨s, hrun, hi⟩ := Lib.Run.Throughout.invariant (fun _ _ hi hk ↦ Invariant.step hi hk) hu
    invariant_init
  exact ⟨s, hrun, hi.popsExpired⟩

theorem undisturbed_pops_expired_two :
    ∃ s, run [.push ⟨1, ⟨1⟩, 10⟩, .loop ⟨3⟩, .loop ⟨3⟩, .loop ⟨3⟩, .push ⟨2, ⟨5⟩, 20⟩,
      .adjust ⟨1, ⟨2⟩, 0⟩, .loop ⟨3⟩] = .ok s ∧ s.PopsExpired :=
  undisturbed_pops_expired _ (by unfold Undisturbed; decide +kernel)

/-- The expired timer is renewed after the loop has copied it: its callback is called
all the same, and the other timer is removed in its place. -/
theorem not_pops_expired : ¬ ∀ (turns : List (Turn ℕ)) (s : Expiry ℕ), run turns = .ok s →
    s.PopsExpired := by
  intro hall
  have hex : ∃ s, run [.push ⟨1, ⟨1⟩, 10⟩, .push ⟨2, ⟨5⟩, 20⟩, .loop ⟨3⟩, .loop ⟨3⟩, .loop ⟨3⟩,
      .adjust ⟨1, ⟨9⟩, 0⟩, .loop ⟨3⟩] = .ok s ∧ ∃ e ∈ s.phase.ran, e.fd = 1 ∧
      ∃ heap, s.heap.pop = .ok heap ∧ ∃ u ∈ heap.c, u.fd = 1 := by
    decide +kernel
  obtain ⟨s, hrun, e, he, hfde, heap, hpop, u, hu, hfd⟩ := hex
  obtain ⟨r, heap', hpop', -, -, -, hgone⟩ := hall _ s hrun e he
  rw [hpop] at hpop'
  cases hpop'
  exact hgone u hu (hfd.trans hfde.symm)

end Expiry

end Socnet.Net
