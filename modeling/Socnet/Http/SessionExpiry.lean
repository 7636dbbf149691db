import Socnet.Http.SessionIsolation

namespace Socnet.Http.Sessions

open Net Utility.EncodeUtil

variable {s s' : Sessions} {cookies : HttpMap Bytes Bytes} {random : RandomStr 16}
  {clock : TimeStamp.Clock}

/-- Every session that is stored has a timer in the heap whose callback removes it. -/
def Expires (s : Sessions) : Prop :=
  ∀ k i, s.sessions.get k = some i → ∃ timer, s.sessionTimer = some timer ∧
    ∃ t ∈ timer.c, t.callback = i ∧ (s.handleSessionTimeout t.callback).sessions.get k = none

/-- A session that a request creates is kept under the fd of no stored session. -/
def Unshared (s : Sessions) : Event → Prop
  | .associate cookies random _ =>
    s.findSession cookies = none → ∀ k ∈ s.sessions.keys, timerFd k ≠ timerFd (sessionId random)
  | _ => True

instance decidableUnshared (s : Sessions) : DecidablePred s.Unshared
  | .associate _ _ _ => inferInstanceAs (Decidable (_ = none → ∀ _ ∈ _, _))
  | .invalidate _ => inferInstanceAs (Decidable True)
  | .timeout _ => inferInstanceAs (Decidable True)
  | .tick _ => inferInstanceAs (Decidable True)

theorem mem_keys_iff {k : Bytes} : k ∈ s.sessions.keys ↔ ∃ i, s.sessions.get k = some i := by
  rw [← AList.mem_keys, ← AList.lookup_isSome, Option.isSome_iff_exists]
  rfl

/-- Every session that is stored has a timer of its own. -/
def Timed (s : Sessions) : Prop :=
  ∀ k i, s.sessions.get k = some i →
    ∃ timer, s.sessionTimer = some timer ∧ ∃ t ∈ timer.c, t.callback = i

theorem Registered.expires_iff (hr : s.Registered) : s.Expires ↔ s.Timed := by
  refine forall_congr' fun k ↦ forall_congr' fun i ↦ forall_congr' fun hk ↦ ?_
  obtain ⟨o, ho, hid⟩ := hr.id k i hk
  constructor
  · intro h
    obtain ⟨timer, ht, t, hmem, hcb, -⟩ := h
    exact ⟨timer, ht, t, hmem, hcb⟩
  · intro h
    obtain ⟨timer, ht, t, hmem, rfl⟩ := h
    refine ⟨timer, ht, t, hmem, rfl, ?_⟩
    rw [Sessions.handleSessionTimeout, ho, ← hid]
    exact HttpMap.get_remove_self _ _

theorem Registered.entry_fd (hr : s.Registered) {timer : TimerHeap ℕ}
    (ht : s.sessionTimer = some timer) {t : Timer ℕ} (hmem : t ∈ timer.c) {k : Bytes}
    (hk : s.sessions.get k = some t.callback) : t.fd = timerFd k := by
  obtain ⟨o, ho, hfd⟩ := (hr.heap timer ht).2 t hmem
  obtain ⟨p, hp, hid⟩ := hr.id k t.callback hk
  rw [ho] at hp
  cases hp
  rw [hfd, hid]

theorem Registered.timed_access (hr : s.Registered) {i : ℕ} {o : HttpSession}
    {timer timer' : TimerHeap ℕ} {at' : TimeStamp} (hx : s.Timed)
    (ht : s.sessionTimer = some timer) (ha : timer.adjust ⟨timerFd o.id, at', i⟩ = .ok timer') :
    ({ s.setStatus i .accessed with sessionTimer := some timer' } : Sessions).Timed := by
  intro k j hj
  obtain ⟨timer₁, ht₁, t, hmem, hcb⟩ := hx k j hj
  rw [ht] at ht₁
  cases ht₁
  obtain ⟨timer₂, ha₂, -, hcase⟩ := (hr.heap timer ht).1.adjust_mem ⟨timerFd o.id, at', i⟩
  rw [ha] at ha₂
  cases ha₂
  refine ⟨timer', rfl, ?_⟩
  rcases hcase with ⟨-, rfl⟩ | ⟨u, hu, hufd, hiff, -⟩
  · exact ⟨t, hmem, hcb⟩
  · by_cases hfd : t.fd = timerFd o.id
    · have htu : t = u := by
        have hfilter := (hr.heap timer ht).1.filter_fd hu
        have : t ∈ timer.c.filter (fun v ↦ v.fd = u.fd) := by
          rw [List.mem_filter]
          exact ⟨hmem, decide_eq_true (hfd.trans hufd.symm)⟩
        rw [hfilter] at this
        exact List.mem_singleton.mp this
      subst htu
      exact ⟨_, (hiff _).mpr (.inl rfl), hcb⟩
    · exact ⟨t, (hiff t).mpr (.inr ⟨hmem, hfd⟩), hcb⟩

/-- A new session leaves every stored one with its timer just when none of them is kept
under its fd, whose timer the new one overwrites. -/
theorem Registered.timed_create_iff (hr : s.Registered) {timer' : TimerHeap ℕ} {at' : TimeStamp}
    (hx : s.Timed) (hfresh : ∀ o ∈ s.objects, o.id ≠ sessionId random)
    (hp : (s.sessionTimer.getD .init).push ⟨timerFd (sessionId random), at', s.objects.length⟩ =
      .ok timer') :
    ({ (s.createSession random).1 with sessionTimer := some timer' } : Sessions).Timed ↔
      ∀ k ∈ s.sessions.keys, timerFd k ≠ timerFd (sessionId random) := by
  obtain ⟨timer₁, hp₁, -, hiff, -⟩ :=
    hr.sessionTimer.1.push_mem ⟨timerFd (sessionId random), at', s.objects.length⟩
  rw [hp] at hp₁
  cases hp₁
  have hne {k : Bytes} {i : ℕ} (hk : s.sessions.get k = some i) : k ≠ sessionId random := by
    obtain ⟨o, ho, hid⟩ := hr.id k i hk
    exact hid ▸ hfresh o (List.mem_of_getElem? ho)
  constructor
  · intro hall k hk hfd
    obtain ⟨i, hi⟩ := mem_keys_iff.mp hk
    obtain ⟨timer₂, ht₂, t, hmem, hcb⟩ :=
      hall k i ((HttpMap.get_add_of_ne _ _ (hne hi)).trans hi)
    cases ht₂
    obtain ⟨o, ho, hid⟩ := hr.id k i hi
    rcases (hiff t).mp hmem with rfl | ⟨hmem, htfd⟩
    · exact ((List.getElem?_eq_some_iff.mp ho).1.ne hcb.symm).elim
    · subst hcb
      obtain ⟨timer, ht, -⟩ := hx k _ hi
      rw [ht] at hmem
      exact htfd ((hr.entry_fd ht hmem hi).trans hfd)
  · intro hall k i hi
    refine ⟨timer', rfl, ?_⟩
    change (s.sessions.add (sessionId random) s.objects.length).get k = some i at hi
    by_cases hk : k = sessionId random
    · rw [hk, HttpMap.get_add_self] at hi
      cases hi
      exact ⟨_, (hiff _).mpr (.inl rfl), rfl⟩
    · rw [HttpMap.get_add_of_ne _ _ hk] at hi
      obtain ⟨timer, ht, t, hmem, rfl⟩ := hx k i hi
      refine ⟨t, (hiff t).mpr (.inr ⟨by rw [ht]; exact hmem, ?_⟩), rfl⟩
      rw [hr.entry_fd ht hmem hi]
      exact hall k (mem_keys_iff.mpr ⟨_, hi⟩)

theorem Timed.handleSessionTimeout (hx : s.Timed) (i : ℕ) : (s.handleSessionTimeout i).Timed := by
  rw [handleSessionTimeout_frame]
  intro k j hj
  exact hx k j (get_of_handleSessionTimeout hj)

theorem get_handleSessionTimeout {k : Bytes} {i j : ℕ} {o : HttpSession}
    (hk : (s.handleSessionTimeout i).sessions.get k = some j) (ho : s.objects[i]? = some o) :
    k ≠ o.id ∧ s.sessions.get k = some j := by
  rw [handleSessionTimeout, ho] at hk
  exact HttpMap.get_remove_eq_some.mp hk

theorem get_foldl_handleSessionTimeout {l : List (Timer ℕ)} {k : Bytes} {j : ℕ}
    (hl : ∀ t ∈ l, ∃ o, s.objects[t.callback]? = some o)
    (hk : (l.foldl (fun s t ↦ s.handleSessionTimeout t.callback) s).sessions.get k = some j) :
    s.sessions.get k = some j ∧ ∀ t ∈ l, ∀ o, s.objects[t.callback]? = some o → k ≠ o.id := by
  induction l generalizing s with
  | nil => exact ⟨hk, by simp⟩
  | cons t l ih =>
    have hobj : (s.handleSessionTimeout t.callback).objects = s.objects := by
      rw [handleSessionTimeout_frame]
    rw [List.foldl_cons] at hk
    obtain ⟨hget, hrest⟩ := ih (fun u hu ↦ hobj ▸ hl u (.tail t hu)) hk
    rw [hobj] at hrest
    obtain ⟨o, ho⟩ := hl t (.head l)
    obtain ⟨hne, hget⟩ := get_handleSessionTimeout hget ho
    refine ⟨hget, fun u hu p hp ↦ ?_⟩
    rcases List.mem_cons.mp hu with rfl | hu
    · rw [ho] at hp
      cases hp
      exact hne
    · exact hrest u hu p hp

theorem Registered.timed_tick (hr : s.Registered) (hx : s.Timed)
    (heq : s.handleTimeout clock = .ok s') : s'.Timed := by
  rcases hr.tracked.handleTimeout_cases clock with ⟨-, hok⟩ | ⟨timer, timer', l, ht, hw', hperm, hok⟩
  · rw [heq] at hok
    cases hok
    exact hx
  · rw [heq] at hok
    cases hok
    refine fun k j hj ↦ ⟨timer', rfl, ?_⟩
    have hl : ∀ t ∈ l, ∃ o, s.objects[t.callback]? = some o := by
      intro t hmem
      obtain ⟨o, ho, -⟩ := (hr.heap timer ht).2 t (hperm.mem_iff.mp (List.mem_append_left _ hmem))
      exact ⟨o, ho⟩
    obtain ⟨hget, hgone⟩ := get_foldl_handleSessionTimeout hl hj
    obtain ⟨timer₁, ht₁, t, hmem, rfl⟩ := hx k j hget
    rw [ht] at ht₁
    cases ht₁
    -- had the timer of the session come off, its callback would have removed it
    rcases List.mem_append.mp (hperm.mem_iff.mpr hmem) with hmem | hmem
    · obtain ⟨o, ho, hid⟩ := hr.id k t.callback hget
      exact absurd hid.symm (hgone t hmem o ho)
    · exact ⟨t, hmem, rfl⟩

theorem Registered.expires_step (hr : s.Registered) {event : Event} (hf : s.Fresh event) :
    ∃ s', s.step event = .ok s' ∧ s'.Registered ∧ (s.Expires → (s'.Expires ↔ s.Unshared event)) := by
  obtain ⟨s', heq, hr'⟩ := hr.step hf
  refine ⟨s', heq, hr', fun hx ↦ ?_⟩
  rw [hr'.expires_iff]
  rw [hr.expires_iff] at hx
  cases event with
  | associate cookies random clock =>
    rcases hr.tracked.associateSession_cases cookies random clock with
      ⟨i, o, timer, timer', hfind, ht, hadjust, hok⟩ | ⟨timer', hfind, hpush, hok⟩
    · simp only [Sessions.step, hok, bind, Except.bind] at heq
      cases heq
      refine iff_of_true (hr.timed_access hx ht hadjust) fun hn ↦ ?_
      rw [hfind] at hn
      cases hn
    · simp only [Sessions.step, hok, bind, Except.bind] at heq
      cases heq
      refine (hr.timed_create_iff hx (hf hfind) hpush).trans ?_
      rw [Unshared, hfind]
      simp
  | invalidate i =>
    cases heq
    exact iff_of_true hx trivial
  | timeout i =>
    cases heq
    exact iff_of_true (hx.handleSessionTimeout i) trivial
  | tick clock => exact iff_of_true (hr.timed_tick hx heq) trivial

/-- In every run whose new ids are fresh, each session stored in a state that is reached
has its own timer just when no session is created under the fd of a stored one. -/
theorem sessions_expire_iff (lifetime : Int32) (events : List Event)
    (hf : Lib.Run.Throughout step Fresh (init lifetime) events) :
    (∀ s, Lib.Run.Reaches step (init lifetime) events s → s.Expires) ↔
      Lib.Run.Throughout step Unshared (init lifetime) events := by
  refine hf.good_iff (fun _ _ hr hfe ↦ hr.expires_step hfe) (registered_init lifetime) ?_
  intro k i hk
  cases hk

theorem sessions_expire_three :
    Lib.Run.Throughout step Fresh (init 1800) threeRequests ∧
      ∀ s, Lib.Run.Reaches step (init 1800) threeRequests s → s.Expires := by
  have hf : Lib.Run.Throughout step Fresh (init 1800) threeRequests := by decide +kernel
  exact ⟨hf, (sessions_expire_iff 1800 threeRequests hf).mpr (by decide +kernel)⟩

def twoSessions : List Event :=
  [.associate ∅ ⟨ascii "0000000000oEyBFj", by decide, by decide +kernel⟩ ⟨7, by decide⟩,
    .associate ∅ ⟨ascii "0000000000I3ausN", by decide, by decide +kernel⟩ ⟨8, by decide⟩]

/-- Two sessions whose ids have the same hash: the first one is left without a timer. -/
theorem not_sessions_expire : ¬ ∀ (lifetime : Int32) (events : List Event),
    Lib.Run.Throughout step Fresh (init lifetime) events →
    ∀ s, Lib.Run.Reaches step (init lifetime) events s → s.Expires := by
  intro hall
  have hfresh : Lib.Run.Throughout step Fresh (init 1800) twoSessions := by decide +kernel
  have hrun : ∃ s, twoSessions.foldlM step (init 1800) = .ok s ∧
      s.sessions.get (ascii "SESSIONID_0000000000oEyBFj") = some 0 ∧
      ∀ timer ∈ s.sessionTimer, ∀ t ∈ timer.c, t.callback ≠ 0 := by decide +kernel
  obtain ⟨s, hs, hget, hnone⟩ := hrun
  obtain ⟨timer, ht, t, hmem, hcb, -⟩ :=
    hall 1800 twoSessions hfresh s ⟨twoSessions, List.prefix_rfl, hs⟩ _ 0 hget
  exact hnone timer ht t hmem hcb

end Socnet.Http.Sessions
