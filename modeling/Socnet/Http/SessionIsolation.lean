import Socnet.Http.HttpSession

namespace Socnet.Http.Sessions

open Net Utility.EncodeUtil

variable {s s' : Sessions} {cookies : HttpMap Bytes Bytes} {random : RandomStr 16}
  {clock : TimeStamp.Clock}

/-- The cookie names a session that is registered and has not been invalidated. -/
def Named (s : Sessions) (cookies : HttpMap Bytes Bytes) (i : ℕ) (o : HttpSession) : Prop :=
  ∃ x, cookies.get (ascii "SESSIONID") = some x ∧ s.sessions.get x = some i ∧
    s.objects[i]? = some o ∧ o.status ≠ .destroy

theorem findSession_eq_some {i : ℕ} {o : HttpSession} :
    s.findSession cookies = some (i, o) ↔ s.Named cookies i o := by
  rw [findSession]
  simp only [Option.bind_eq_bind, Option.bind_eq_some_iff]
  constructor
  · intro h
    obtain ⟨x, hx, j, hj, p, hp, hif⟩ := h
    split_ifs at hif with hd
    cases hif
    exact ⟨x, hx, hj, hp, hd⟩
  · intro h
    obtain ⟨x, hx, hi, ho, hd⟩ := h
    exact ⟨x, hx, i, hi, o, ho, by rw [if_neg hd]⟩

/-- A session that a request has created has an id that none before it had. -/
def Fresh (s : Sessions) : Event → Prop
  | .associate cookies random _ =>
    s.findSession cookies = none → ∀ o ∈ s.objects, o.id ≠ sessionId random
  | _ => True

instance decidableFresh (s : Sessions) : DecidablePred s.Fresh
  | .associate _ _ _ => inferInstanceAs (Decidable (_ = none → ∀ _ ∈ _, _))
  | .invalidate _ => inferInstanceAs (Decidable True)
  | .timeout _ => inferInstanceAs (Decidable True)
  | .tick _ => inferInstanceAs (Decidable True)

/-- The timer of a session that a timer callback refers to. -/
def Entry (s : Sessions) (t : Timer ℕ) : Prop :=
  ∃ o, s.objects[t.callback]? = some o ∧ t.fd = timerFd o.id

structure Registered (s : Sessions) : Prop where
  id : ∀ k i, s.sessions.get k = some i → ∃ o, s.objects[i]? = some o ∧ o.id = k
  distinct : (s.objects.map HttpSession.id).Nodup
  given : ∀ i ∈ s.given, i < s.objects.length
  timer : s.sessionTimer = none → ∀ k, s.sessions.get k = none
  heap : ∀ timer, s.sessionTimer = some timer → timer.WellFormed ∧ ∀ t ∈ timer.c, s.Entry t

theorem registered_init (lifetime : Int32) : (init lifetime).Registered where
  id k i h := by cases h
  distinct := List.nodup_nil
  given i h := by cases h
  timer _ _ := rfl
  heap timer h := by cases h

/-- What the sessions keep whatever ids are drawn. -/
structure Tracked (s : Sessions) : Prop where
  valid : ∀ k i, s.sessions.get k = some i → i < s.objects.length
  timer : s.sessionTimer = none → ∀ k, s.sessions.get k = none
  heap : ∀ timer, s.sessionTimer = some timer → timer.WellFormed

theorem tracked_init (lifetime : Int32) : (init lifetime).Tracked where
  valid k i h := by cases h
  timer _ _ := rfl
  heap timer h := by cases h

theorem Registered.tracked (hr : s.Registered) : s.Tracked where
  valid k i h := by
    obtain ⟨o, ho, -⟩ := hr.id k i h
    exact (List.getElem?_eq_some_iff.mp ho).1
  timer := hr.timer
  heap timer ht := (hr.heap timer ht).1

theorem Tracked.sessionTimer (ht : s.Tracked) : (s.sessionTimer.getD .init).WellFormed := by
  cases htimer : s.sessionTimer with
  | none => exact TimerHeap.wellFormed_init
  | some timer => exact ht.heap timer htimer

theorem getElem?_setStatus (i : ℕ) (status : HttpSession.Status) {j : ℕ} {o : HttpSession}
    (h : s.objects[j]? = some o) : ∃ o', (s.setStatus i status).objects[j]? = some o' ∧
      o'.id = o.id ∧ o'.interval = o.interval ∧ o'.status = if i = j then status else o.status := by
  rw [setStatus, List.getElem?_modify, h]
  refine ⟨_, rfl, ?_⟩
  split_ifs
  · exact ⟨rfl, rfl, rfl⟩
  · exact ⟨rfl, rfl, rfl⟩

theorem map_id_setStatus (s : Sessions) (i : ℕ) (status : HttpSession.Status) :
    (s.setStatus i status).objects.map HttpSession.id = s.objects.map HttpSession.id := by
  refine List.ext_getElem? fun j ↦ ?_
  rw [List.getElem?_map, List.getElem?_map, setStatus, List.getElem?_modify]
  cases s.objects[j]? with
  | none => rfl
  | some o =>
    simp only [Option.map_some]
    split_ifs
    · rfl
    · rfl

theorem Registered.setStatus (hr : s.Registered) (i : ℕ) (status : HttpSession.Status) :
    (s.setStatus i status).Registered where
  id k j h := by
    obtain ⟨o, ho, hk⟩ := hr.id k j h
    obtain ⟨o', ho', hid, -⟩ := getElem?_setStatus i status ho
    exact ⟨o', ho', hid.trans hk⟩
  distinct := by
    rw [map_id_setStatus]
    exact hr.distinct
  given j hj := by
    rw [Sessions.setStatus, List.length_modify]
    exact hr.given j hj
  timer := hr.timer
  heap timer ht := by
    refine ⟨(hr.heap timer ht).1, fun t hmem ↦ ?_⟩
    obtain ⟨o, ho, hfd⟩ := (hr.heap timer ht).2 t hmem
    obtain ⟨o', ho', hid, -⟩ := getElem?_setStatus i status ho
    exact ⟨o', ho', by rw [hfd, hid]⟩

theorem handleSessionTimeout_frame (s : Sessions) (i : ℕ) :
    s.handleSessionTimeout i = { s with sessions := (s.handleSessionTimeout i).sessions } := by
  rw [handleSessionTimeout]
  split
  · rfl
  · rfl

theorem get_of_handleSessionTimeout {k : Bytes} {i j : ℕ}
    (h : (s.handleSessionTimeout i).sessions.get k = some j) : s.sessions.get k = some j := by
  rw [Sessions.handleSessionTimeout] at h
  split at h
  · exact h
  · exact (HttpMap.get_remove_eq_some.mp h).2

theorem get_handleSessionTimeout_of_none {k : Bytes} (h : s.sessions.get k = none) (i : ℕ) :
    (s.handleSessionTimeout i).sessions.get k = none := by
  by_contra hne
  obtain ⟨j, hj⟩ := Option.ne_none_iff_exists'.mp hne
  have hk := get_of_handleSessionTimeout hj
  rw [h] at hk
  cases hk

theorem Registered.handleSessionTimeout (hr : s.Registered) (i : ℕ) :
    (s.handleSessionTimeout i).Registered := by
  rw [handleSessionTimeout_frame]
  exact ⟨fun k j hj ↦ hr.id k j (get_of_handleSessionTimeout hj), hr.distinct, hr.given,
    fun hn k ↦ get_handleSessionTimeout_of_none (hr.timer hn k) i, hr.heap⟩

theorem Registered.sessionTimer (hr : s.Registered) :
    (s.sessionTimer.getD .init).WellFormed ∧ ∀ t ∈ (s.sessionTimer.getD .init).c, s.Entry t := by
  cases ht : s.sessionTimer with
  | none => exact ⟨TimerHeap.wellFormed_init, by simp [TimerHeap.init]⟩
  | some timer => exact hr.heap timer ht

/-- A request whose cookie names a session adjusts its timer, and any other one gets
a new session and pushes a timer for it. -/
theorem Tracked.associateSession_cases (hr : s.Tracked)
    (cookies : HttpMap Bytes Bytes) (random : RandomStr 16) (clock : TimeStamp.Clock) :
    (∃ i o timer timer', s.findSession cookies = some (i, o) ∧ s.sessionTimer = some timer ∧
      timer.adjust ⟨timerFd o.id, TimeStamp.nowSecond clock o.interval, i⟩ = .ok timer' ∧
      s.associateSession cookies random clock =
        .ok ({ s.setStatus i .accessed with sessionTimer := some timer' }, i)) ∨
    ∃ timer', s.findSession cookies = none ∧
      (s.sessionTimer.getD .init).push ⟨timerFd (sessionId random),
        TimeStamp.nowSecond clock s.lifetime, s.objects.length⟩ = .ok timer' ∧
      s.associateSession cookies random clock =
        .ok ({ (s.createSession random).1 with sessionTimer := some timer' }, s.objects.length) := by
  rw [associateSession]
  cases hfind : s.findSession cookies with
  | some p =>
    obtain ⟨i, o⟩ := p
    obtain ⟨x, -, hx, -⟩ := findSession_eq_some.mp hfind
    obtain ⟨timer, ht⟩ : ∃ timer, s.sessionTimer = some timer := by
      refine Option.ne_none_iff_exists'.mp fun hn ↦ ?_
      have := hr.timer hn x
      rw [hx] at this
      cases this
    obtain ⟨timer', hadjust, -⟩ := (hr.heap timer ht).adjust_mem
      ⟨timerFd o.id, TimeStamp.nowSecond clock o.interval, i⟩
    refine .inl ⟨i, o, timer, timer', rfl, ht, hadjust, ?_⟩
    simp only [ht, hadjust, bind, Except.bind]
  | none =>
    obtain ⟨timer', hpush, -⟩ := hr.sessionTimer.push_mem ⟨timerFd (sessionId random),
      TimeStamp.nowSecond clock s.lifetime, s.objects.length⟩
    refine .inr ⟨timer', rfl, hpush, ?_⟩
    simp only [createSession, createSessionTimer, hpush, bind, Except.bind]

theorem Registered.access (hr : s.Registered) {i : ℕ} {o : HttpSession}
    {timer timer' : TimerHeap ℕ} {at' : TimeStamp}
    (ht : s.sessionTimer = some timer) (ha : timer.adjust ⟨timerFd o.id, at', i⟩ = .ok timer') :
    ({ s.setStatus i .accessed with sessionTimer := some timer' } : Sessions).Registered := by
  have hr' := hr.setStatus i .accessed
  obtain ⟨hw, hentry⟩ := hr'.heap timer ht
  obtain ⟨timer₁, ha₁, hw₁, hcase⟩ := hw.adjust_mem ⟨timerFd o.id, at', i⟩
  rw [ha] at ha₁
  cases ha₁
  refine ⟨hr'.id, hr'.distinct, hr'.given, by simp, fun timer₂ h₂ ↦ ?_⟩
  cases h₂
  refine ⟨hw₁, fun t hmem ↦ ?_⟩
  rcases hcase with ⟨-, rfl⟩ | ⟨u, hu, -, hiff, -⟩
  · exact hentry t hmem
  · rcases (hiff t).mp hmem with rfl | ⟨hmem, -⟩
    · exact hentry u hu
    · exact hentry t hmem

theorem Registered.create (hr : s.Registered) {timer' : TimerHeap ℕ} {at' : TimeStamp}
    (hfresh : ∀ o ∈ s.objects, o.id ≠ sessionId random)
    (hp : (s.sessionTimer.getD .init).push ⟨timerFd (sessionId random), at', s.objects.length⟩ =
      .ok timer') :
    ({ (s.createSession random).1 with sessionTimer := some timer' } : Sessions).Registered := by
  have hold {j : ℕ} {o : HttpSession} (ho : s.objects[j]? = some o) :
      (s.createSession random).1.objects[j]? = some o := by
    rw [createSession, List.getElem?_append_left (List.getElem?_eq_some_iff.mp ho).1, ho]
  have hnew : (s.createSession random).1.objects[s.objects.length]? =
      some ⟨sessionId random, s.lifetime, .new⟩ := List.getElem?_concat_length
  obtain ⟨hw, hentry⟩ := hr.sessionTimer
  obtain ⟨timer₁, hp₁, hw₁, hiff, -⟩ :=
    hw.push_mem ⟨timerFd (sessionId random), at', s.objects.length⟩
  rw [hp] at hp₁
  cases hp₁
  refine ⟨fun k j hj ↦ ?_, ?_, fun j hj ↦ ?_, by simp, fun timer₂ h₂ ↦ ?_⟩
  · change (s.sessions.add (sessionId random) s.objects.length).get k = some j at hj
    by_cases hk : k = sessionId random
    · rw [hk, HttpMap.get_add_self] at hj
      cases hj
      exact ⟨_, hnew, hk.symm⟩
    · rw [HttpMap.get_add_of_ne _ _ hk] at hj
      obtain ⟨o, ho, hok⟩ := hr.id k j hj
      exact ⟨o, hold ho, hok⟩
  · change ((s.objects ++ [_]).map HttpSession.id).Nodup
    rw [List.map_append, List.map_singleton, ← List.concat_eq_append]
    refine hr.distinct.concat fun hmem ↦ ?_
    obtain ⟨o, ho, hid⟩ := List.mem_map.mp hmem
    exact hfresh o ho hid
  · change j < (s.objects ++ [_]).length
    rw [List.length_append]
    exact Nat.lt_add_right _ (hr.given j hj)
  · cases h₂
    refine ⟨hw₁, fun t hmem ↦ ?_⟩
    rcases (hiff t).mp hmem with rfl | ⟨hmem, -⟩
    · exact ⟨_, hnew, rfl⟩
    · obtain ⟨o, ho, hfd⟩ := hentry t hmem
      exact ⟨o, hold ho, hfd⟩

theorem Registered.associate (hr : s.Registered)
    (hf : s.Fresh (.associate cookies random clock)) :
    ∃ s' i o, s.associateSession cookies random clock = .ok (s', i) ∧ s'.Registered ∧
      s'.objects[i]? = some o ∧ s'.sessions.get o.id = some i ∧ o.status ≠ .destroy ∧
      (∀ j p, s.Named cookies j p → i = j ∧ o.id = p.id ∧ o.status = .accessed) ∧
      ((¬ ∃ j p, s.Named cookies j p) →
        i ∉ s.given ∧ ∀ j ∈ s.given, ∀ p, s.objects[j]? = some p → p.id ≠ o.id) := by
  rcases hr.tracked.associateSession_cases cookies random clock with
    ⟨i, o, timer, timer', hfind, ht, hadjust, heq⟩ | ⟨timer', hfind, hpush, heq⟩
  · have hnamed := findSession_eq_some.mp hfind
    obtain ⟨x, hx, hi, ho, hd⟩ := hnamed
    obtain ⟨o', ho', hid, -, hstatus⟩ := getElem?_setStatus i .accessed ho
    rw [if_pos rfl] at hstatus
    obtain ⟨p, hp, hpx⟩ := hr.id x i hi
    rw [ho] at hp
    cases hp
    refine ⟨_, i, o', heq, hr.access ht hadjust, ho', ?_, ?_, ?_, ?_⟩
    · change s.sessions.get o'.id = some i
      rw [hid, hpx, hi]
    · rw [hstatus]
      simp
    · intro j p hj
      rw [findSession_eq_some.mpr hj] at hfind
      cases hfind
      exact ⟨rfl, hid, hstatus⟩
    · intro hno
      exact absurd ⟨i, o, findSession_eq_some.mp hfind⟩ hno
  · have hfresh := hf hfind
    refine ⟨_, s.objects.length, ⟨sessionId random, s.lifetime, .new⟩, heq,
      hr.create hfresh hpush, List.getElem?_concat_length, HttpMap.get_add_self _ _ _, by simp,
      ?_, ?_⟩
    · intro j p hj
      rw [findSession_eq_some.mpr hj] at hfind
      cases hfind
    · intro _
      refine ⟨fun hmem ↦ (hr.given _ hmem).false, fun j _ p hp ↦ ?_⟩
      exact hfresh p (List.mem_of_getElem? hp)

theorem foldlM_handleSessionTimeout (l : List (Timer ℕ)) (s : Sessions) :
    l.foldlM (fun s t ↦ (.ok (s.handleSessionTimeout t.callback) : Except Fault Sessions)) s =
      .ok (l.foldl (fun s t ↦ s.handleSessionTimeout t.callback) s) := by
  induction l generalizing s with
  | nil => rfl
  | cons t l ih =>
    rw [List.foldlM_cons, List.foldl_cons]
    exact ih _

/-- The timers that a tick expires come off the heap, and their callbacks are called. -/
theorem Tracked.handleTimeout_cases (hr : s.Tracked) (clock : TimeStamp.Clock) :
    s.sessionTimer = none ∧ s.handleTimeout clock = .ok s ∨
    ∃ (timer timer' : TimerHeap ℕ) (l : List (Timer ℕ)), s.sessionTimer = some timer ∧
      timer'.WellFormed ∧ (l ++ timer'.c).Perm timer.c ∧ s.handleTimeout clock = .ok
        { l.foldl (fun s t ↦ s.handleSessionTimeout t.callback) s with
          sessionTimer := some timer' } := by
  rw [handleTimeout]
  cases ht : s.sessionTimer with
  | none => exact .inl ⟨rfl, rfl⟩
  | some timer =>
    obtain ⟨l, timer', hw', hperm, -, -, heq⟩ :=
      (hr.heap timer ht).handleTimeout_ok (σ := Sessions) (TimeStamp.now clock)
    refine .inr ⟨timer, timer', l, rfl, hw', hperm, ?_⟩
    dsimp only
    rw [heq, foldlM_handleSessionTimeout]
    rfl

theorem foldl_handleSessionTimeout_frame (l : List (Timer ℕ)) (s : Sessions) :
    l.foldl (fun s t ↦ s.handleSessionTimeout t.callback) s =
      { s with sessions :=
        (l.foldl (fun s t ↦ s.handleSessionTimeout t.callback) s).sessions } := by
  induction l generalizing s with
  | nil => rfl
  | cons t l ih =>
    rw [List.foldl_cons, ih, handleSessionTimeout_frame]

theorem Registered.handleTimeout (hr : s.Registered) (clock : TimeStamp.Clock) :
    ∃ s', s.handleTimeout clock = .ok s' ∧ s'.Registered := by
  rcases hr.tracked.handleTimeout_cases clock with ⟨-, heq⟩ | ⟨timer, timer', l, ht, hw', hperm, heq⟩
  · exact ⟨s, heq, hr⟩
  · have hfold : (l.foldl (fun s t ↦ s.handleSessionTimeout t.callback) s).Registered := by
      refine List.foldlRecOn l _ hr fun s hs t _ ↦ ?_
      exact hs.handleSessionTimeout t.callback
    refine ⟨_, heq, hfold.id, hfold.distinct, hfold.given, by simp, fun timer₂ h₂ ↦ ?_⟩
    cases h₂
    refine ⟨hw', fun t hmem ↦ ?_⟩
    have hmem' := hperm.mem_iff.mp (List.mem_append_right l hmem)
    rw [foldl_handleSessionTimeout_frame]
    exact (hr.heap timer ht).2 t hmem'

theorem Registered.step (hr : s.Registered) {event : Event} (hf : s.Fresh event) :
    ∃ s', s.step event = .ok s' ∧ s'.Registered := by
  cases event with
  | associate cookies random clock =>
    obtain ⟨s', i, o, heq, hr', ho, -⟩ := hr.associate hf
    refine ⟨{ s' with given := s'.given ++ [i] }, ?_, hr'.id, hr'.distinct, fun j hj ↦ ?_, hr'.timer,
      hr'.heap⟩
    · simp only [Sessions.step, heq, bind, Except.bind]
    · rcases List.mem_append.mp hj with hj | hj
      · exact hr'.given j hj
      · rw [List.mem_singleton.mp hj]
        exact (List.getElem?_eq_some_iff.mp ho).1
  | invalidate i => exact ⟨_, rfl, hr.setStatus i .destroy⟩
  | timeout i => exact ⟨_, rfl, hr.handleSessionTimeout i⟩
  | tick clock => exact hr.handleTimeout clock

/-- In every run whose new ids are fresh, each key of `sessions_` is the id of its
session, and a request gets the session that its cookie names or else one that no
request before it was given. -/
theorem sessions_isolated (lifetime : Int32) (events : List Event)
    (hf : Lib.Run.Throughout step Fresh (init lifetime) events) :
    ∃ s, events.foldlM step (init lifetime) = .ok s ∧
      (∀ k i, s.sessions.get k = some i → ∃ o, s.objects[i]? = some o ∧ o.id = k) ∧
      ∀ cookies random clock, s.Fresh (.associate cookies random clock) →
        ∃ s' i o, s.associateSession cookies random clock = .ok (s', i) ∧
          s'.objects[i]? = some o ∧ s'.sessions.get o.id = some i ∧ o.status ≠ .destroy ∧
          (∀ j p, s.Named cookies j p → i = j ∧ o.id = p.id ∧ o.status = .accessed) ∧
          ((¬ ∃ j p, s.Named cookies j p) →
            i ∉ s.given ∧ ∀ j ∈ s.given, ∀ p, s.objects[j]? = some p → p.id ≠ o.id) := by
  obtain ⟨s, hrun, hr⟩ := hf.invariant (fun _ _ hr hf ↦ Registered.step hr hf)
    (registered_init lifetime)
  refine ⟨s, hrun, hr.id, fun cookies random clock hfresh ↦ ?_⟩
  obtain ⟨s', i, o, heq, -, hspec⟩ := hr.associate hfresh
  exact ⟨s', i, o, heq, hspec⟩

/-- The first request is given a session, the second names it, and after it has been
invalidated the third one gets another. -/
def threeRequests : List Event :=
  [.associate ∅ ⟨ascii "3333333333333333", by decide, by decide +kernel⟩ 0,
    .associate (HttpMap.add ∅ (ascii "SESSIONID") (ascii "SESSIONID_3333333333333333"))
      ⟨ascii "1111111111111111", by decide, by decide +kernel⟩ 5,
    .invalidate 0,
    .associate (HttpMap.add ∅ (ascii "SESSIONID") (ascii "SESSIONID_3333333333333333"))
      ⟨ascii "2222222222222222", by decide, by decide +kernel⟩ 9,
    .tick 1800000001]

theorem sessions_isolated_three :
    ∃ s, threeRequests.foldlM step (init 1800) = .ok s ∧
      ∀ k i, s.sessions.get k = some i → ∃ o, s.objects[i]? = some o ∧ o.id = k := by
  obtain ⟨s, hrun, hid, -⟩ := sessions_isolated 1800 threeRequests (by decide +kernel)
  exact ⟨s, hrun, hid⟩

end Socnet.Http.Sessions
