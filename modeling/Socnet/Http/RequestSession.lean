import Socnet.Http.HttpService
import Socnet.Http.SessionIsolation

namespace Socnet.Http.Sessions

open Net Utility.EncodeUtil

variable {s s' : Sessions} {cookies : HttpMap Bytes Bytes} {random : RandomStr 16}
  {clock : TimeStamp.Clock}

/-- A request while it is handled: the sessions of the server, the pointer `session_`
and what `getSession` has returned so far. -/
structure Asked where
  sessions : Sessions
  session : Option ℕ
  returned : List ℕ

/-- `HttpRequest::getSession`, which writes `session_` and does not read it. -/
def getSession (cookies : HttpMap Bytes Bytes) (a : Asked) (c : RandomStr 16 × TimeStamp.Clock) :
    Except Fault Asked := do
  let (s, i) ← a.sessions.associateSession cookies c.1 c.2
  .ok ⟨s, some i, a.returned ++ [i]⟩

/-- All calls have returned one session, at most one has been created and stored, and it
is the one that a `Set-Cookie` names. -/
def Asked.OneSession (s : Sessions) (a : Asked) : Prop :=
  ∃ i o, (∀ j ∈ a.returned, j = i) ∧ a.sessions.objects[i]? = some o ∧
    a.sessions.objects.length ≤ s.objects.length + 1 ∧
    (∃ k, ∀ k' ≠ k, a.sessions.sessions.get k' = s.sessions.get k') ∧
    ∀ resp,
      let resp' := HttpRouter.associateRequestSession
        (a.session.bind fun i ↦ a.sessions.objects[i]?) resp
      resp' = resp ∨ resp' = resp.setHeader (ascii "Set-Cookie")
        (ascii "SESSIONID=" ++ o.id ++ ascii "; Path=/")

theorem associateRequestSession_cases (o : HttpSession) (resp : HttpResponse) :
    HttpRouter.associateRequestSession (some o) resp = resp ∨
      HttpRouter.associateRequestSession (some o) resp = resp.setHeader (ascii "Set-Cookie")
        (ascii "SESSIONID=" ++ o.id ++ ascii "; Path=/") := by
  rw [HttpRouter.associateRequestSession]
  split
  · exact .inr rfl
  · exact .inl rfl

theorem Tracked.access (hs : s.Tracked) {i : ℕ} {o : HttpSession}
    (hn : s.Named cookies i o) (random : RandomStr 16) (clock : TimeStamp.Clock) :
    ∃ s' o', s.associateSession cookies random clock = .ok (s', i) ∧ s'.Tracked ∧
      s'.Named cookies i o' ∧ s'.objects.length = s.objects.length ∧ s'.sessions = s.sessions := by
  rcases hs.associateSession_cases cookies random clock with
    ⟨j, p, timer, timer', hfind, ht, hadjust, heq⟩ | ⟨timer', hfind, -⟩
  · rw [findSession_eq_some.mpr hn] at hfind
    cases hfind
    obtain ⟨x, hx, hi, ho, -⟩ := hn
    obtain ⟨o', ho', -, -, hstatus⟩ := getElem?_setStatus i .accessed ho
    rw [if_pos rfl] at hstatus
    obtain ⟨timer₁, hadjust₁, hw, -⟩ := (hs.heap timer ht).adjust_mem
      ⟨timerFd o.id, TimeStamp.nowSecond clock o.interval, i⟩
    rw [hadjust] at hadjust₁
    cases hadjust₁
    have hlen : (s.setStatus i .accessed).objects.length = s.objects.length := by
      rw [Sessions.setStatus, List.length_modify]
    refine ⟨_, o', heq, ⟨fun k j hj ↦ hlen.symm ▸ hs.valid k j hj, (fun h ↦ by cases h),
      fun timer₂ h₂ ↦ ?_⟩,
      ⟨x, hx, hi, ho', by simp [hstatus]⟩, hlen, rfl⟩
    cases h₂
    exact hw
  · rw [findSession_eq_some.mpr hn] at hfind
    cases hfind

theorem Tracked.create (hs : s.Tracked) (hn : ¬ ∃ i o, s.Named cookies i o)
    (random : RandomStr 16) (clock : TimeStamp.Clock) :
    ∃ s', s.associateSession cookies random clock = .ok (s', s.objects.length) ∧ s'.Tracked ∧
      s'.objects = s.objects ++ [⟨sessionId random, s.lifetime, .new⟩] ∧
      s'.sessions = s.sessions.add (sessionId random) s.objects.length := by
  rcases hs.associateSession_cases cookies random clock with
    ⟨i, o, timer, timer', hfind, -⟩ | ⟨timer', -, hpush, heq⟩
  · exact absurd ⟨i, o, findSession_eq_some.mp hfind⟩ hn
  · obtain ⟨timer₁, hpush₁, hw, -⟩ := hs.sessionTimer.push_mem ⟨timerFd (sessionId random),
      TimeStamp.nowSecond clock s.lifetime, s.objects.length⟩
    rw [hpush] at hpush₁
    cases hpush₁
    refine ⟨_, heq, ⟨fun k i hi ↦ ?_, (fun h ↦ by cases h), fun timer₂ h₂ ↦ ?_⟩, rfl, rfl⟩
    · change (s.sessions.add (sessionId random) s.objects.length).get k = some i at hi
      change i < (s.objects ++ [_]).length
      rw [List.length_append]
      by_cases hk : k = sessionId random
      · rw [hk, HttpMap.get_add_self] at hi
        cases hi
        exact Nat.lt_succ_self _
      · rw [HttpMap.get_add_of_ne _ _ hk] at hi
        exact Nat.lt_succ_of_lt (hs.valid k i hi)
    · cases h₂
      exact hw

/-- After a creation the cookie names a session just when its value is the id drawn, and
then it is the new one. -/
theorem Tracked.named_create (hs : s.Tracked) (hn : ¬ ∃ i o, s.Named cookies i o)
    (hobjects : s'.objects = s.objects ++ [⟨sessionId random, s.lifetime, .new⟩])
    (hsessions : s'.sessions = s.sessions.add (sessionId random) s.objects.length) {i : ℕ}
    {o : HttpSession} (h : s'.Named cookies i o) :
    cookies.get (ascii "SESSIONID") = some (sessionId random) := by
  obtain ⟨x, hx, hi, ho, hd⟩ := h
  by_cases hk : x = sessionId random
  · rw [hx, hk]
  · rw [hsessions, HttpMap.get_add_of_ne _ _ hk] at hi
    rw [hobjects, List.getElem?_append_left (hs.valid x i hi)] at ho
    exact absurd ⟨i, o, x, hx, hi, ho, hd⟩ hn

theorem named_of_create (hx : cookies.get (ascii "SESSIONID") = some (sessionId random))
    (hobjects : s'.objects = s.objects ++ [⟨sessionId random, s.lifetime, .new⟩])
    (hsessions : s'.sessions = s.sessions.add (sessionId random) s.objects.length) :
    s'.Named cookies s.objects.length ⟨sessionId random, s.lifetime, .new⟩ := by
  refine ⟨_, hx, ?_, ?_, fun h ↦ by cases h⟩
  · rw [hsessions, HttpMap.get_add_self]
  · rw [hobjects, List.getElem?_concat_length]

theorem getSession_ok {a : Asked} {i : ℕ} {c : RandomStr 16 × TimeStamp.Clock}
    (h : a.sessions.associateSession cookies c.1 c.2 = .ok (s', i)) :
    getSession cookies a c = .ok ⟨s', some i, a.returned ++ [i]⟩ := by
  rw [getSession, h]
  rfl

/-- Calls on a request whose cookie names a session return that session. -/
theorem Tracked.run_named {a : Asked} (hs : a.sessions.Tracked) {i : ℕ} {o : HttpSession}
    (hn : a.sessions.Named cookies i o) (calls : List (RandomStr 16 × TimeStamp.Clock)) :
    ∃ a' o', calls.foldlM (getSession cookies) a = .ok a' ∧ a'.sessions.Named cookies i o' ∧
      (∀ j ∈ a'.returned, j ∈ a.returned ∨ j = i) ∧
      (a'.session = some i ∨ calls = []) ∧
      a'.sessions.objects.length = a.sessions.objects.length ∧
      a'.sessions.sessions = a.sessions.sessions := by
  induction calls generalizing a o with
  | nil => exact ⟨a, o, rfl, hn, fun j hj ↦ .inl hj, .inr rfl, rfl, rfl⟩
  | cons c calls ih =>
    obtain ⟨s₁, o₁, heq, hs₁, hn₁, hlen, hsessions⟩ := hs.access hn c.1 c.2
    obtain ⟨a', o', hrun, hn', hret, hlast, hlen', hsessions'⟩ :=
      ih (a := ⟨s₁, some i, a.returned ++ [i]⟩) hs₁ hn₁
    refine ⟨a', o', ?_, hn', fun j hj ↦ ?_, .inl ?_, hlen'.trans hlen, hsessions'.trans hsessions⟩
    · rw [List.foldlM_cons, getSession_ok heq]
      exact hrun
    · rcases hret j hj with hj | hj
      · simpa using hj
      · exact .inr hj
    · rcases hlast with hlast | rfl
      · exact hlast
      · cases hrun
        rfl

theorem Tracked.associate (hs : s.Tracked) (cookies : HttpMap Bytes Bytes) (random : RandomStr 16)
    (clock : TimeStamp.Clock) :
    ∃ s' i, s.associateSession cookies random clock = .ok (s', i) ∧ s'.Tracked := by
  by_cases hn : ∃ i o, s.Named cookies i o
  · obtain ⟨i, o, hn⟩ := hn
    obtain ⟨s', -, heq, hs', -⟩ := hs.access hn random clock
    exact ⟨s', i, heq, hs'⟩
  · obtain ⟨s', heq, hs', -⟩ := hs.create hn random clock
    exact ⟨s', _, heq, hs'⟩

theorem Tracked.run_ok {a : Asked} (hs : a.sessions.Tracked)
    (calls : List (RandomStr 16 × TimeStamp.Clock)) :
    ∃ a', calls.foldlM (getSession cookies) a = .ok a' ∧ a.returned <+: a'.returned := by
  obtain ⟨a', hrun, -, hpre⟩ := Lib.Run.invariant
    (I := fun a' : Asked ↦ a'.sessions.Tracked ∧ a.returned <+: a'.returned) (fun a₁ c hi ↦ by
      obtain ⟨s₁, i, heq, hs₁⟩ := hi.1.associate cookies c.1 c.2
      exact ⟨_, getSession_ok heq, hs₁, hi.2.trans (List.prefix_append _ _)⟩)
    ⟨hs, List.prefix_rfl⟩ calls
  exact ⟨a', hrun, hpre⟩

theorem Asked.OneSession.intro {a : Asked} {i : ℕ} {o : HttpSession}
    (hret : ∀ j ∈ a.returned, j = i) (hlast : a.session = some i)
    (ho : a.sessions.objects[i]? = some o)
    (hlen : a.sessions.objects.length ≤ s.objects.length + 1)
    (hkeys : ∃ k, ∀ k' ≠ k, a.sessions.sessions.get k' = s.sessions.get k') : a.OneSession s := by
  refine ⟨i, o, hret, ho, hlen, hkeys, fun resp ↦ ?_⟩
  rw [hlast, Option.bind_some, ho]
  exact associateRequestSession_cases o resp

/-- The calls made on one request agree just when there is one of them, or the cookie
names a session, or the first call draws the very id that the cookie holds. -/
theorem Tracked.getSession_iff (hs : s.Tracked) (cookies : HttpMap Bytes Bytes)
    (c : RandomStr 16 × TimeStamp.Clock) (calls : List (RandomStr 16 × TimeStamp.Clock)) :
    ∃ a, (c :: calls).foldlM (getSession cookies) ⟨s, none, []⟩ = .ok a ∧
      (a.OneSession s ↔ calls = [] ∨ (∃ i o, s.Named cookies i o) ∨
        cookies.get (ascii "SESSIONID") = some (sessionId c.1)) := by
  by_cases hn : ∃ i o, s.Named cookies i o
  · obtain ⟨i, o, hn⟩ := hn
    obtain ⟨a, o', hrun, ⟨-, -, -, ho', -⟩, hret, hlast, hlen, hsessions⟩ :=
      run_named (a := ⟨s, none, []⟩) hs hn (c :: calls)
    refine ⟨a, hrun, iff_of_true ?_ (.inr (.inl ⟨i, o, hn⟩))⟩
    refine .intro (fun j hj ↦ (hret j hj).resolve_left List.not_mem_nil)
      (hlast.resolve_right (List.cons_ne_nil c calls)) ho' (hlen.le.trans (Nat.le_succ _)) ?_
    exact ⟨[], fun k' _ ↦ by rw [hsessions]⟩
  · obtain ⟨s₁, heq, hs₁, hobjects, hsessions⟩ := hs.create hn c.1 c.2
    have hfirst : (c :: calls).foldlM (getSession cookies) ⟨s, none, []⟩ =
        calls.foldlM (getSession cookies) ⟨s₁, some s.objects.length, [s.objects.length]⟩ := by
      rw [List.foldlM_cons, getSession_ok heq]
      rfl
    have hkeys : ∃ k, ∀ k' ≠ k, s₁.sessions.get k' = s.sessions.get k' :=
      ⟨sessionId c.1, fun k' hk' ↦ by rw [hsessions, HttpMap.get_add_of_ne _ _ hk']⟩
    have hlen₁ : s₁.objects.length = s.objects.length + 1 := by
      rw [hobjects, List.length_append, List.length_singleton]
    rw [hfirst]
    by_cases hx : cookies.get (ascii "SESSIONID") = some (sessionId c.1)
    · have hn₁ := named_of_create hx hobjects hsessions
      obtain ⟨a, o', hrun, ⟨-, -, -, ho', -⟩, hret, hlast, hlen, hsessions'⟩ :=
        run_named (a := ⟨s₁, some s.objects.length, [s.objects.length]⟩) hs₁ hn₁ calls
      refine ⟨a, hrun, iff_of_true ?_ (.inr (.inr hx))⟩
      refine .intro (fun j hj ↦ ?_) ?_ ho' (hlen.trans hlen₁).le ?_
      · exact (hret j hj).elim List.mem_singleton.mp id
      · rcases hlast with hlast | rfl
        · exact hlast
        · cases hrun
          rfl
      · rw [hsessions']
        exact hkeys
    · cases calls with
      | nil =>
        refine ⟨_, rfl, iff_of_true ?_ (.inl rfl)⟩
        have ho : s₁.objects[s.objects.length]? = some ⟨sessionId c.1, s.lifetime, .new⟩ := by
          rw [hobjects, List.getElem?_concat_length]
        exact .intro (fun j hj ↦ List.mem_singleton.mp hj) rfl ho hlen₁.le hkeys
      | cons c₂ calls =>
        have hn₁ : ¬ ∃ i o, s₁.Named cookies i o := fun ⟨_, _, h⟩ ↦
          hx (hs.named_create hn hobjects hsessions h)
        obtain ⟨s₂, heq₂, hs₂, -⟩ := hs₁.create hn₁ c₂.1 c₂.2
        obtain ⟨a, hrun, hpre⟩ := run_ok (a := ⟨s₂, some s₁.objects.length, [s.objects.length, s₁.objects.length]⟩) hs₂ calls
        refine ⟨a, ?_, iff_of_false ?_ ?_⟩
        · rw [List.foldlM_cons, getSession_ok heq₂]
          exact hrun
        · rintro ⟨i, -, hret, -⟩
          have h₁ := hret _ (hpre.subset List.mem_cons_self)
          have h₂ := hret _ (hpre.subset (List.mem_cons_of_mem _ List.mem_cons_self))
          omega
        · rintro (hnil | hnamed | hdrawn)
          · cases hnil
          · exact hn hnamed
          · exact hx hdrawn

theorem Tracked.setStatus (hs : s.Tracked) (i : ℕ) (status : HttpSession.Status) :
    (s.setStatus i status).Tracked where
  valid k j h := by
    rw [Sessions.setStatus, List.length_modify]
    exact hs.valid k j h
  timer := hs.timer
  heap := hs.heap

theorem Tracked.handleSessionTimeout (hs : s.Tracked) (i : ℕ) :
    (s.handleSessionTimeout i).Tracked := by
  rw [handleSessionTimeout_frame]
  exact ⟨fun k j hj ↦ hs.valid k j (get_of_handleSessionTimeout hj),
    fun hn k ↦ get_handleSessionTimeout_of_none (hs.timer hn k) i, hs.heap⟩

theorem Tracked.handleTimeout (hs : s.Tracked) (clock : TimeStamp.Clock) :
    ∃ s', s.handleTimeout clock = .ok s' ∧ s'.Tracked := by
  rcases hs.handleTimeout_cases clock with ⟨-, heq⟩ | ⟨timer, timer', l, ht, hw, -, heq⟩
  · exact ⟨s, heq, hs⟩
  · have hfold : (l.foldl (fun s t ↦ s.handleSessionTimeout t.callback) s).Tracked := by
      refine List.foldlRecOn l _ hs fun s hs t _ ↦ ?_
      exact hs.handleSessionTimeout t.callback
    refine ⟨_, heq, hfold.valid, (fun h ↦ by cases h), fun timer₂ h₂ ↦ ?_⟩
    cases h₂
    exact hw

theorem Tracked.step (hs : s.Tracked) (event : Event) :
    ∃ s', s.step event = .ok s' ∧ s'.Tracked := by
  cases event with
  | associate cookies random clock =>
    obtain ⟨s₁, i, heq, hs₁⟩ := hs.associate cookies random clock
    refine ⟨{ s₁ with given := s₁.given ++ [i] }, ?_, hs₁.valid, hs₁.timer, hs₁.heap⟩
    rw [Sessions.step, heq]
    rfl
  | invalidate i => exact ⟨_, rfl, hs.setStatus i .destroy⟩
  | timeout i => exact ⟨_, rfl, hs.handleSessionTimeout i⟩
  | tick clock => exact hs.handleTimeout clock

/-- After every run the calls made on one request return one session just when there is
one call, or the cookie names a live session, or the first call happens to draw the id
that the cookie holds. -/
theorem getSession_oneSession_iff (lifetime : Int32) (events : List Event) :
    ∃ s, events.foldlM step (init lifetime) = .ok s ∧
      ∀ cookies c calls, ∃ a, (c :: calls).foldlM (getSession cookies) ⟨s, none, []⟩ = .ok a ∧
        (a.OneSession s ↔ calls = [] ∨ (∃ i o, s.Named cookies i o) ∨
          cookies.get (ascii "SESSIONID") = some (sessionId c.1)) := by
  obtain ⟨s, hrun, hs⟩ := Lib.Run.invariant (fun _ event hs ↦ Tracked.step hs event)
    (tracked_init lifetime) events
  exact ⟨s, hrun, hs.getSession_iff⟩

def firstCall : RandomStr 16 × TimeStamp.Clock :=
  (⟨ascii "aaaabbbbccccdddd", by decide, by decide +kernel⟩, ⟨1, by decide⟩)

def secondCall : RandomStr 16 × TimeStamp.Clock :=
  (⟨ascii "eeeeffffgggghhhh", by decide, by decide +kernel⟩, ⟨2, by decide⟩)

/-- The first request of a client: two calls give it two sessions. -/
theorem not_getSession_oneSession : ∃ a,
    [firstCall, secondCall].foldlM (getSession ∅) ⟨init 1800, none, []⟩ = .ok a ∧
      ¬ a.OneSession (init 1800) := by
  obtain ⟨a, hrun, hiff⟩ := (tracked_init 1800).getSession_iff ∅ firstCall [secondCall]
  refine ⟨a, hrun, mt hiff.mp ?_⟩
  rintro (hnil | ⟨i, o, x, hx, -⟩ | hx)
  · cases hnil
  · cases hx
  · cases hx

end Socnet.Http.Sessions
