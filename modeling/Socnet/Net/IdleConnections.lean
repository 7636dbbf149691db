import Socnet.Net.TcpServer

namespace Socnet.Net

/-- What the idle timer is for: the live connections, each with the time at which
it was last accepted, read or written. -/
abbrev Activity := ℤ → Option ℕ

namespace Activity

open TcpServer

def Accepted (https : Bool) (connfd ret : ℤ) : Prop := 0 < connfd ∧ (https = true → 1 ≤ ret)

instance (https : Bool) (connfd ret : ℤ) : Decidable (Accepted https connfd ret) :=
  inferInstanceAs (Decidable (_ ∧ _))

def step (idle : ℕ) (https : Bool) (a : Activity) (now : ℕ) : Event → Activity
  | .accept connfd ret =>
    if Accepted https connfd ret then Function.update a connfd (some now) else a
  | .read fd | .write fd => Function.update a fd ((a fd).map fun _ ↦ now)
  | .close fd => Function.update a fd none
  | .tick => fun fd ↦ (a fd).filter fun last ↦ now < last + idle

def run (idle : ℕ) (https : Bool) (a : Activity) (events : List (TimeStamp.Clock × Event)) :
    Activity :=
  events.foldl (fun a e ↦ a.step idle https e.1 e.2) a

end Activity

namespace TcpServer

open Connections Lib.Heap

/-- The slot of an fd holds a connection that has not been closed. -/
def Live (c : Connections) (fd : ℤ) : Prop := ¬ (c.conns fd).Closed

instance (c : Connections) : DecidablePred (Live c) := fun _ ↦ inferInstanceAs (Decidable (¬ _))

/-- The timers of the server at a time of the clock, next to the activity of its
connections. Timers of connections that have been closed may be left. -/
structure Tracks (idle : ℕ) (clock : TimeStamp.Clock) (s : TcpServer) (a : Activity) : Prop where
  delay : ∀ c, (TimeStamp.nowMsecond c s.idleTimeout).toNat = c.val + idle
  wellFormed : s.aliveTimer.WellFormed
  ordered : Ordered s.aliveTimer.n (TimerHeap.key s.aliveTimer.c)
  callback : ∀ t ∈ s.aliveTimer.c, t.callback = some t.fd
  connfd : ∀ fd, Live s.toConnections fd → (s.conns fd).connfd = fd
  live : ∀ fd, Live s.toConnections fd ↔ a fd ≠ none
  deadline : ∀ fd last, a fd = some last → last ≤ clock ∧
    ∃ t ∈ s.aliveTimer.c, t.fd = fd ∧ t.timestamp.toNat = last + idle

namespace Tracks

variable {s : TcpServer} {a : Activity} {idle : ℕ} {clock now : TimeStamp.Clock}
  (h : Tracks idle clock s a) (hc : clock ≤ now)

include h in
theorem last_le {fd : ℤ} {last : ℕ} (ha : a fd = some last) (hc : clock ≤ now) : last ≤ now :=
  (h.deadline fd last ha).1.trans hc

include h hc in
theorem later : Tracks idle now s a :=
  { h with deadline := fun fd last ha ↦ ⟨h.last_le ha hc, (h.deadline fd last ha).2⟩ }

include h hc in
theorem handleConnected (connfd : ℤ) (type : ChannelType) :
    ∃ s', s.handleConnected now connfd type = .ok s' ∧ s'.enableHttps = s.enableHttps ∧
      Tracks idle now s' (Function.update a connfd (some now)) := by
  obtain ⟨h', hpush, hw, hmem, hord⟩ := h.wellFormed.push_mem
    ⟨connfd, TimeStamp.nowMsecond now s.idleTimeout, some connfd⟩
  refine ⟨_, handleConnected_eq hpush, rfl, h.delay, hw, hord h.ordered, ?_, ?_, ?_, ?_⟩
  · intro t ht
    rcases (hmem t).mp ht with rfl | ht
    · rfl
    · exact h.callback t ht.1
  · intro fd hlive
    simp only [Live, conns_addEvent, setConn] at hlive ⊢
    by_cases hfd : fd = connfd
    · rw [hfd, Function.update_self]
    · rw [Function.update_of_ne hfd] at hlive ⊢
      exact h.connfd fd hlive
  · intro fd
    simp only [Live, conns_addEvent, setConn]
    by_cases hfd : fd = connfd
    · rw [hfd, Function.update_self, Function.update_self]
      simp [TcpConnection.Closed]
    · rw [Function.update_of_ne hfd, Function.update_of_ne hfd]
      exact h.live fd
  · intro fd last ha
    by_cases hfd : fd = connfd
    · rw [hfd, Function.update_self] at ha
      cases ha
      exact ⟨le_rfl, _, (hmem _).mpr (.inl rfl), hfd.symm, h.delay now⟩
    · rw [Function.update_of_ne hfd] at ha
      obtain ⟨-, t, ht, rfl, htime⟩ := h.deadline fd last ha
      exact ⟨h.last_le ha hc, t, (hmem t).mpr (.inr ⟨ht, hfd⟩), rfl, htime⟩

include h hc in
theorem handleServerAccept (connfd ret : ℤ) :
    ∃ s', s.handleServerAccept now connfd ret = .ok s' ∧ s'.enableHttps = s.enableHttps ∧
      Tracks idle now s' (a.step idle s.enableHttps now (.accept connfd ret)) := by
  rw [TcpServer.handleServerAccept, Activity.step]
  by_cases hfd : connfd ≤ 0
  · have hno : ¬ Activity.Accepted s.enableHttps connfd ret := fun ha ↦ not_lt.mpr hfd ha.1
    rw [if_pos hfd, if_neg hno]
    exact ⟨s, rfl, rfl, h.later hc⟩
  · rw [if_neg hfd]
    cases hhttps : s.enableHttps with
    | false =>
      have hyes : Activity.Accepted false connfd ret := ⟨not_le.mp hfd, nofun⟩
      rw [if_neg Bool.false_ne_true, if_pos hyes, ← hhttps]
      exact h.handleConnected hc connfd .raw
    | true =>
      rw [if_pos rfl]
      by_cases hret : ret < 1
      · have hno : ¬ Activity.Accepted true connfd ret := fun ha ↦ not_lt.mpr (ha.2 rfl) hret
        rw [if_pos hret, if_neg hno]
        exact ⟨_, rfl, rfl, { h.later hc with }⟩
      · have hyes : Activity.Accepted true connfd ret := ⟨not_le.mp hfd, fun _ ↦ not_lt.mp hret⟩
        rw [if_neg hret, if_pos hyes, ← hhttps]
        exact h.handleConnected hc connfd .ssl

include h hc in
theorem handleConnectionEvent (kind : TaskKind) (fd : ℤ) :
    ∃ s', s.handleConnectionEvent kind now fd = .ok s' ∧ s'.enableHttps = s.enableHttps ∧
      Tracks idle now s' (Function.update a fd ((a fd).map fun _ ↦ (now : ℕ))) := by
  cases ha : a fd with
  | none =>
    have hclosed : (s.conns fd).Closed := by
      by_contra hlive
      exact (h.live fd).mp hlive ha
    refine ⟨s, ?_, rfl, ?_⟩
    · dsimp only [TcpServer.handleConnectionEvent]
      rw [if_pos hclosed]
    · rw [Option.map_none, ← ha, Function.update_eq_self]
      exact h.later hc
  | some last =>
    have hlive : ¬ (s.conns fd).Closed := (h.live fd).mpr (by simp [ha])
    obtain ⟨hle, t, ht, hfd, htime⟩ := h.deadline fd last ha
    obtain ⟨h', hadjust, hw, hcase⟩ := h.wellFormed.adjust_mem
      ⟨(s.conns fd).connfd, TimeStamp.nowMsecond now s.idleTimeout, none⟩
    refine ⟨_, handleConnectionEvent_eq hlive hadjust, rfl, ?_⟩
    rw [h.connfd fd hlive] at hcase
    rcases hcase with ⟨hno, -⟩ | ⟨u, hu, hufd, hmem, hord⟩
    · have hin : fd ∈ s.aliveTimer.c.map Timer.fd := hfd ▸ List.mem_map_of_mem ht
      exact absurd hin hno
    · have hut : u = t := List.inj_on_of_nodup_map h.wellFormed.nodup hu ht (hufd.trans hfd.symm)
      subst hut
      have hlater : u.timestamp ≤ TimeStamp.nowMsecond now s.idleTimeout := by
        change u.timestamp.toNat ≤ (TimeStamp.nowMsecond now s.idleTimeout).toNat
        have hnow : clock.val ≤ now.val := hc
        rw [htime, h.delay now]
        omega
      refine ⟨h.delay, hw, hord h.ordered hlater, ?_, h.connfd, ?_, ?_⟩
      · intro v hv
        rcases (hmem v).mp hv with rfl | hv
        · exact h.callback u hu
        · exact h.callback v hv.1
      · intro fd'
        by_cases hfd' : fd' = fd
        · rw [hfd', Function.update_self]
          exact iff_of_true hlive (by simp)
        · rw [Function.update_of_ne hfd']
          exact h.live fd'
      · intro fd' last' ha'
        by_cases hfd' : fd' = fd
        · rw [hfd', Function.update_self] at ha'
          cases ha'
          exact ⟨le_rfl, _, (hmem _).mpr (.inl rfl), hufd.trans hfd'.symm, h.delay now⟩
        · rw [Function.update_of_ne hfd'] at ha'
          obtain ⟨-, v, hv, hvfd, hvtime⟩ := h.deadline fd' last' ha'
          refine ⟨h.last_le ha' hc, v, (hmem v).mpr (.inr ⟨hv, ?_⟩), hvfd, hvtime⟩
          exact hvfd ▸ hfd'

include h hc in
theorem handleConnectionClose (fd : ℤ) :
    Tracks idle now { s with toConnections := s.toConnections.handleConnectionClose fd }
      (Function.update a fd none) := by
  refine ⟨h.delay, h.wellFormed, h.ordered, h.callback, ?_, ?_, ?_⟩
  · intro fd' hlive
    by_cases hfd : fd' = fd
    · subst hfd
      exact absurd s.toConnections.closed_handleConnectionClose hlive
    · have hsame := s.toConnections.conns_handleConnectionClose_of_ne hfd
      rw [Live, hsame] at hlive
      dsimp only
      rw [hsame]
      exact h.connfd fd' hlive
  · intro fd'
    by_cases hfd : fd' = fd
    · subst hfd
      rw [Function.update_self]
      exact iff_of_false (not_not.mpr s.toConnections.closed_handleConnectionClose) (by simp)
    · rw [Function.update_of_ne hfd, Live]
      dsimp only
      rw [s.toConnections.conns_handleConnectionClose_of_ne hfd]
      exact h.live fd'
  · intro fd' last ha
    by_cases hfd : fd' = fd
    · rw [hfd, Function.update_self] at ha
      cases ha
    · rw [Function.update_of_ne hfd] at ha
      exact (h.later hc).deadline fd' last ha

include h in
theorem expired_iff {l : List (Timer (Option ℤ))} {h' : TimerHeap (Option ℤ)}
    (hperm : (l ++ h'.c).Perm s.aliveTimer.c) (hdue : ∀ t ∈ l, t.timestamp ≤ TimeStamp.now now)
    (hlate : ∀ t ∈ h'.c, TimeStamp.now now < t.timestamp) {fd : ℤ} {last : ℕ}
    (ha : a fd = some last) : fd ∈ l.map Timer.fd ↔ last + idle ≤ now := by
  obtain ⟨-, t, ht, rfl, htime⟩ := h.deadline fd last ha
  have hclock : (TimeStamp.now now).toNat = now.val := by
    change (now.val.toUInt64).toNat = now.val
    rw [Nat.toUInt64, UInt64.toNat_ofNat']
    omega
  constructor
  · intro hfd
    obtain ⟨u, hu, hufd⟩ := List.mem_map.mp hfd
    have hmem : u ∈ s.aliveTimer.c := hperm.mem_iff.mp (List.mem_append_left _ hu)
    have hut : u = t := List.inj_on_of_nodup_map h.wellFormed.nodup hmem ht hufd
    have hle : t.timestamp.toNat ≤ (TimeStamp.now now).toNat := hdue t (hut ▸ hu)
    omega
  · intro hle
    rcases List.mem_append.mp (hperm.mem_iff.mpr ht) with hl | hr
    · exact List.mem_map_of_mem hl
    · have hlt : (TimeStamp.now now).toNat < t.timestamp.toNat := hlate t hr
      omega

include h hc in
theorem handleTimeout :
    ∃ s', s.handleTimeout now = .ok s' ∧ s'.enableHttps = s.enableHttps ∧
      Tracks idle now s' (fun fd ↦ (a fd).filter fun last ↦ now < last + idle) := by
  obtain ⟨l, h', hw, hperm, hdue, hord, heq⟩ := handleTimeout_eq h.wellFormed h.callback now
  obtain ⟨ho, hlate⟩ := hord h.ordered
  have hexpired {fd : ℤ} {last : ℕ} (ha : a fd = some last) :=
    h.expired_iff hperm hdue hlate ha
  refine ⟨_, heq, rfl, h.delay, hw, ho, ?_, ?_, ?_, ?_⟩
  · intro t ht
    exact h.callback t (hperm.mem_iff.mp (List.mem_append_right l ht))
  · intro fd hlive
    have hkeep : fd ∉ l.map Timer.fd := fun hfd ↦ hlive (s.toConnections.closed_closeAll hfd)
    have hsame := s.toConnections.conns_closeAll_of_notMem hkeep
    rw [Live, hsame] at hlive
    dsimp only
    rw [hsame]
    exact h.connfd fd hlive
  · intro fd
    rw [Live]
    dsimp only
    by_cases hfd : fd ∈ l.map Timer.fd
    · refine iff_of_false (not_not.mpr (s.toConnections.closed_closeAll hfd)) ?_
      cases ha : a fd with
      | none => simp
      | some last =>
        have hle := (hexpired ha).mp hfd
        simp [Option.filter, hle]
    · rw [s.toConnections.conns_closeAll_of_notMem hfd]
      refine (h.live fd).trans ?_
      cases ha : a fd with
      | none => simp
      | some last =>
        have hgt := not_le.mp (mt (hexpired ha).mpr hfd)
        simp [Option.filter, hgt]
  · intro fd last ha
    obtain ⟨ha, hgt⟩ := Option.filter_eq_some_iff.mp ha
    obtain ⟨-, t, ht, hfd, htime⟩ := h.deadline fd last ha
    refine ⟨h.last_le ha hc, t, ?_, hfd, htime⟩
    rcases List.mem_append.mp (hperm.mem_iff.mpr ht) with hl | hr
    · have hle := (hexpired ha).mp (hfd ▸ List.mem_map_of_mem hl)
      rw [decide_eq_true_iff] at hgt
      omega
    · exact hr

include h hc in
/-- One event keeps the timers of the server in step with the activity of its
connections. -/
theorem handle (e : Event) :
    ∃ s', s.handle now e = .ok s' ∧ s'.enableHttps = s.enableHttps ∧
      Tracks idle now s' (a.step idle s.enableHttps now e) := by
  cases e with
  | accept connfd ret => exact h.handleServerAccept hc connfd ret
  | read fd => exact h.handleConnectionEvent hc .onRead fd
  | write fd => exact h.handleConnectionEvent hc .onWrite fd
  | close fd => exact ⟨_, rfl, rfl, h.handleConnectionClose hc fd⟩
  | tick => exact h.handleTimeout hc

theorem run {events : List (TimeStamp.Clock × Event)} (h : Tracks idle clock s a)
    (hfirst : ∀ e ∈ events, clock ≤ e.1) (hsorted : events.Pairwise fun e f ↦ e.1 ≤ f.1) :
    ∃ s', s.run events = .ok s' ∧ ∀ now, clock ≤ now → (∀ e ∈ events, e.1 ≤ now) →
      Tracks idle now s' (a.run idle s.enableHttps events) := by
  induction events generalizing s a clock with
  | nil => exact ⟨s, rfl, fun now hc _ ↦ h.later hc⟩
  | cons e events ih =>
    obtain ⟨hle, hsorted⟩ := List.pairwise_cons.mp hsorted
    obtain ⟨s₁, hstep, hhttps, h₁⟩ := h.handle (hfirst e List.mem_cons_self) e.2
    obtain ⟨s', hrun, htracks⟩ := ih h₁ hle hsorted
    refine ⟨s', ?_, fun now _ hlast ↦ ?_⟩
    · rw [TcpServer.run, List.foldlM_cons, hstep]
      exact hrun
    · rw [hhttps] at htracks
      exact htracks now (hlast e List.mem_cons_self) fun f hf ↦ hlast f (.tail e hf)

theorem init {idleTimeout : Int32} {https : Bool}
    (hdelay : ∀ c, (TimeStamp.nowMsecond c idleTimeout).toNat = c.val + idle) :
    Tracks idle 0 (init idleTimeout https) fun _ ↦ none where
  delay := hdelay
  wellFormed := TimerHeap.wellFormed_init
  ordered j _ hj := absurd hj (Nat.not_lt_zero j)
  callback _ ht := nomatch ht
  connfd _ hlive := absurd (.inr rfl) hlive
  live _ := iff_of_false (not_not.mpr (.inr rfl)) (not_not.mpr rfl)
  deadline _ _ ha := nomatch ha

include h in
theorem timer {fd : ℤ} {last : ℕ} (ha : a fd = some last) :
    ∃ t, s.aliveTimer.c.filter (fun t ↦ t.fd = fd) = [t] ∧ t.timestamp.toNat = last + idle := by
  obtain ⟨-, t, ht, rfl, htime⟩ := h.deadline fd last ha
  exact ⟨t, h.wellFormed.filter_fd ht, htime⟩

end Tracks

/-- Over every run of the event loop with a clock that does not go back, each live
connection has one timer, which expires when the connection has been idle for the
timeout, and a tick closes just the connections that have been. -/
theorem run_idle (millsecond : Int32) (https : Bool)
    (hfit : (Http.HttpServer.setIdleTime millsecond).toInt * 1000 < 2 ^ 31)
    (events : List (TimeStamp.Clock × Event)) (hclock : events.Pairwise fun e f ↦ e.1 ≤ f.1) :
    let idle := ((Http.HttpServer.setIdleTime millsecond).toInt * 1000).toNat
    let a := Activity.run idle https (fun _ ↦ none) events
    ∃ s, (init (Http.HttpServer.setIdleTime millsecond) https).run events = .ok s ∧
      (∀ fd, Live s.toConnections fd ↔ a fd ≠ none) ∧
      (∀ fd last, a fd = some last → ∃ t, s.aliveTimer.c.filter (fun t ↦ t.fd = fd) = [t] ∧
        t.timestamp.toNat = last + idle) ∧
      ∀ now : TimeStamp.Clock, (∀ e ∈ events, e.1 ≤ now) → ∃ s', s.handle now .tick = .ok s' ∧
        ∀ fd, Live s'.toConnections fd ↔ ∃ last, a fd = some last ∧ now < last + idle := by
  intro idle a
  have hpos := Http.HttpServer.setIdleTime_pos millsecond
  have hinit : Tracks idle 0 (init (Http.HttpServer.setIdleTime millsecond) https) fun _ ↦ none :=
    .init fun c ↦ TimeStamp.toNat_nowMsecond c hpos.le hfit
  obtain ⟨s, hrun, htracks⟩ := hinit.run (fun e _ ↦ Fin.zero_le e.1) hclock
  have hfinal := htracks (Fin.last _) (Fin.zero_le _) fun e _ ↦ Fin.le_last e.1
  refine ⟨s, hrun, hfinal.live, fun fd last ha ↦ hfinal.timer ha, fun now hnow ↦ ?_⟩
  obtain ⟨s', htick, -, h'⟩ := (htracks now (Fin.zero_le now) hnow).handleTimeout (Fin.le_refl now)
  refine ⟨s', htick, fun fd ↦ (h'.live fd).trans ?_⟩
  rw [Option.ne_none_iff_exists']
  refine exists_congr fun last ↦ ?_
  rw [Option.filter_eq_some_iff, decide_eq_true_iff]
  rfl

theorem run_idle_reused :
    let events : List (TimeStamp.Clock × Event) := [(0, .accept 5 0), (0, .accept 6 0),
      (1000000, .read 5), (1500000, .close 6), (2000000, .tick), (2500000, .accept 6 0),
      (3000000, .tick)]
    ∃ s, (init 2000 false).run events = .ok s ∧ ¬ Live s.toConnections 5 ∧
      Live s.toConnections 6 := by
  intro events
  obtain ⟨s, hrun, hlive, -⟩ := run_idle 2000 false (by decide) events (by decide)
  exact ⟨s, hrun, mt (hlive 5).mp (by decide), (hlive 6).mpr (by decide)⟩

end TcpServer

end Socnet.Net
