import Socnet.Net.EPoller

namespace Socnet.Net

open TcpServer Connections

namespace Revents

/-- The kernel reports that an fd is readable or writable only if it was asked for that. -/
def Asked (r : Revents) (interest : Option Interest) : Prop :=
  (r.readable = true → interest = some .epollin) ∧ (r.writable = true → interest = some .epollout)

instance (r : Revents) : DecidablePred r.Asked := fun _ ↦ inferInstanceAs (Decidable (_ ∧ _))

theorem readable_of_event {r : Revents} {fd : ℤ} (h : r.event fd = some (.read fd)) :
    r.readable = true := by
  unfold event at h
  split_ifs at h with hhangup hreadable hwritable
  · cases h
  · exact hreadable
  · cases h

theorem writable_of_event {r : Revents} {fd : ℤ} (h : r.event fd = some (.write fd)) :
    r.writable = true := by
  unfold event at h
  split_ifs at h with hhangup hreadable hwritable
  · cases h
  · cases h
  · exact hwritable

end Revents

def TaskKind.interest : TaskKind → Interest
  | .onRead => .epollin
  | .onWrite => .epollout

namespace Connections

variable {c : Connections} {slot fd : ℤ}

theorem Registered.poller_handleConnectionClose (h : c.Registered) (hne : fd ≠ slot) :
    (c.handleConnectionClose slot).poller fd = c.poller fd := by
  by_cases hclosed : (c.conns slot).Closed
  · have hsame : c.handleConnectionClose slot = c := if_pos hclosed
    rw [hsame]
  · have hconnfd := h.connfd slot hclosed
    dsimp only [Connections.handleConnectionClose]
    rw [if_neg hclosed, hconnfd]
    exact Function.update_of_ne hne _ _

theorem Registered.poller_closeAll (h : c.Registered) {l : List (Timer (Option ℤ))}
    (hfd : fd ∉ l.map Timer.fd) : (c.closeAll l).poller fd = c.poller fd := by
  induction l generalizing c with
  | nil => rfl
  | cons t l ih =>
    rw [List.map_cons, List.mem_cons, not_or] at hfd
    exact (ih (h.handleConnectionClose t.fd) hfd.2).trans (h.poller_handleConnectionClose hfd.1)

variable {type : ChannelType} {out : Outcome} {kind : TaskKind}

theorem conns_perform_of_not_closes (hcloses : ¬ Closes (c.conns slot) type out kind) :
    (c.perform slot type out kind).conns = Function.update c.conns slot
      { c.conns slot with keepAlive := (resumes (c.conns slot) out kind).1 } := by
  rw [perform_of_not_closes hcloses, conns_updateEvent]
  rfl

theorem Registered.poller_perform (h : c.Registered) (hlive : Live c slot)
    (hcloses : ¬ Closes (c.conns slot) type out kind) :
    (c.perform slot type out kind).poller =
      Function.update c.poller slot (some (resumes (c.conns slot) out kind).2) := by
  obtain ⟨old, hold⟩ := Option.ne_none_iff_exists'.mp ((h.poller slot).mp hlive)
  rw [perform_of_not_closes hcloses, h.connfd slot hlive, Connections.updateEvent, setConn]
  simp only [hold]

end Connections

namespace TcpServer

variable {s s' : TcpServer} {clock : TimeStamp.Clock}

theorem enableHttps_handleConnected {connfd : ℤ} {type : ChannelType}
    (h : s.handleConnected clock connfd type = .ok s') : s'.enableHttps = s.enableHttps := by
  obtain ⟨aliveTimer, -, h⟩ := bind_eq_ok.mp h
  cases h
  rfl

theorem enableHttps_handleConnectionEvent {kind : TaskKind} {slot : ℤ}
    (h : s.handleConnectionEvent kind clock slot = .ok s') : s'.enableHttps = s.enableHttps := by
  dsimp only [handleConnectionEvent] at h
  split_ifs at h
  · cases h
    rfl
  · obtain ⟨aliveTimer, -, h⟩ := bind_eq_ok.mp h
    cases h
    rfl

theorem enableHttps_handle {e : Event} (h : s.handle clock e = .ok s') :
    s'.enableHttps = s.enableHttps := by
  cases e with
  | accept connfd ret =>
    simp only [handle, handleServerAccept] at h
    split_ifs at h
    · cases h
      rfl
    · cases h
      rfl
    · exact enableHttps_handleConnected h
    · exact enableHttps_handleConnected h
  | read fd => exact enableHttps_handleConnectionEvent h
  | write fd => exact enableHttps_handleConnectionEvent h
  | close fd =>
    cases h
    rfl
  | tick =>
    obtain ⟨⟨aliveTimer, c⟩, -, h⟩ := bind_eq_ok.mp h
    cases h
    rfl

theorem enableHttps_runTask {i : ℕ} {out : Outcome} (h : s.runTask i out = .ok s') :
    s'.enableHttps = s.enableHttps := by
  rw [runTask] at h
  cases htask : s.tasks[i]? with
  | none =>
    rw [htask] at h
    cases h
    rfl
  | some task =>
    cases hchannel : (s.conns task.slot).channel with
    | none =>
      simp only [htask, hchannel] at h
      cases h
    | some channel =>
      cases hkind : task.kind with
      | onRead =>
        simp only [htask, hchannel, hkind] at h
        cases h
        rfl
      | onWrite =>
        simp only [htask, hchannel, hkind] at h
        cases h
        rfl

end TcpServer

namespace EventLoop

/-- The kind of the channels of a server does not change. -/
theorem enableHttps_next {s s' : EventLoop} {step : EventLoop.Step} (h : s.next step = .ok s') :
    s'.enableHttps = s.enableHttps := by
  cases step with
  | wait events =>
    cases h
    rfl
  | handle clock =>
    cases he : s.events with
    | nil =>
      simp only [EventLoop.next, he] at h
      cases h
      rfl
    | cons e events =>
      obtain ⟨fd, r⟩ := e
      cases hr : r.event fd with
      | none =>
        simp only [EventLoop.next, he, hr] at h
        cases h
        rfl
      | some e =>
        simp only [EventLoop.next, he, hr] at h
        obtain ⟨server, hserver, h⟩ := bind_eq_ok.mp h
        cases h
        exact enableHttps_handle hserver
  | accept clock connfd ret =>
    obtain ⟨server, hserver, h⟩ := bind_eq_ok.mp h
    cases h
    exact enableHttps_handle hserver
  | tick clock =>
    obtain ⟨server, hserver, h⟩ := bind_eq_ok.mp h
    cases h
    exact enableHttps_handle hserver
  | task i out =>
    obtain ⟨server, hserver, h⟩ := bind_eq_ok.mp h
    cases h
    exact enableHttps_runTask hserver

/-- A step that leaves the connections that remain as they were. -/
structure Keeps (s s' : EventLoop) : Prop where
  live : ∀ fd, Live s'.toConnections fd → Live s.toConnections fd
  conns : ∀ fd, Live s'.toConnections fd → s'.conns fd = s.conns fd
  poller : ∀ fd, Live s'.toConnections fd → s'.poller fd = s.poller fd
  allocated : s.allocated ≤ s'.allocated

theorem Keeps.of_eq {s s' : EventLoop} (h : s'.toConnections = s.toConnections)
    (ha : s.allocated ≤ s'.allocated) : Keeps s s' :=
  ⟨fun _ hlive ↦ h ▸ hlive, fun _ _ ↦ by rw [h], fun _ _ ↦ by rw [h], ha⟩

theorem keeps_close {s : EventLoop} (s' : EventLoop) (h : s.toConnections.Registered) {fd : ℤ}
    (hc : s'.toConnections = s.toConnections.handleConnectionClose fd)
    (ha : s.allocated ≤ s'.allocated) : Keeps s s' where
  live fd' hlive := (live_handleConnectionClose.mp (hc ▸ hlive)).1
  conns fd' hlive := by
    rw [hc]
    exact conns_handleConnectionClose_of_ne _ (live_handleConnectionClose.mp (hc ▸ hlive)).2
  poller fd' hlive := by
    rw [hc]
    exact h.poller_handleConnectionClose (live_handleConnectionClose.mp (hc ▸ hlive)).2
  allocated := ha

/-- What is under way for a connection is what the kernel was asked for. -/
structure Asked (s : EventLoop) : Prop where
  tasks : ∀ task ∈ s.tasks, s.poller task.slot = some task.kind.interest
  events : ∀ e ∈ s.events, e.2.Asked (s.poller e.1)

namespace HandedOver

variable {s s' : EventLoop} (h : s.HandedOver)

theorem asked_of_keeps (hasked : s.Asked) (h' : s'.HandedOver) (hkeeps : Keeps s s')
    (htasks : ∀ task ∈ s'.tasks, task ∈ s.tasks) (hevents : ∀ e ∈ s'.events, e ∈ s.events) :
    s'.Asked where
  tasks task ht := by
    rw [hkeeps.poller _ (h'.served.fresh task ht).1]
    exact hasked.tasks task (htasks task ht)
  events e he := by
    rw [hkeeps.poller _ (h'.pending e he).1]
    exact hasked.events e (hevents e he)

include h

/-- An event that `poll` hands on queues a task for what the kernel was asked for. -/
theorem handle_event {clock : TimeStamp.Clock} {kind : TaskKind} {fd : ℤ} {r : Revents}
    {events : List (ℤ × Revents)} (he : s.events = (fd, r) :: events)
    {server : TcpServer} (hs : s.toTcpServer.handleConnectionEvent kind clock fd = .ok server) :
    server.toConnections = s.toConnections ∧ server.allocated = s.allocated ∧
      server.tasks = s.tasks ++ [⟨kind, fd, (s.conns fd).channel⟩] := by
  have hlive := (h.pending (fd, r) (he ▸ List.mem_cons_self)).1
  obtain ⟨timer, hadjust, -⟩ := h.served.wellFormed.adjust_mem
    ⟨(s.conns fd).connfd, TimeStamp.nowMsecond clock s.idleTimeout, none⟩
  rw [handleConnectionEvent_eq hlive hadjust] at hs
  cases hs
  exact ⟨rfl, rfl, rfl⟩

theorem handle_keeps {clock : TimeStamp.Clock} (hasked : s.Asked)
    (hs : s.next (.handle clock) = .ok s') : Keeps s s' ∧ s'.Asked := by
  obtain ⟨s₁, hs₁, h'⟩ := h.handle clock
  rw [hs] at hs₁
  cases hs₁
  cases he : s.events with
  | nil =>
    simp only [EventLoop.next, he] at hs
    cases hs
    exact ⟨.of_eq rfl le_rfl, hasked⟩
  | cons e events =>
    obtain ⟨fd, r⟩ := e
    have hhead : r.Asked (s.poller fd) := hasked.events (fd, r) (he ▸ List.mem_cons_self)
    have hrest : ∀ e ∈ events, e.2.Asked (s.poller e.1) := fun e hmem ↦
      hasked.events e (he ▸ List.mem_cons_of_mem _ hmem)
    have hqueued (kind : TaskKind) (hkind : s.poller fd = some kind.interest)
        (hs : (do
          let server ← s.toTcpServer.handleConnectionEvent kind clock fd
          .ok { s with toTcpServer := server, events }) = .ok s') : Keeps s s' ∧ s'.Asked := by
      obtain ⟨server, hserver, hs⟩ := bind_eq_ok.mp hs
      cases hs
      obtain ⟨hconns, halloc, htasks⟩ := h.handle_event he hserver
      refine ⟨.of_eq hconns halloc.ge, fun task ht ↦ ?_, fun e hmem ↦ ?_⟩
      · simp only [hconns]
        rcases List.mem_append.mp (htasks ▸ ht) with ht | ht
        · exact hasked.tasks task ht
        · rw [List.mem_singleton.mp ht]
          exact hkind
      · simp only [hconns]
        exact hrest e hmem
    rcases Revents.event_cases (h.pending (fd, r) (he ▸ List.mem_cons_self)).2 with hr | hr | hr
    · simp only [EventLoop.next, he, hr] at hs
      cases hs
      have hkeeps := keeps_close { s with
        toConnections := s.toConnections.handleConnectionClose fd, events } h.registered rfl le_rfl
      exact ⟨hkeeps, asked_of_keeps hasked h' hkeeps (fun _ ht ↦ ht)
        fun e hmem ↦ he ▸ List.mem_cons_of_mem _ hmem⟩
    · simp only [EventLoop.next, he, hr] at hs
      exact hqueued .onRead (hhead.1 (Revents.readable_of_event hr)) hs
    · simp only [EventLoop.next, he, hr] at hs
      exact hqueued .onWrite (hhead.2 (Revents.writable_of_event hr)) hs

theorem tick_keeps {clock : TimeStamp.Clock} (hasked : s.Asked)
    (hpunctual : s.Punctual (.tick clock)) (hs : s.next (.tick clock) = .ok s') :
    Keeps s s' ∧ s'.Asked := by
  obtain ⟨s₁, hs₁, h'⟩ := h.tick hpunctual
  rw [hs] at hs₁
  cases hs₁
  obtain ⟨l, timer, -, -, -, -, heq⟩ :=
    handleTimeout_eq h.served.wellFormed h.served.callback clock
  simp only [EventLoop.next, TcpServer.handle, heq] at hs
  cases hs
  have hkeeps : Keeps s { s with
      toConnections := s.toConnections.closeAll l, aliveTimer := timer } :=
    ⟨fun fd hlive ↦ (live_closeAll.mp hlive).1,
      fun fd hlive ↦ conns_closeAll_of_notMem _ (live_closeAll.mp hlive).2,
      fun fd hlive ↦ h.registered.poller_closeAll (live_closeAll.mp hlive).2, le_rfl⟩
  exact ⟨hkeeps, asked_of_keeps hasked h' hkeeps (fun _ ht ↦ ht) fun _ he ↦ he⟩

omit h in
theorem wait_keeps {events : List (ℤ × Revents)} (hasked : s.Asked)
    (hreported : ∀ e ∈ events, e.2.Asked (s.poller e.1))
    (hs : s.next (.wait events) = .ok s') : Keeps s s' ∧ s'.Asked := by
  cases hs
  exact ⟨.of_eq rfl le_rfl, hasked.tasks, hreported⟩

/-- `accept` gives a slot that was free to a new connection, or changes nothing. -/
theorem accept_cases {clock : TimeStamp.Clock} {connfd ret : ℤ} (hasked : s.Asked)
    (hfree : ¬ Live s.toConnections connfd) (hs : s.next (.accept clock connfd ret) = .ok s') :
    s'.Asked ∧ (¬ Activity.Accepted s.enableHttps connfd ret ∧ Keeps s s' ∨
      Activity.Accepted s.enableHttps connfd ret ∧ ∃ type, (type = .ssl → s.enableHttps = true) ∧
        s'.conns = Function.update s.conns connfd
          ⟨connfd, false, false, some ⟨s.allocated, type⟩⟩ ∧
        s'.poller = Function.update s.poller connfd (some .epollin) ∧
        s'.allocated = s.allocated + 1) := by
  have hpoller : s.poller connfd = none := by
    by_contra hreg
    exact hfree ((h.registered.poller connfd).mpr hreg)
  by_cases hacc : Activity.Accepted s.enableHttps connfd ret
  · obtain ⟨timer, hpush, -⟩ := h.served.wellFormed.push_mem
      ⟨connfd, TimeStamp.nowMsecond clock s.idleTimeout, some connfd⟩
    obtain ⟨type, hssl, htype⟩ : ∃ type, (type = .ssl → s.enableHttps = true) ∧
        s.toTcpServer.handleServerAccept clock connfd ret =
          s.toTcpServer.handleConnected clock connfd type := by
      rw [handleServerAccept, if_neg hacc.1.not_ge]
      by_cases hhttps : s.enableHttps = true
      · rw [if_pos hhttps, if_neg (hacc.2 hhttps).not_gt]
        exact ⟨.ssl, fun _ ↦ hhttps, rfl⟩
      · rw [if_neg hhttps]
        exact ⟨.raw, fun ht ↦ absurd ht (by decide), rfl⟩
    simp only [EventLoop.next, TcpServer.handle, htype, handleConnected_eq hpush] at hs
    cases hs
    obtain ⟨htasks, hevents⟩ := h.unheld hfree
    have hadded : ((s.toConnections.setConn connfd
        ⟨connfd, false, false, some ⟨s.allocated, type⟩⟩).addEvent connfd .epollin).poller =
        Function.update s.poller connfd (some .epollin) := by
      rw [addEvent, setConn]
      simp only [hpoller]
    refine ⟨⟨fun task ht ↦ ?_, fun e he ↦ ?_⟩, .inr ⟨hacc, type, hssl, ?_, hadded, rfl⟩⟩
    · rw [hadded, Function.update_of_ne (htasks task ht)]
      exact hasked.tasks task ht
    · rw [hadded, Function.update_of_ne (hevents e he)]
      exact hasked.events e he
    · simp only [conns_addEvent]
      rfl
  · have hsame : s'.toConnections = s.toConnections ∧ s.allocated ≤ s'.allocated ∧
        s'.tasks = s.tasks ∧ s'.events = s.events := by
      simp only [EventLoop.next, TcpServer.handle, handleServerAccept] at hs
      by_cases hfd : connfd ≤ 0
      · rw [if_pos hfd] at hs
        cases hs
        exact ⟨rfl, le_rfl, rfl, rfl⟩
      · have hhttps : s.enableHttps = true ∧ ret < 1 := by
          by_contra hno
          exact hacc ⟨not_le.mp hfd, fun hhttps ↦ not_lt.mp fun hret ↦ hno ⟨hhttps, hret⟩⟩
        rw [if_neg hfd, if_pos hhttps.1, if_pos hhttps.2] at hs
        cases hs
        exact ⟨rfl, Nat.le_succ _, rfl, rfl⟩
    obtain ⟨hconns, halloc, htasks, hevents⟩ := hsame
    refine ⟨⟨fun task ht ↦ ?_, fun e he ↦ ?_⟩, .inl ⟨hacc, .of_eq hconns halloc⟩⟩
    · rw [hconns]
      exact hasked.tasks task (htasks ▸ ht)
    · rw [hconns]
      exact hasked.events e (hevents ▸ he)

theorem channel_of_task {i : ℕ} {task : Task} (htask : s.tasks[i]? = some task) :
    ∃ channel, (s.conns task.slot).channel = some channel :=
  Option.ne_none_iff_exists'.mp fun hnone ↦
    (h.served.fresh task (List.mem_of_getElem? htask)).1 (.inr hnone)

/-- A task closes its connection, or passes it on to the kernel. -/
theorem task_cases {i : ℕ} {out : Outcome} {task : Task} {channel : Channel} (hasked : s.Asked)
    (htask : s.tasks[i]? = some task) (hchannel : (s.conns task.slot).channel = some channel)
    (hs : s.next (.task i out) = .ok s') :
    s'.Asked ∧ s'.allocated = s.allocated ∧
      (Closes (s.conns task.slot) channel.type out task.kind ∧ Keeps s s' ∧
        ¬ Live s'.toConnections task.slot ∨
      ¬ Closes (s.conns task.slot) channel.type out task.kind ∧
        s'.conns = Function.update s.conns task.slot { s.conns task.slot with
          keepAlive := (resumes (s.conns task.slot) out task.kind).1 } ∧
        s'.poller = Function.update s.poller task.slot
          (some (resumes (s.conns task.slot) out task.kind).2)) := by
  obtain ⟨s₁, hs₁, h'⟩ := h.task i out
  rw [hs] at hs₁
  cases hs₁
  have hlive := (h.served.fresh task (List.mem_of_getElem? htask)).1
  obtain ⟨halone, hevents⟩ := h.task_alone htask
  obtain ⟨channel', hchannel', hrun⟩ := h.runTask_of_getElem htask out
  rw [hchannel] at hchannel'
  cases hchannel'
  simp only [EventLoop.next, hrun] at hs
  cases hs
  by_cases hcloses : Closes (s.conns task.slot) channel.type out task.kind
  · have hkeeps := keeps_close { s with
        tasks := s.tasks.eraseIdx i
        toConnections := s.toConnections.perform task.slot channel.type out task.kind
        armed := arm s.armed (s.rearms i out) } h.registered (perform_of_closes hcloses) le_rfl
    refine ⟨?_, rfl, .inl ⟨hcloses, hkeeps, fun hl ↦ (live_perform.mp hl).2 hcloses rfl⟩⟩
    exact asked_of_keeps hasked h' hkeeps (fun _ ht ↦ List.mem_of_mem_eraseIdx ht) fun _ he ↦ he
  · have hpoller := h.registered.poller_perform hlive hcloses
    refine ⟨⟨fun other ht ↦ ?_, fun e he ↦ ?_⟩, rfl,
      .inr ⟨hcloses, conns_perform_of_not_closes hcloses, hpoller⟩⟩
    · simp only [hpoller, Function.update_of_ne (halone other ht)]
      exact hasked.tasks other (List.mem_of_mem_eraseIdx ht)
    · simp only [hpoller, Function.update_of_ne (hevents e he)]
      exact hasked.events e he

end HandedOver

theorem asked_init (idleTimeout : Int32) (enableHttps : Bool) :
    (init idleTimeout enableHttps).Asked :=
  ⟨fun _ ht ↦ (nomatch ht), fun _ he ↦ (nomatch he)⟩

end EventLoop

end Socnet.Net
