import Socnet.Lib.Run
import Socnet.Net.TaskQueue

namespace Socnet.Net

/-- The events of an fd as `poll` tells them apart: `hangup` is any of `EPOLLERR`,
`EPOLLRDHUP` and `EPOLLHUP`. -/
structure Revents where
  hangup : Bool
  readable : Bool
  writable : Bool
  deriving DecidableEq

namespace Revents

open TcpServer

/-- The callback that `poll` calls. -/
def event (r : Revents) (fd : ℤ) : Option Event :=
  if r.hangup then some (.close fd)
  else if r.readable then some (.read fd)
  else if r.writable then some (.write fd)
  else none

theorem event_cases {r : Revents} {fd : ℤ} (h : r.event fd ≠ none) :
    r.event fd = some (.close fd) ∨ r.event fd = some (.read fd) ∨
      r.event fd = some (.write fd) := by
  unfold event at h ⊢
  split_ifs at h ⊢
  · exact .inl rfl
  · exact .inr (.inl rfl)
  · exact .inr (.inr rfl)
  · exact absurd rfl h

end Revents

/-- The server with its poller: `armed` tells for which of the registered fds the kernel
would report an event, and `events` are those of the last `epoll_wait` that are still to be
handled. As the connections are registered with `EPOLLONESHOT`, an event disarms its fd. A
task stays in `tasks` until a worker is through with it. -/
structure EventLoop extends TcpServer where
  armed : ℤ → Bool
  events : List (ℤ × Revents)

namespace EventLoop

open TcpServer Connections

def init (idleTimeout : Int32) (enableHttps : Bool) : EventLoop :=
  ⟨TcpServer.init idleTimeout enableHttps, fun _ ↦ false, []⟩

/-- Whether a task comes to a call of `updateEvent`. -/
def updates (conn : TcpConnection) (type : ChannelType) (out : Outcome) : TaskKind → Bool
  | .onRead =>
    let (n, again) := TcpConnection.readAgain type out.n out.err
    !(n ≤ 0 && again = false)
  | .onWrite =>
    let (n, again, _) := TcpConnection.writeAgain out.n out.err out.cflag
    if n = 0 then conn.keepAlive
    else if n < 0 then again ≠ 0
    else false

/-- A step of the thread of the loop or of a worker. The events of the listening socket and
of the timer may come anywhere among those of the connections. -/
inductive Step
  | wait (events : List (ℤ × Revents))
  | handle (clock : TimeStamp.Clock)
  | accept (clock : TimeStamp.Clock) (connfd ret : ℤ)
  | tick (clock : TimeStamp.Clock)
  | task (i : ℕ) (out : Outcome)

/-- `addEvent` arms an fd that is not registered. -/
def arms (s : EventLoop) (connfd ret : ℤ) : Bool :=
  decide (Activity.Accepted s.enableHttps connfd ret) && (s.poller connfd).isNone

/-- The fd for which the task at place `i` calls `updateEvent`, if it does. -/
def rearms (s : EventLoop) (i : ℕ) (out : Outcome) : Option ℤ := do
  let task ← s.tasks[i]?
  let conn := s.conns task.slot
  let channel ← conn.channel
  if updates conn channel.type out task.kind ∧ s.poller conn.connfd ≠ none then some conn.connfd
  else none

def arm (armed : ℤ → Bool) : Option ℤ → ℤ → Bool
  | none => armed
  | some fd => Function.update armed fd true

def next (s : EventLoop) : Step → Except Fault EventLoop
  | .wait events =>
    .ok { s with armed := fun fd ↦ s.armed fd && fd ∉ events.map Prod.fst, events }
  | .handle clock =>
    match s.events with
    | [] => .ok s
    | (fd, r) :: events =>
      match r.event fd with
      | none => .ok { s with events }
      | some e => do
        let server ← s.toTcpServer.handle clock e
        .ok { s with toTcpServer := server, events }
  | .accept clock connfd ret => do
    let server ← s.toTcpServer.handle clock (.accept connfd ret)
    .ok { s with
      toTcpServer := server
      armed := arm s.armed (if s.arms connfd ret then some connfd else none) }
  | .tick clock => do
    let server ← s.toTcpServer.handle clock .tick
    .ok { s with toTcpServer := server }
  | .task i out => do
    let server ← s.toTcpServer.runTask i out
    .ok { s with toTcpServer := server, armed := arm s.armed (s.rearms i out) }

/-- What the kernel does: `epoll_wait` is called when the last events have been handled, and
reports fds that are registered and armed, each once and with some event, and `accept`
answers with an fd that is not in use. -/
def Admits (s : EventLoop) : Step → Prop
  | .wait events => s.events = [] ∧ (events.map Prod.fst).Nodup ∧
      ∀ e ∈ events, s.poller e.1 ≠ none ∧ s.armed e.1 = true ∧ e.2.event e.1 ≠ none
  | .accept _ connfd _ => ¬ Live s.toConnections connfd
  | .handle _ | .tick _ | .task _ _ => True

/-- The idle timer closes no connection for which an event or a task is under way. -/
def Punctual (s : EventLoop) : Step → Prop
  | .tick clock => ∀ t ∈ s.aliveTimer.c, t.timestamp ≤ TimeStamp.now clock →
      (∀ task ∈ s.tasks, task.slot ≠ t.fd) ∧ ∀ e ∈ s.events, e.1 ≠ t.fd
  | .wait _ | .handle _ | .accept _ _ _ | .task _ _ => True

/-- Who has a connection in hand: the kernel, the loop or a worker. -/
def holders (s : EventLoop) (fd : ℤ) : ℕ :=
  s.tasks.countP (·.slot = fd) + s.events.countP (·.1 = fd) + (s.armed fd).toNat

theorem updates_iff (conn : TcpConnection) (type : ChannelType) (out : Outcome)
    (kind : TaskKind) : updates conn type out kind = true ↔ ¬ Closes conn type out kind := by
  cases kind with
  | onRead =>
    by_cases hn : out.n ≤ 0
    · cases type with
      | raw => simp [updates, Closes, TcpConnection.readAgain, hn]
      | ssl => simp [updates, Closes, TcpConnection.readAgain, hn]
    · cases type with
      | raw => simp [updates, Closes, TcpConnection.readAgain, hn]
      | ssl => simp [updates, Closes, TcpConnection.readAgain, hn]
  | onWrite =>
    by_cases hzero : out.n = 0
    · simp [updates, Closes, TcpConnection.writeAgain, hzero]
    · by_cases hneg : out.n < 0
      · have hdec : updates conn type out .onWrite = decide (out.err ≠ 0) :=
          (if_neg hzero).trans (if_pos hneg)
        rw [hdec, decide_eq_true_iff]
        simp [Closes, hzero, hneg]
      · simp [updates, Closes, TcpConnection.writeAgain, hzero, hneg]

end EventLoop

namespace Connections

open TcpServer

variable {c : Connections} {slot fd : ℤ}

/-- The fds that the kernel watches are those of the live connections. -/
structure Registered (c : Connections) : Prop where
  connfd : ∀ fd, Live c fd → (c.conns fd).connfd = fd
  poller : ∀ fd, Live c fd ↔ c.poller fd ≠ none

theorem live_handleConnectionClose :
    Live (c.handleConnectionClose slot) fd ↔ Live c fd ∧ fd ≠ slot := by
  by_cases h : fd = slot
  · subst h
    exact iff_of_false (not_not.mpr c.closed_handleConnectionClose) fun hc ↦ hc.2 rfl
  · rw [Live, c.conns_handleConnectionClose_of_ne h]
    exact (and_iff_left h).symm

theorem live_closeAll {l : List (Timer (Option ℤ))} :
    Live (c.closeAll l) fd ↔ Live c fd ∧ fd ∉ l.map Timer.fd := by
  by_cases h : fd ∈ l.map Timer.fd
  · exact iff_of_false (not_not.mpr (c.closed_closeAll h)) fun hc ↦ hc.2 h
  · rw [Live, c.conns_closeAll_of_notMem h]
    exact (and_iff_left h).symm

theorem Registered.handleConnectionClose (h : c.Registered) (slot : ℤ) :
    (c.handleConnectionClose slot).Registered where
  connfd fd hlive := by
    obtain ⟨hlive, hne⟩ := live_handleConnectionClose.mp hlive
    rw [c.conns_handleConnectionClose_of_ne hne]
    exact h.connfd fd hlive
  poller fd := by
    rw [live_handleConnectionClose]
    by_cases hclosed : (c.conns slot).Closed
    · have hsame : c.handleConnectionClose slot = c := if_pos hclosed
      rw [hsame, h.poller fd]
      refine and_iff_left_of_imp fun hreg heq ↦ ?_
      exact (h.poller fd).mpr hreg (heq ▸ hclosed)
    · have hpoller : (c.handleConnectionClose slot).poller =
          Function.update c.poller slot none := by
        have hconnfd := h.connfd slot hclosed
        dsimp only [Connections.handleConnectionClose]
        rw [if_neg hclosed, hconnfd]
        rfl
      rw [hpoller, h.poller fd]
      by_cases hfd : fd = slot
      · rw [hfd, Function.update_self]
        simp
      · rw [Function.update_of_ne hfd]
        exact and_iff_left hfd

theorem Registered.closeAll (h : c.Registered) (l : List (Timer (Option ℤ))) :
    (c.closeAll l).Registered := by
  induction l generalizing c with
  | nil => exact h
  | cons t l ih => exact ih (h.handleConnectionClose t.fd)

/-- The keep-alive flag of a connection after a task that does not close it, and the event
that the kernel is then asked for. -/
def resumes (conn : TcpConnection) (out : Outcome) : TaskKind → Bool × Interest
  | .onRead =>
    if out.readable = false then (conn.keepAlive, .epollin)
    else (out.keepAlive, if out.message then .epollout else .epollin)
  | .onWrite => (conn.keepAlive, if out.n = 0 ∧ out.cflag = true then .epollin else .epollout)

/-- A task that does not close its connection arms it again. -/
theorem perform_of_not_closes {type : ChannelType} {out : Outcome} {kind : TaskKind}
    (h : ¬ Closes (c.conns slot) type out kind) :
    let after := resumes (c.conns slot) out kind
    c.perform slot type out kind =
      (c.setConn slot { c.conns slot with keepAlive := after.1 }).updateEvent
        (c.conns slot).connfd after.2 := by
  have hself : c.setConn slot { c.conns slot with keepAlive := (c.conns slot).keepAlive } = c := by
    change { c with conns := Function.update c.conns slot (c.conns slot) } = c
    rw [Function.update_eq_self]
  cases kind with
  | onRead =>
    have hn : (TcpConnection.readAgain type out.n out.err).1 = out.n := by
      cases type with
      | raw => rfl
      | ssl => rfl
    have hgoes : ¬ (out.n ≤ 0 ∧ (TcpConnection.readAgain type out.n out.err).2 = false) := h
    dsimp only [perform, onRead, resumes]
    rw [hn, if_neg hgoes]
    by_cases hreadable : out.readable = false
    · rw [if_pos hreadable, if_pos hreadable, hself]
    · rw [if_neg hreadable, if_neg hreadable]
  | onWrite =>
    rw [perform, onWrite_eq]
    dsimp only [resumes]
    rw [hself]
    by_cases hzero : out.n = 0
    · have halive : (c.conns slot).keepAlive = true := by
        by_contra hno
        exact h ⟨fun hc ↦ hno hc.2, fun hc ↦ hc.1.ne hzero⟩
      rw [if_pos hzero, if_pos halive]
      simp only [hzero, true_and]
    · have hneg : out.n < 0 ∧ out.err ≠ 0 := by
        by_contra hno
        exact h ⟨fun hc ↦ hzero hc.1, hno⟩
      rw [if_neg hzero, if_pos hneg.1, if_pos hneg.2, if_neg fun hc ↦ hzero hc.1]

theorem Registered.updateEvent (h : c.Registered) (fd : ℤ) (event : Interest) :
    (c.updateEvent fd event).Registered where
  connfd fd' := by
    rw [Live, conns_updateEvent]
    exact h.connfd fd'
  poller fd' := by
    rw [Live, conns_updateEvent]
    refine (h.poller fd').trans ?_
    unfold Connections.updateEvent
    split
    · rfl
    · rename_i old hold
      by_cases hfd : fd' = fd
      · rw [hfd, hold]
        simp
      · simp only [Function.update_of_ne hfd]

theorem live_connect {channel : Channel} :
    Live ((c.setConn slot ⟨slot, false, false, some channel⟩).addEvent slot .epollin) fd ↔
      fd = slot ∨ Live c fd := by
  rw [Live, conns_addEvent]
  by_cases hfd : fd = slot
  · simp [hfd, setConn, TcpConnection.Closed]
  · simp [hfd, setConn, Live]

theorem Registered.connect (h : c.Registered) (hfree : ¬ Live c slot) (channel : Channel) :
    ((c.setConn slot ⟨slot, false, false, some channel⟩).addEvent slot .epollin).Registered where
  connfd fd hlive := by
    rw [conns_addEvent]
    by_cases hfd : fd = slot
    · simp [hfd, setConn]
    · simpa [setConn, Function.update_of_ne hfd] using
        h.connfd fd ((live_connect.mp hlive).resolve_left hfd)
  poller fd := by
    have hpoller : c.poller slot = none := by
      by_contra hreg
      exact hfree ((h.poller slot).mpr hreg)
    rw [live_connect, addEvent, setConn]
    simp only [hpoller]
    by_cases hfd : fd = slot
    · simp [hfd]
    · simp [hfd, h.poller fd]

theorem live_keepAlive (keepAlive : Bool) :
    Live (c.setConn slot { c.conns slot with keepAlive }) fd ↔ Live c fd := by
  by_cases hfd : fd = slot
  · subst hfd
    simp [Live, setConn, TcpConnection.Closed]
  · simp [Live, setConn, Function.update_of_ne hfd]

theorem Registered.keepAlive (h : c.Registered) (slot : ℤ) (keepAlive : Bool) :
    (c.setConn slot { c.conns slot with keepAlive }).Registered where
  connfd fd hlive := by
    have hfd := h.connfd fd ((live_keepAlive keepAlive).mp hlive)
    by_cases heq : fd = slot
    · subst heq
      simpa [setConn] using hfd
    · simpa [setConn, Function.update_of_ne heq] using hfd
  poller fd := (live_keepAlive keepAlive).trans (h.poller fd)

variable {type : ChannelType} {out : Outcome} {kind : TaskKind}

theorem perform_of_closes (h : Closes (c.conns slot) type out kind) :
    c.perform slot type out kind = c.handleConnectionClose slot :=
  (c.perform_cases slot type out kind).elim And.right fun hno ↦ absurd h hno.1

theorem live_perform : Live (c.perform slot type out kind) fd ↔
    Live c fd ∧ (Closes (c.conns slot) type out kind → fd ≠ slot) := by
  by_cases hcloses : Closes (c.conns slot) type out kind
  · rw [perform_of_closes hcloses, live_handleConnectionClose]
    simp only [hcloses, forall_const]
  · rw [perform_of_not_closes hcloses, Live, conns_updateEvent]
    refine (live_keepAlive _).trans ?_
    simp only [hcloses, false_imp_iff, and_true]

theorem Registered.perform (h : c.Registered) :
    (c.perform slot type out kind).Registered := by
  by_cases hcloses : Closes (c.conns slot) type out kind
  · rw [perform_of_closes hcloses]
    exact h.handleConnectionClose slot
  · rw [perform_of_not_closes hcloses]
    exact (h.keepAlive slot _).updateEvent (c.conns slot).connfd _

end Connections

namespace EventLoop

open TcpServer Connections

/-- Every live connection is in one hand: its fd is armed, or the loop has an event of it to
handle, or a task of it is queued. -/
structure HandedOver (s : EventLoop) : Prop where
  served : s.toTcpServer.Served
  registered : s.toConnections.Registered
  pending : ∀ e ∈ s.events, Live s.toConnections e.1 ∧ e.2.event e.1 ≠ none
  once : ∀ fd, Live s.toConnections fd → s.holders fd = 1

theorem countP_eq_zero_of_ne {α : Type} {l : List α} {f : α → ℤ} {fd : ℤ} (h : ∀ x ∈ l, f x ≠ fd) :
    l.countP (fun x ↦ f x = fd) = 0 := by
  refine List.countP_eq_zero.mpr fun x hx ↦ ?_
  simpa using h x hx

theorem ne_of_countP_eq_zero {α : Type} {l : List α} {f : α → ℤ} {fd : ℤ}
    (h : l.countP (fun x ↦ f x = fd) = 0) : ∀ x ∈ l, f x ≠ fd := fun x hx ↦ by
  simpa using List.countP_eq_zero.mp h x hx

namespace HandedOver

variable {s : EventLoop} (h : s.HandedOver)

include h

theorem wait {events : List (ℤ × Revents)} (hadmits : s.Admits (.wait events)) :
    HandedOver { s with
      armed := fun fd ↦ s.armed fd && fd ∉ events.map Prod.fst, events } where
  served := h.served
  registered := h.registered
  pending e he :=
    ⟨(h.registered.poller e.1).mpr (hadmits.2.2 e he).1, (hadmits.2.2 e he).2.2⟩
  once fd hlive := by
    obtain ⟨hempty, hnodup, hreported⟩ := hadmits
    have honce := h.once fd hlive
    simp only [holders, hempty, List.countP_nil] at honce ⊢
    have hcount : events.countP (fun e ↦ e.1 = fd) = (events.map Prod.fst).count fd := by
      rw [List.count, List.countP_map]
      exact List.countP_congr fun e _ ↦ by simp
    by_cases hmem : fd ∈ events.map Prod.fst
    · obtain ⟨e, he, rfl⟩ := List.mem_map.mp hmem
      have harmed : s.armed e.1 = true := (hreported e he).2.1
      rw [hcount, List.count_eq_one_of_mem hnodup hmem]
      simp only [harmed, hmem, Bool.toNat_true, not_true_eq_false, decide_false, Bool.and_false,
        Bool.toNat_false] at honce ⊢
      omega
    · rw [hcount, List.count_eq_zero_of_not_mem hmem]
      simpa [hmem] using honce

/-- A connection of which an event is to be handled is in no other hand. -/
theorem alone {fd : ℤ} {r : Revents} {events : List (ℤ × Revents)}
    (he : s.events = (fd, r) :: events) : (∀ task ∈ s.tasks, task.slot ≠ fd) ∧
      (∀ e ∈ events, e.1 ≠ fd) ∧ s.armed fd = false := by
  have hlive := (h.pending (fd, r) (he ▸ List.mem_cons_self)).1
  have honce := h.once fd hlive
  rw [holders, he, List.countP_cons_of_pos (by simp)] at honce
  refine ⟨ne_of_countP_eq_zero (by omega), ne_of_countP_eq_zero (f := Prod.fst) (by omega), ?_⟩
  cases harmed : s.armed fd with
  | false => rfl
  | true =>
    rw [harmed, Bool.toNat_true] at honce
    omega

theorem close {fd : ℤ} {r : Revents} {events : List (ℤ × Revents)}
    (he : s.events = (fd, r) :: events) : HandedOver { s with
      toConnections := s.toConnections.handleConnectionClose fd, events } := by
  obtain ⟨htasks, hevents, -⟩ := h.alone he
  refine ⟨h.served.handleConnectionClose htasks, h.registered.handleConnectionClose fd,
    fun e hmem ↦ ?_, fun fd' hlive ↦ ?_⟩
  · obtain ⟨hlive, hevent⟩ := h.pending e (he ▸ List.mem_cons_of_mem _ hmem)
    exact ⟨live_handleConnectionClose.mpr ⟨hlive, hevents e hmem⟩, hevent⟩
  · obtain ⟨hlive, hne⟩ := live_handleConnectionClose.mp hlive
    have honce := h.once fd' hlive
    rw [holders, he, List.countP_cons_of_neg (by simpa using hne.symm)] at honce
    exact honce

theorem event {fd : ℤ} {r : Revents} {events : List (ℤ × Revents)}
    (he : s.events = (fd, r) :: events) (kind : TaskKind) (clock : TimeStamp.Clock) :
    ∃ server, s.toTcpServer.handleConnectionEvent kind clock fd = .ok server ∧
      HandedOver { s with toTcpServer := server, events } := by
  have hlive := (h.pending (fd, r) (he ▸ List.mem_cons_self)).1
  obtain ⟨timer, hadjust, -⟩ := h.served.wellFormed.adjust_mem
    ⟨(s.conns fd).connfd, TimeStamp.nowMsecond clock s.idleTimeout, none⟩
  obtain ⟨server, hserver, hserved⟩ :
      ∃ server, s.toTcpServer.handleConnectionEvent kind clock fd = .ok server ∧ server.Served :=
    h.served.handleConnectionEvent kind fd
  rw [handleConnectionEvent_eq hlive hadjust] at hserver
  cases hserver
  refine ⟨_, handleConnectionEvent_eq hlive hadjust, hserved, h.registered, fun e hmem ↦ ?_,
    fun fd' hlive' ↦ ?_⟩
  · exact h.pending e (he ▸ List.mem_cons_of_mem _ hmem)
  · have honce := h.once fd' hlive'
    simp only [holders, he, List.countP_cons, List.countP_append, List.countP_nil] at honce ⊢
    omega

theorem handle (clock : TimeStamp.Clock) :
    ∃ s', s.next (.handle clock) = .ok s' ∧ s'.HandedOver := by
  cases he : s.events with
  | nil => exact ⟨s, by rw [next, he], h⟩
  | cons e events =>
    obtain ⟨fd, r⟩ := e
    have hevent := (h.pending (fd, r) (he ▸ List.mem_cons_self)).2
    rcases Revents.event_cases hevent with hr | hr | hr
    · refine ⟨_, ?_, h.close he⟩
      simp only [next, he, hr]
      rfl
    · obtain ⟨server, hserver, h'⟩ := h.event he .onRead clock
      refine ⟨_, ?_, h'⟩
      simp only [next, he, hr, TcpServer.handle, handleConnectionRead, hserver]
      rfl
    · obtain ⟨server, hserver, h'⟩ := h.event he .onWrite clock
      refine ⟨_, ?_, h'⟩
      simp only [next, he, hr, TcpServer.handle, handleConnectionWrite, hserver]
      rfl

/-- A slot that is not live is in no hand but, it may be, armed. -/
theorem unheld {fd : ℤ} (hfree : ¬ Live s.toConnections fd) :
    (∀ task ∈ s.tasks, task.slot ≠ fd) ∧ ∀ e ∈ s.events, e.1 ≠ fd :=
  ⟨fun task ht heq ↦ hfree (heq ▸ (h.served.fresh task ht).1),
    fun e he heq ↦ hfree (heq ▸ (h.pending e he).1)⟩

theorem connected {connfd : ℤ} (hfree : ¬ Live s.toConnections connfd) (type : ChannelType)
    (clock : TimeStamp.Clock) :
    ∃ server, s.toTcpServer.handleConnected clock connfd type = .ok server ∧
      HandedOver { s with toTcpServer := server, armed := arm s.armed (some connfd) } := by
  obtain ⟨timer, hpush, -⟩ := h.served.wellFormed.push_mem
    ⟨connfd, TimeStamp.nowMsecond clock s.idleTimeout, some connfd⟩
  obtain ⟨server, hserver, hserved⟩ :
      ∃ server, s.toTcpServer.handleConnected clock connfd type = .ok server ∧ server.Served :=
    h.served.handleConnected hfree type
  rw [handleConnected_eq hpush] at hserver
  cases hserver
  obtain ⟨htasks, hevents⟩ := h.unheld hfree
  refine ⟨_, handleConnected_eq hpush, hserved, h.registered.connect hfree ⟨s.allocated, type⟩,
    fun e he ↦ ?_, fun fd hlive ↦ ?_⟩
  · obtain ⟨hlive, hevent⟩ := h.pending e he
    exact ⟨live_connect.mpr (.inr hlive), hevent⟩
  · change s.tasks.countP (·.slot = fd) + s.events.countP (·.1 = fd) +
      (Function.update s.armed connfd true fd).toNat = 1
    by_cases hfd : fd = connfd
    · subst hfd
      rw [countP_eq_zero_of_ne htasks, countP_eq_zero_of_ne (f := Prod.fst) hevents,
        Function.update_self]
      rfl
    · rw [Function.update_of_ne hfd]
      exact h.once fd ((live_connect.mp hlive).resolve_left hfd)

theorem accept (clock : TimeStamp.Clock) {connfd : ℤ} (ret : ℤ)
    (hfree : ¬ Live s.toConnections connfd) :
    ∃ s', s.next (.accept clock connfd ret) = .ok s' ∧ s'.HandedOver := by
  have hpoller : s.poller connfd = none := by
    by_contra hreg
    exact hfree ((h.registered.poller connfd).mpr hreg)
  by_cases hacc : Activity.Accepted s.enableHttps connfd ret
  · have harms : s.arms connfd ret = true := by simp [arms, hacc, hpoller]
    obtain ⟨type, htype⟩ : ∃ type, s.toTcpServer.handleServerAccept clock connfd ret =
        s.toTcpServer.handleConnected clock connfd type := by
      rw [handleServerAccept, if_neg hacc.1.not_ge]
      by_cases hhttps : s.enableHttps = true
      · rw [if_pos hhttps, if_neg (hacc.2 hhttps).not_gt]
        exact ⟨.ssl, rfl⟩
      · rw [if_neg hhttps]
        exact ⟨.raw, rfl⟩
    obtain ⟨server, hserver, h'⟩ := h.connected hfree type clock
    refine ⟨_, ?_, h'⟩
    simp only [next, TcpServer.handle, htype, hserver, harms]
    rfl
  · have harms : s.arms connfd ret = false := by simp [arms, hacc]
    obtain ⟨allocated, hserver⟩ : ∃ allocated,
        s.toTcpServer.handleServerAccept clock connfd ret =
          .ok { s.toTcpServer with allocated } := by
      rw [handleServerAccept]
      by_cases hfd : connfd ≤ 0
      · rw [if_pos hfd]
        exact ⟨s.allocated, rfl⟩
      · have hhttps : s.enableHttps = true ∧ ret < 1 := by
          by_contra hno
          exact hacc ⟨not_le.mp hfd, fun hhttps ↦ not_lt.mp fun hret ↦ hno ⟨hhttps, hret⟩⟩
        rw [if_neg hfd, if_pos hhttps.1, if_pos hhttps.2]
        exact ⟨s.allocated + 1, rfl⟩
    refine ⟨{ s with allocated }, ?_, { h.served with }, h.registered, h.pending, h.once⟩
    simp only [next, TcpServer.handle, hserver, harms]
    rfl

theorem tick {clock : TimeStamp.Clock} (hpunctual : s.Punctual (.tick clock)) :
    ∃ s', s.next (.tick clock) = .ok s' ∧ s'.HandedOver := by
  obtain ⟨l, timer, -, hperm, hdue, -, heq⟩ :=
    handleTimeout_eq h.served.wellFormed h.served.callback clock
  obtain ⟨server, hserver, hserved⟩ :
      ∃ server, s.toTcpServer.handleTimeout clock = .ok server ∧ server.Served :=
    h.served.handleTimeout fun t ht hle ↦ (hpunctual t ht hle).1
  rw [heq] at hserver
  cases hserver
  have hevents : ∀ e ∈ s.events, e.1 ∉ l.map Timer.fd := fun e he hin ↦ by
    obtain ⟨t, ht, hfd⟩ := List.mem_map.mp hin
    have hmem : t ∈ s.aliveTimer.c := hperm.mem_iff.mp (List.mem_append_left _ ht)
    exact (hpunctual t hmem (hdue t ht)).2 e he hfd.symm
  refine ⟨{ s with toConnections := s.toConnections.closeAll l, aliveTimer := timer }, ?_,
    hserved, h.registered.closeAll l, fun e he ↦ ?_, fun fd hlive ↦ ?_⟩
  · simp only [next, TcpServer.handle, heq]
    rfl
  · obtain ⟨hlive, hevent⟩ := h.pending e he
    exact ⟨live_closeAll.mpr ⟨hlive, hevents e he⟩, hevent⟩
  · exact h.once fd (live_closeAll.mp hlive).1

theorem runTask_of_getElem {i : ℕ} {task : Task} (htask : s.tasks[i]? = some task)
    (out : Outcome) : ∃ channel, (s.conns task.slot).channel = some channel ∧
      s.toTcpServer.runTask i out = .ok { s.toTcpServer with
        tasks := s.tasks.eraseIdx i
        toConnections := s.toConnections.perform task.slot channel.type out task.kind } := by
  have hfresh := h.served.fresh task (List.mem_of_getElem? htask)
  obtain ⟨channel, hchannel⟩ : ∃ channel, (s.conns task.slot).channel = some channel :=
    Option.ne_none_iff_exists'.mp fun hnone ↦ hfresh.1 (.inr hnone)
  refine ⟨channel, hchannel, ?_⟩
  rw [runTask, htask]
  dsimp only
  rw [hchannel]
  cases hkind : task.kind with
  | onRead => rfl
  | onWrite => rfl

omit h in
theorem countP_eraseIdx {i : ℕ} {task : Task} (htask : s.tasks[i]? = some task) (fd : ℤ) :
    s.tasks.countP (·.slot = fd) =
      (s.tasks.eraseIdx i).countP (·.slot = fd) + if task.slot = fd then 1 else 0 := by
  obtain ⟨hi, rfl⟩ := List.getElem?_eq_some_iff.mp htask
  have hperm := List.getElem_cons_eraseIdx_perm hi
  rw [← hperm.countP_eq, List.countP_cons]
  simp

/-- A connection of which a task is queued is in no other hand. -/
theorem task_alone {i : ℕ} {task : Task} (htask : s.tasks[i]? = some task) :
    (∀ other ∈ s.tasks.eraseIdx i, other.slot ≠ task.slot) ∧ ∀ e ∈ s.events, e.1 ≠ task.slot := by
  have honce := h.once task.slot (h.served.fresh task (List.mem_of_getElem? htask)).1
  rw [holders, countP_eraseIdx htask, if_pos rfl] at honce
  exact ⟨ne_of_countP_eq_zero (by omega), ne_of_countP_eq_zero (f := Prod.fst) (by omega)⟩

theorem task (i : ℕ) (out : Outcome) :
    ∃ s', s.next (.task i out) = .ok s' ∧ s'.HandedOver := by
  cases htask : s.tasks[i]? with
  | none =>
    refine ⟨s, ?_, h⟩
    simp [next, runTask, rearms, htask, arm, bind, Except.bind]
  | some task =>
    have hlive := (h.served.fresh task (List.mem_of_getElem? htask)).1
    obtain ⟨channel, hchannel, hrun⟩ := h.runTask_of_getElem htask out
    have hcount := countP_eraseIdx htask
    have hconnfd := h.registered.connfd task.slot hlive
    have hrearms : s.rearms i out =
        if Closes (s.conns task.slot) channel.type out task.kind then none else some task.slot := by
      have hreg := (h.registered.poller task.slot).mp hlive
      simp [rearms, htask, hchannel, hconnfd, updates_iff, hreg, ite_not]
    obtain ⟨halone, hevents⟩ := h.task_alone htask
    obtain ⟨server, hserver, hserved⟩ :
        ∃ server, s.toTcpServer.runTask i out = .ok server ∧ server.Served :=
      h.served.runTask fun task' ht _ _ _ other hother ↦ by
        rw [htask] at ht
        cases ht
        exact halone other hother
    rw [hrun] at hserver
    cases hserver
    refine ⟨{ s with
      tasks := s.tasks.eraseIdx i
      toConnections := s.toConnections.perform task.slot channel.type out task.kind
      armed := arm s.armed (s.rearms i out) }, ?_, hserved, h.registered.perform,
      fun e he ↦ ?_, fun fd hlive' ↦ ?_⟩
    · simp only [next, hrun]
      rfl
    · obtain ⟨hlive', hevent⟩ := h.pending e he
      exact ⟨live_perform.mpr ⟨hlive', fun _ ↦ hevents e he⟩, hevent⟩
    · -- the task passes its connection on to the kernel, unless it closes it
      obtain ⟨hlive', hkeeps⟩ := live_perform.mp hlive'
      have honce' := h.once fd hlive'
      rw [holders, hcount] at honce'
      change (s.tasks.eraseIdx i).countP (·.slot = fd) + s.events.countP (·.1 = fd) +
        (arm s.armed (s.rearms i out) fd).toNat = 1
      rw [hrearms]
      by_cases hfd : fd = task.slot
      · subst hfd
        rw [if_neg fun hcloses ↦ hkeeps hcloses rfl, arm, Function.update_self, Bool.toNat_true]
        rw [if_pos rfl] at honce'
        omega
      · rw [if_neg (Ne.symm hfd)] at honce'
        split_ifs
        · exact honce'
        · rw [arm, Function.update_of_ne hfd]
          exact honce'

theorem next {step : Step} (hadmits : s.Admits step) (hpunctual : s.Punctual step) :
    ∃ s', s.next step = .ok s' ∧ s'.HandedOver := by
  cases step with
  | wait events => exact ⟨_, rfl, h.wait hadmits⟩
  | handle clock => exact h.handle clock
  | accept clock connfd ret => exact h.accept clock ret hadmits
  | tick clock => exact h.tick hpunctual
  | task i out => exact h.task i out

end HandedOver

theorem handedOver_init (idleTimeout : Int32) (enableHttps : Bool) :
    (init idleTimeout enableHttps).HandedOver where
  served := ⟨TimerHeap.wellFormed_init, fun _ ht ↦ (nomatch ht), fun _ ht ↦ (nomatch ht)⟩
  registered := ⟨fun _ hlive ↦ absurd (.inr rfl) hlive,
    fun _ ↦ iff_of_false (not_not.mpr (.inr rfl)) (not_not.mpr rfl)⟩
  pending _ he := nomatch he
  once _ hlive := absurd (.inr rfl) hlive

theorem HandedOver.nodup {s : EventLoop} (h : s.HandedOver) : (s.tasks.map Task.slot).Nodup := by
  refine List.nodup_iff_count_le_one.mpr fun fd ↦ ?_
  have hcount : (s.tasks.map Task.slot).count fd = s.tasks.countP (·.slot = fd) := by
    rw [List.count, List.countP_map]
    exact List.countP_congr fun task _ ↦ by simp
  rw [hcount]
  by_cases hlive : Live s.toConnections fd
  · have honce := h.once fd hlive
    rw [holders] at honce
    omega
  · rw [countP_eq_zero_of_ne (h.unheld hlive).1]
    exact Nat.zero_le 1

instance (s : EventLoop) : DecidablePred s.Admits
  | .wait _ => inferInstanceAs (Decidable (_ ∧ _ ∧ ∀ _ ∈ _, _ ∧ _ ∧ _))
  | .accept _ _ _ => inferInstanceAs (Decidable (¬ _))
  | .handle _ | .tick _ | .task _ _ => inferInstanceAs (Decidable True)

instance (s : EventLoop) : DecidablePred s.Punctual
  | .tick _ => inferInstanceAs (Decidable (∀ _ ∈ s.aliveTimer.c, _ → (∀ _ ∈ _, _) ∧ ∀ _ ∈ _, _))
  | .wait _ | .handle _ | .accept _ _ _ | .task _ _ => inferInstanceAs (Decidable True)

/-- In every run in which the idle timer spares the connections that are being served, no
two tasks of one connection are queued at a time, and no connection is left that nobody
would come back to. -/
theorem run_handedOver (idleTimeout : Int32) (enableHttps : Bool) (steps : List Step)
    (hrun : Lib.Run.Throughout next (fun s step ↦ s.Admits step ∧ s.Punctual step)
      (init idleTimeout enableHttps) steps) :
    ∃ s, steps.foldlM next (init idleTimeout enableHttps) = .ok s ∧
      (∀ fd, Live s.toConnections fd → s.holders fd = 1) ∧ (s.tasks.map Task.slot).Nodup ∧
      (∀ task ∈ s.tasks, s.toConnections.Fresh task) ∧
      ∀ fd, Live s.toConnections fd ↔ s.poller fd ≠ none := by
  obtain ⟨s, hs, h⟩ := hrun.invariant (I := HandedOver)
    (fun _ _ h hstep ↦ h.next hstep.1 hstep.2) (handedOver_init idleTimeout enableHttps)
  exact ⟨s, hs, h.once, h.nodup, h.served.fresh, h.registered.poller⟩

theorem run_handedOver_pair :
    ∃ s, List.foldlM next (init 2000 false) [.accept 0 5 0, .wait [(5, ⟨false, true, false⟩)],
        .handle 1000, .accept 1000 6 0, .task 0 ⟨-1, 11, false, true, true, true⟩,
        .wait [(6, ⟨true, true, false⟩), (5, ⟨false, true, true⟩)], .handle 2000, .handle 2000,
        .tick 3000] = .ok s ∧
      (∀ fd, Live s.toConnections fd → s.holders fd = 1) ∧ (s.tasks.map Task.slot).Nodup ∧
      (∀ task ∈ s.tasks, s.toConnections.Fresh task) ∧
      ∀ fd, Live s.toConnections fd ↔ s.poller fd ≠ none :=
  run_handedOver 2000 false _ (by decide +kernel)

end EventLoop

end Socnet.Net
