import Socnet.Net.TimerQueue

namespace Socnet.Net

inductive ChannelType
  | raw
  | ssl
  deriving DecidableEq

/-- A channel that has been allocated, `id` being the number of those before it. -/
structure Channel where
  id : ℕ
  type : ChannelType
  deriving DecidableEq

structure TcpConnection where
  connfd : ℤ
  disconnected : Bool
  keepAlive : Bool
  channel : Option Channel
  deriving DecidableEq

namespace TcpConnection

/-- The constructor, which leaves `connfd_` unset. -/
def init : TcpConnection := ⟨0, false, false, none⟩

def initializeConnection (connfd : ℤ) : TcpConnection := ⟨connfd, false, false, none⟩

/-- The test with which each handler starts. -/
def Closed (conn : TcpConnection) : Prop := conn.disconnected = true ∨ conn.channel = none

instance : DecidablePred Closed := fun _ ↦ inferInstanceAs (Decidable (_ ∨ _))

def EAGAIN : ℤ := 11
def SSL_ERROR_WANT_READ : ℤ := 2

def readAgain (type : ChannelType) (n err : ℤ) : ℤ × Bool :=
  match type with
  | .raw => (n, err = EAGAIN)
  | .ssl => (n, err = SSL_ERROR_WANT_READ)

/-- `writeAgain`, from what `write` returns. The error takes the place of the flag
that is computed from it. -/
def writeAgain (n err : ℤ) (cflag : Bool) : ℤ × ℤ × Bool := (n, err, cflag)

end TcpConnection

inductive Interest
  | epollin
  | epollout
  deriving DecidableEq

/-- What the callbacks of the timers act on: the slots of `conns_`, and the
events for which the kernel watches an fd. -/
structure Connections where
  conns : ℤ → TcpConnection
  poller : ℤ → Option Interest

namespace Connections

def addEvent (c : Connections) (fd : ℤ) (event : Interest) : Connections :=
  match c.poller fd with
  | none => { c with poller := Function.update c.poller fd (some event) }
  | some _ => c

def updateEvent (c : Connections) (fd : ℤ) (event : Interest) : Connections :=
  match c.poller fd with
  | none => c
  | some _ => { c with poller := Function.update c.poller fd (some event) }

def removeEvent (c : Connections) (fd : ℤ) : Connections :=
  { c with poller := Function.update c.poller fd none }

def setConn (c : Connections) (slot : ℤ) (conn : TcpConnection) : Connections :=
  { c with conns := Function.update c.conns slot conn }

def handleConnectionClose (slot : ℤ) (c : Connections) : Connections :=
  let conn := c.conns slot
  if conn.Closed then c
  else (c.setConn slot { conn with disconnected := true, channel := none }).removeEvent conn.connfd

/-- What the calls of a task answer: `n`, `err` and `cflag` come from the channel,
`readable` tells whether the receive buffer holds bytes, and `message` and
`keepAlive` are the answer of `msg_cb_` and the flag it leaves. -/
structure Outcome where
  n : ℤ
  err : ℤ
  cflag : Bool
  readable : Bool
  message : Bool
  keepAlive : Bool

def onWrite (slot : ℤ) (out : Outcome) (c : Connections) : Connections :=
  let conn := c.conns slot
  let (n, again, cflag) := TcpConnection.writeAgain out.n out.err out.cflag
  if n = 0 then
    if conn.keepAlive then c.updateEvent conn.connfd (if cflag then .epollin else .epollout)
    else c.handleConnectionClose slot
  else if n < 0 then
    if again ≠ 0 then c.updateEvent conn.connfd .epollout
    else c.handleConnectionClose slot
  else c.handleConnectionClose slot

def onRead (slot : ℤ) (type : ChannelType) (out : Outcome) (c : Connections) : Connections :=
  let conn := c.conns slot
  let (n, again) := TcpConnection.readAgain type out.n out.err
  if n ≤ 0 ∧ again = false then c.handleConnectionClose slot
  else if out.readable = false then c.updateEvent conn.connfd .epollin
  else
    let c := c.setConn slot { conn with keepAlive := out.keepAlive }
    c.updateEvent conn.connfd (if out.message then .epollout else .epollin)

end Connections

inductive TaskKind
  | onRead
  | onWrite
  deriving DecidableEq

/-- A task on the thread pool: `slot` is the connection it points to, and `channel`
is the channel of the connection when the task was queued. -/
structure Task where
  kind : TaskKind
  slot : ℤ
  channel : Option Channel
  deriving DecidableEq

structure TcpServer extends Connections where
  aliveTimer : TimerHeap (Option ℤ)
  tasks : List Task
  idleTimeout : Int32
  enableHttps : Bool
  allocated : ℕ

namespace TcpServer

open Connections

def init (idleTimeout : Int32) (enableHttps : Bool) : TcpServer :=
  ⟨⟨fun _ ↦ .init, fun _ ↦ none⟩, .init, [], idleTimeout, enableHttps, 0⟩

def handleConnected (s : TcpServer) (clock : TimeStamp.Clock) (connfd : ℤ) (type : ChannelType) :
    Except Fault TcpServer := do
  let conn := TcpConnection.initializeConnection connfd
  let c := s.toConnections.setConn connfd { conn with channel := some ⟨s.allocated, type⟩ }
  let aliveTimer ← s.aliveTimer.push
    ⟨connfd, TimeStamp.nowMsecond clock s.idleTimeout, some connfd⟩
  .ok { s with
    toConnections := c.addEvent connfd .epollin, aliveTimer, allocated := s.allocated + 1 }

/-- `ret` is the answer of `ssl_->accept`. -/
def handleServerAccept (s : TcpServer) (clock : TimeStamp.Clock) (connfd ret : ℤ) :
    Except Fault TcpServer :=
  if connfd ≤ 0 then .ok s
  else if s.enableHttps then
    if ret < 1 then .ok { s with allocated := s.allocated + 1 }
    else s.handleConnected clock connfd .ssl
  else s.handleConnected clock connfd .raw

def handleConnectionEvent (kind : TaskKind) (s : TcpServer) (clock : TimeStamp.Clock) (slot : ℤ) :
    Except Fault TcpServer :=
  let conn := s.conns slot
  if conn.Closed then .ok s
  else do
    let aliveTimer ← s.aliveTimer.adjust
      ⟨conn.connfd, TimeStamp.nowMsecond clock s.idleTimeout, none⟩
    .ok { s with aliveTimer, tasks := s.tasks ++ [⟨kind, slot, conn.channel⟩] }

def handleConnectionRead := handleConnectionEvent .onRead

def handleConnectionWrite := handleConnectionEvent .onWrite

/-- The callback of a timer. An empty `std::function` throws. -/
def expire : Option ℤ → Connections → Except Fault Connections
  | none, _ => .error .exception
  | some slot, c => .ok (c.handleConnectionClose slot)

def handleTimeout (s : TcpServer) (clock : TimeStamp.Clock) : Except Fault TcpServer := do
  let (aliveTimer, c) ← s.aliveTimer.handleTimeout expire (TimeStamp.now clock) s.toConnections
  .ok { s with toConnections := c, aliveTimer }

inductive Event
  | accept (connfd ret : ℤ)
  | read (fd : ℤ)
  | write (fd : ℤ)
  | close (fd : ℤ)
  | tick
  deriving DecidableEq

def handle (s : TcpServer) (clock : TimeStamp.Clock) : Event → Except Fault TcpServer
  | .accept connfd ret => s.handleServerAccept clock connfd ret
  | .read fd => s.handleConnectionRead clock fd
  | .write fd => s.handleConnectionWrite clock fd
  | .close fd => .ok { s with toConnections := s.toConnections.handleConnectionClose fd }
  | .tick => s.handleTimeout clock

/-- A worker runs the task at place `i`, if there is one. Without a channel the
task goes through a null pointer. -/
def runTask (s : TcpServer) (i : ℕ) (out : Outcome) : Except Fault TcpServer :=
  match s.tasks[i]? with
  | none => .ok s
  | some task =>
    match (s.conns task.slot).channel with
    | none => .error .nullChannel
    | some channel =>
      let s := { s with tasks := s.tasks.eraseIdx i }
      match task.kind with
      | .onRead => .ok { s with toConnections := s.toConnections.onRead task.slot channel.type out }
      | .onWrite => .ok { s with toConnections := s.toConnections.onWrite task.slot out }

def run (s : TcpServer) (events : List (TimeStamp.Clock × Event)) : Except Fault TcpServer :=
  events.foldlM (fun s e ↦ s.handle e.1 e.2) s

end TcpServer

namespace Connections

variable (c : Connections) {slot fd : ℤ}

@[simp]
theorem conns_addEvent (e : Interest) : (c.addEvent fd e).conns = c.conns := by
  unfold addEvent
  split
  · rfl
  · rfl

@[simp]
theorem conns_updateEvent (e : Interest) : (c.updateEvent fd e).conns = c.conns := by
  unfold updateEvent
  split
  · rfl
  · rfl

theorem conns_handleConnectionClose_of_ne (h : fd ≠ slot) :
    (c.handleConnectionClose slot).conns fd = c.conns fd := by
  dsimp only [handleConnectionClose]
  split_ifs
  · rfl
  · exact Function.update_of_ne h _ _

theorem closed_handleConnectionClose : ((c.handleConnectionClose slot).conns slot).Closed := by
  dsimp only [handleConnectionClose]
  split_ifs with h
  · exact h
  · change (Function.update c.conns slot _ slot).Closed
    rw [Function.update_self]
    exact .inl rfl

def closeAll (l : List (Timer (Option ℤ))) : Connections :=
  l.foldl (fun c t ↦ c.handleConnectionClose t.fd) c

theorem conns_closeAll_of_notMem {l : List (Timer (Option ℤ))} (h : fd ∉ l.map Timer.fd) :
    (c.closeAll l).conns fd = c.conns fd := by
  induction l generalizing c with
  | nil => rfl
  | cons t l ih =>
    rw [List.map_cons, List.mem_cons, not_or] at h
    exact (ih (c.handleConnectionClose t.fd) h.2).trans (c.conns_handleConnectionClose_of_ne h.1)

theorem closed_closeAll {l : List (Timer (Option ℤ))} (h : fd ∈ l.map Timer.fd) :
    ((c.closeAll l).conns fd).Closed := by
  induction l generalizing c with
  | nil => cases h
  | cons t l ih =>
    by_cases hl : fd ∈ l.map Timer.fd
    · exact ih (c.handleConnectionClose t.fd) hl
    · have hfd : fd = t.fd := by simpa [hl] using h
      have hrest := (c.handleConnectionClose t.fd).conns_closeAll_of_notMem hl
      change (((c.handleConnectionClose t.fd).closeAll l).conns fd).Closed
      rw [hrest, hfd]
      exact c.closed_handleConnectionClose

end Connections

namespace TcpServer

open Connections

variable {s : TcpServer} {clock : TimeStamp.Clock} {h : TimerHeap (Option ℤ)}

theorem handleConnected_eq {connfd : ℤ} {type : ChannelType}
    (hpush : s.aliveTimer.push
      ⟨connfd, TimeStamp.nowMsecond clock s.idleTimeout, some connfd⟩ = .ok h) :
    s.handleConnected clock connfd type = .ok { s with
      toConnections := (s.toConnections.setConn connfd
        ⟨connfd, false, false, some ⟨s.allocated, type⟩⟩).addEvent connfd .epollin
      aliveTimer := h
      allocated := s.allocated + 1 } := by
  rw [handleConnected, hpush]
  rfl

theorem handleConnectionEvent_eq {kind : TaskKind} {slot : ℤ} (hlive : ¬ (s.conns slot).Closed)
    (hadjust : s.aliveTimer.adjust
      ⟨(s.conns slot).connfd, TimeStamp.nowMsecond clock s.idleTimeout, none⟩ = .ok h) :
    s.handleConnectionEvent kind clock slot = .ok { s with
      aliveTimer := h
      tasks := s.tasks ++ [⟨kind, slot, (s.conns slot).channel⟩] } := by
  dsimp only [handleConnectionEvent]
  rw [if_neg hlive, hadjust]
  rfl

/-- When each timer closes the slot of its fd, a tick closes the slots of the
timers it takes off. -/
theorem handleTimeout_eq (hw : s.aliveTimer.WellFormed)
    (hcallback : ∀ t ∈ s.aliveTimer.c, t.callback = some t.fd) (clock : TimeStamp.Clock) :
    ∃ (l : List (Timer (Option ℤ))) (h : TimerHeap (Option ℤ)), h.WellFormed ∧
      (l ++ h.c).Perm s.aliveTimer.c ∧ (∀ t ∈ l, t.timestamp ≤ TimeStamp.now clock) ∧
      (Lib.Heap.Ordered s.aliveTimer.n (TimerHeap.key s.aliveTimer.c) →
        Lib.Heap.Ordered h.n (TimerHeap.key h.c) ∧
          ∀ t ∈ h.c, TimeStamp.now clock < t.timestamp) ∧
      s.handleTimeout clock = .ok { s with
        toConnections := s.toConnections.closeAll l, aliveTimer := h } := by
  obtain ⟨l, h, hw', hperm, hdue, hord, heq⟩ :=
    hw.handleTimeout_ok (σ := Connections) (TimeStamp.now clock)
  have hl : ∀ t ∈ l, t.callback = some t.fd := fun t ht ↦
    hcallback t (hperm.mem_iff.mp (List.mem_append_left _ ht))
  have hfold (l : List (Timer (Option ℤ))) (hl : ∀ t ∈ l, t.callback = some t.fd)
      (c : Connections) :
      l.foldlM (fun c t ↦ expire t.callback c) c = .ok (c.closeAll l) := by
    induction l generalizing c with
    | nil => rfl
    | cons t l ih =>
      rw [List.foldlM_cons, hl t List.mem_cons_self]
      exact ih (fun u hu ↦ hl u (.tail t hu)) (c.handleConnectionClose t.fd)
  refine ⟨l, h, hw', hperm, hdue, fun ho ↦ ⟨(hord ho).1, (hord ho).2.1⟩, ?_⟩
  rw [handleTimeout, heq, hfold l hl]
  rfl

end TcpServer

end Socnet.Net

namespace Socnet.Http.HttpServer

/-- The timeout that the server hands on to `TcpServer::setIdleTime`. -/
def setIdleTime (millsecond : Int32) : Int32 := if millsecond ≤ 0 then 2000 else millsecond

theorem setIdleTime_pos (millsecond : Int32) : 0 < (setIdleTime millsecond).toInt := by
  unfold setIdleTime
  split_ifs with h
  · decide
  · rw [Int32.not_le] at h
    exact Int32.lt_iff_toInt_lt.mp h

end Socnet.Http.HttpServer
