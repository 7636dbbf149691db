import Socnet.Http.Connection
import Socnet.Net.Rearming

namespace Socnet.Http

open Net TcpServer Connections

namespace Connection

variable {store : HttpPassStore}

/-- One more read event, for a connection that is still open. -/
theorem run_append {c c' : Connection} {events : List (List Bytes)} {as : List Answered}
    (h : c.run store events = .ok (c', as)) (hopen : c'.disconnected = false)
    (reads : List Bytes) : c.run store (events ++ [reads]) =
      (c'.onRead store reads).map fun x ↦ (x.1, as ++ x.2.toList) := by
  induction events generalizing c as with
  | nil =>
    cases h
    rw [List.nil_append, run, if_neg (by rw [hopen]; exact Bool.false_ne_true)]
    cases c'.onRead store reads with
    | error e => rfl
    | ok x => simp [run, bind, Except.bind, Except.map]
  | cons first events ih =>
    rw [run] at h
    rw [List.cons_append, run]
    split_ifs at h ⊢ with hclosed
    · cases h
      exact absurd hclosed (by rw [hopen]; exact Bool.false_ne_true)
    · obtain ⟨⟨c₁, answered⟩, hfirst, h⟩ := bind_eq_ok.mp h
      obtain ⟨⟨c₂, rest⟩, hrest, h⟩ := bind_eq_ok.mp h
      cases h
      simp only [hfirst, ih hrest, bind, Except.bind]
      cases c'.onRead store reads with
      | error e => rfl
      | ok x => simp [Except.map]

/-- `HttpResponse::send` hands on the flag of the request. -/
def keepAliveAfter (keepAlive : Bool) : Option Answered → Bool
  | none => keepAlive
  | some (_, req) => req.keepalive

theorem onMessage_ok {c c' : Connection} {answered : Option Answered}
    (h : c.onMessage store = .ok (c', answered)) :
    c'.disconnected = c.disconnected ∧
      c'.keepAlive = keepAliveAfter c.keepAlive answered := by
  obtain ⟨⟨code, req⟩, -, h⟩ := bind_eq_ok.mp h
  dsimp only at h
  split_ifs at h with hcode
  · cases h
    exact ⟨rfl, rfl⟩
  · cases h
    exact ⟨rfl, rfl⟩

end Connection

/-- A task of `onRead` that has left its connection open: the channel it read from, the
bytes of each call of `read`, and the request that was answered. -/
structure Reading where
  channel : ℕ
  reads : List Bytes
  answered : Option Connection.Answered

/-- What a task is given by the kernel: the bytes of the calls of `read` that succeed, and
the result of the call that ends the loop of `read` or of `write`, with its error. The loop
of `write` ends with zero when all has been sent. -/
structure Calls where
  reads : List Bytes
  n : ℤ
  err : ℤ
  n_nonpos : n ≤ 0

namespace Calls

theorem blocked_nonpos : (-1 : ℤ) ≤ 0 := by decide

/-- All that has come has been read. -/
def blocked (reads : List Bytes) : Calls := ⟨reads, -1, TcpConnection.EAGAIN, blocked_nonpos⟩

theorem sent_nonpos : (0 : ℤ) ≤ 0 := le_rfl

def sent : Calls := ⟨[], 0, 0, sent_nonpos⟩

end Calls

/-- The event loop with what its connections hold: the receive buffer of each channel, the
pointer of each slot to its request, and the requests in the order of their allocation,
less those that have been deleted. -/
structure ServerLoop extends EventLoop where
  recver : ℕ → Buffer
  context : ℤ → Option ℕ
  requests : List (Option HttpRequest)
  log : List Reading

namespace ServerLoop

def init (idleTimeout : Int32) (enableHttps : Bool) : ServerLoop :=
  ⟨EventLoop.init idleTimeout enableHttps, fun _ ↦ Buffer.init, fun _ ↦ none, [], []⟩

variable (store : HttpPassStore) (s : ServerLoop)

/-- The request that a pointer leads to, if there still is one. -/
def request (p : ℕ) : Option HttpRequest := s.requests[p]?.join

def setRecver (id : ℕ) (recver : Buffer) : ServerLoop :=
  { s with recver := Function.update s.recver id recver }

/-- The pointer of a slot, with a new request if it had none. -/
def getContext (slot : ℤ) (id : ℕ) : ServerLoop × ℕ :=
  match s.context slot with
  | some p => (s, p)
  | none => ({ s with
      context := Function.update s.context slot (some s.requests.length)
      requests := s.requests ++ [some (.init (s.recver id))] }, s.requests.length)

/-- A task is one step here, so that its connection is not closed in the middle of it. -/
def onMessage (slot : ℤ) (id : ℕ) : Except Fault (ServerLoop × Option Connection.Answered) :=
  let (s, p) := s.getContext slot id
  match s.request p with
  | none => .error .badRead
  | some req => do
    let (code, req) ← { req with recver := s.recver id }.parseRequest store
    let s := s.setRecver id req.recver
    if code = .badRequest ∨ code = .requestContentDone then
      .ok ({ s with
        context := Function.update s.context slot none
        requests := s.requests.set p none }, some (code, req))
    else .ok ({ s with requests := s.requests.set p (some req) }, none)

/-- What a task of `onRead` does up to its call of `handleConnectionClose` or
`updateEvent`. -/
def onRead (slot : ℤ) (channel : Channel) (calls : Calls) :
    Except Fault (ServerLoop × Outcome) :=
  let s := s.setRecver channel.id (calls.reads.foldl Buffer.append (s.recver channel.id))
  let keepAlive := (s.conns slot).keepAlive
  let out : Outcome := ⟨calls.n, calls.err, false, false, false, keepAlive⟩
  if Closes (s.conns slot) channel.type out .onRead then .ok (s, out)
  else if (s.recver channel.id).readable = 0 then
    .ok ({ s with log := s.log ++ [⟨channel.id, calls.reads, none⟩] }, out)
  else do
    let (s, answered) ← s.onMessage store slot channel.id
    let keepAlive := Connection.keepAliveAfter keepAlive answered
    .ok ({ s with log := s.log ++ [⟨channel.id, calls.reads, answered⟩] },
      { out with readable := true, message := answered.isSome, keepAlive })

/-- The same for a task of `onWrite`. The channel is reset when all has been sent. -/
def onWrite (slot : ℤ) (channel : Channel) (calls : Calls) : ServerLoop × Outcome :=
  (if calls.n = 0 then s.setRecver channel.id (s.recver channel.id).reset else s,
    ⟨calls.n, calls.err, calls.n = 0, false, false, (s.conns slot).keepAlive⟩)

def perform (task : Task) (channel : Channel) (calls : Calls) :
    Except Fault (ServerLoop × Outcome) :=
  match task.kind with
  | .onRead => s.onRead store task.slot channel calls
  | .onWrite => .ok (s.onWrite task.slot channel calls)

inductive Step
  | wait (events : List (ℤ × Revents))
  | handle (clock : TimeStamp.Clock)
  | accept (clock : TimeStamp.Clock) (connfd ret : ℤ)
  | tick (clock : TimeStamp.Clock)
  | task (i : ℕ) (calls : Calls)

def lift (step : EventLoop.Step) : Except Fault ServerLoop := do
  let loop ← s.toEventLoop.next step
  .ok { s with toEventLoop := loop }

/-- `initialize` leaves the slot without a request, and the new channel has a buffer of
its own. -/
def connected (connfd ret : ℤ) (s' : ServerLoop) : ServerLoop :=
  if Activity.Accepted s.enableHttps connfd ret then
    { s' with
      context := Function.update s'.context connfd none
      recver := Function.update s'.recver s.allocated Buffer.init }
  else s'

def next (s : ServerLoop) : Step → Except Fault ServerLoop
  | .wait events => s.lift (.wait events)
  | .handle clock => s.lift (.handle clock)
  | .accept clock connfd ret => do
    let s' ← s.lift (.accept clock connfd ret)
    .ok (s.connected connfd ret s')
  | .tick clock => s.lift (.tick clock)
  | .task i calls =>
    match s.tasks[i]? with
    | none => .ok s
    | some task =>
      match (s.conns task.slot).channel with
      | none => .error .nullChannel
      | some channel => do
        let (s, out) ← s.perform store task channel calls
        s.lift (.task i out)

/-- What the kernel does, and that the idle timer spares the connections being served. -/
def Admits (s : ServerLoop) : Step → Prop
  | .wait events =>
    s.toEventLoop.Admits (.wait events) ∧ ∀ e ∈ events, e.2.Asked (s.poller e.1)
  | .accept _ connfd _ => ¬ Live s.toConnections connfd
  | .tick clock => s.toEventLoop.Punctual (.tick clock)
  | .handle _ | .task _ _ => True

instance (s : ServerLoop) : DecidablePred s.Admits
  | .wait _ => inferInstanceAs (Decidable (_ ∧ ∀ _ ∈ _, _))
  | .accept _ _ _ => inferInstanceAs (Decidable (¬ _))
  | .tick clock => inferInstanceAs (Decidable (s.toEventLoop.Punctual (.tick clock)))
  | .handle _ | .task _ _ => inferInstanceAs (Decidable True)

def readings (k : ℕ) : List Reading := s.log.filter (·.channel = k)

/-- The read events of a channel, and the requests that were answered on it. -/
def reads (k : ℕ) : List (List Bytes) := (s.readings k).map Reading.reads

def answers (k : ℕ) : List Connection.Answered := (s.readings k).flatMap (·.answered.toList)

def Serves (fd : ℤ) (channel : Channel) : Prop :=
  Live s.toConnections fd ∧ (s.conns fd).channel = some channel

def connection (fd : ℤ) (id : ℕ) : Connection :=
  ⟨s.recver id, (s.context fd).bind s.request, (s.conns fd).keepAlive, false⟩

/-- A connection as `Connection` has it, where an answer is sent at once. -/
def seen (fd : ℤ) (id : ℕ) : Connection :=
  if s.poller fd = some .epollout then (s.connection fd id).onWrite else s.connection fd id

/-- The allocated requests are those of `own`, and `object` is where each of them is. -/
structure Owned (own : ℕ → Option HttpRequest) (object : ℕ → Option ℕ) : Prop where
  inj : ∀ k k' p, object k = some p → object k' = some p → k = k'
  owned : ∀ k, (object k).map s.request = (own k).map some
  held : ∀ p req, s.request p = some req → ∃ k, object k = some p

/-- Every channel has run as though it were alone. -/
structure Apart (own : ℕ → Connection) (object : ℕ → Option ℕ) : Prop where
  handedOver : s.HandedOver
  asked : s.Asked
  id_lt : ∀ fd channel, s.Serves fd channel → channel.id < s.allocated
  id_inj : ∀ fd fd' channel channel', s.Serves fd channel → s.Serves fd' channel' →
    channel.id = channel'.id → fd = fd'
  log_lt : ∀ e ∈ s.log, e.channel < s.allocated
  run : ∀ k, Connection.run store .accepted (s.reads k) = .ok (own k, s.answers k)
  serves : ∀ fd channel, s.Serves fd channel → own channel.id = s.seen fd channel.id
  context : ∀ fd channel, s.Serves fd channel → s.context fd = object channel.id
  requests : s.Owned (fun k ↦ (own k).context) object

variable {store : HttpPassStore} {s s' : ServerLoop} {own : ℕ → Connection} {object : ℕ → Option ℕ}

theorem seen_congr {fd : ℤ} {id : ℕ} (hpoller : s'.poller fd = s.poller fd)
    (hconns : s'.conns fd = s.conns fd) (hrecver : s'.recver id = s.recver id)
    (hrequest : (s'.context fd).bind s'.request = (s.context fd).bind s.request) :
    s'.seen fd id = s.seen fd id := by
  simp only [seen, connection, hpoller, hconns, hrecver, hrequest]

theorem serves_of_conns {fd : ℤ} {channel : Channel} (hconns : s'.conns fd = s.conns fd) :
    s'.Serves fd channel ↔ s.Serves fd channel := by
  rw [Serves, Serves, Live, Live, hconns]

theorem serves_of_keeps (hkeeps : EventLoop.Keeps s.toEventLoop s'.toEventLoop) {fd : ℤ}
    {channel : Channel} (h : s'.Serves fd channel) : s.Serves fd channel :=
  (serves_of_conns (hkeeps.conns fd h.1)).mp h

theorem request_congr (h : s'.requests = s.requests) : s'.request = s.request :=
  funext fun p ↦ by rw [request, request, h]

theorem onWrite_fst {slot : ℤ} {channel : Channel} {calls : Calls} :
    (s.onWrite slot channel calls).1 = s.setRecver channel.id
      (if calls.n = 0 then (s.recver channel.id).reset else s.recver channel.id) := by
  rw [onWrite]
  dsimp only
  split_ifs
  · rfl
  · rw [setRecver, Function.update_eq_self]

theorem bind_of_map {α β : Type} {o : Option α} {f : α → Option β} {x : Option β}
    (h : o.map f = x.map some) : o.bind f = x := by
  cases o with
  | none =>
    cases x with
    | none => rfl
    | some y => cases h
  | some a =>
    cases x with
    | none => cases h
    | some y => exact Option.some.inj h

theorem request_set {s : ServerLoop} {p : ℕ} {req : HttpRequest} (hp : s.request p = some req)
    (x : Option HttpRequest) (p' : ℕ) :
    (s.requests.set p x)[p']?.join = if p' = p then x else s.request p' := by
  have hlt : p < s.requests.length := by
    by_contra hge
    rw [request, List.getElem?_eq_none (not_lt.mp hge)] at hp
    cases hp
  rw [List.getElem?_set]
  by_cases h : p = p'
  · rw [if_pos h, if_pos (h ▸ hlt), if_pos h.symm]
    rfl
  · rw [if_neg h, if_neg (Ne.symm h), request]

/-- What `onMessage` does with the request of a slot, in the words of `Connection`. -/
structure Handled (s : ServerLoop) (slot : ℤ) (id : ℕ) (c : Connection) (s' : ServerLoop) :
    Prop where
  toEventLoop : s'.toEventLoop = s.toEventLoop
  log : s'.log = s.log
  recver : s'.recver = Function.update s.recver id c.recver
  context : ∀ fd, fd ≠ slot → s'.context fd = s.context fd
  request : (s'.context slot).map s'.request = c.context.map some
  fresh : ∀ p, s'.context slot = some p → s.context slot = some p ∨ s.request p = none
  others : ∀ p, s.context slot ≠ some p → s'.context slot ≠ some p → s'.request p = s.request p
  freed : ∀ p req, s'.request p = some req → s.context slot = some p → s'.context slot = some p

theorem getContext_spec {slot : ℤ} (id : ℕ)
    (hvalid : ∀ p, s.context slot = some p → ∃ req, s.request p = some req) :
    ∃ s₁ p req, s.getContext slot id = (s₁, p) ∧ s₁.request p = some req ∧
      { req with recver := s.recver id } = (s.connection slot id).request ∧
      s₁.toEventLoop = s.toEventLoop ∧ s₁.log = s.log ∧ s₁.recver = s.recver ∧
      (∀ fd, fd ≠ slot → s₁.context fd = s.context fd) ∧ s₁.context slot = some p ∧
      (s.context slot = some p ∨ s.context slot = none ∧ s.request p = none) ∧
      ∀ p', p' ≠ p → s₁.request p' = s.request p' := by
  cases hp : s.context slot with
  | some p =>
    obtain ⟨req, hreq⟩ := hvalid p hp
    refine ⟨s, p, req, ?_, hreq, ?_, rfl, rfl, rfl, fun _ _ ↦ rfl, hp, .inl rfl, fun _ _ ↦ rfl⟩
    · rw [getContext, hp]
    · simp [connection, Connection.request, hp, hreq]
  | none =>
    refine ⟨{ s with
      context := Function.update s.context slot (some s.requests.length)
      requests := s.requests ++ [some (.init (s.recver id))] }, s.requests.length,
      .init (s.recver id), ?_, ?_, ?_, rfl, rfl, rfl, fun fd hfd ↦ Function.update_of_ne hfd _ _,
      Function.update_self _ _ _, .inr ⟨rfl, ?_⟩, fun p' hp' ↦ ?_⟩
    · rw [getContext, hp]
    · simp [request]
    · simp [connection, Connection.request, hp, HttpRequest.init]
    · simp [request]
    · simp only [request]
      rw [List.getElem?_append]
      split_ifs with hlt
      · rfl
      · rw [List.getElem?_eq_none (not_lt.mp hlt), List.getElem?_eq_none]
        simp only [List.length_singleton]
        omega

/-- `onMessage` goes through no pointer to a request that is gone, and does with its own
request what `Connection.onMessage` does. -/
theorem onMessage_eq (store : HttpPassStore) {slot : ℤ} (id : ℕ)
    (hvalid : ∀ p, s.context slot = some p → ∃ req, s.request p = some req) :
    (∃ e, (s.connection slot id).onMessage store = .error e ∧
      s.onMessage store slot id = .error e) ∨
    ∃ c answered s', (s.connection slot id).onMessage store = .ok (c, answered) ∧
      s.onMessage store slot id = .ok (s', answered) ∧ s.Handled slot id c s' := by
  obtain ⟨s₁, p, req, hget, hreq, hsame, hloop, hlog, hrecver, hctx, hp, hbefore, hrest⟩ :=
    getContext_spec id hvalid
  rw [onMessage, hget]
  simp only [hreq, hrecver, hsame, Connection.onMessage]
  cases hparse : (s.connection slot id).request.parseRequest store with
  | error e => exact .inl ⟨e, rfl, rfl⟩
  | ok x =>
    obtain ⟨code, req'⟩ := x
    refine .inr ?_
    have hnew (p' : ℕ) : s.context slot ≠ some p' → p' = p → s.request p' = none := fun hne heq ↦ by
      rcases hbefore with h | ⟨-, h⟩
      · exact absurd (heq ▸ h) hne
      · rw [heq, h]
    have hold (p' : ℕ) (h : s.context slot = some p') : p' = p := by
      rcases hbefore with h' | ⟨h', -⟩
      · rw [h] at h'
        exact Option.some.inj h'
      · rw [h] at h'
        cases h'
    by_cases hcode : code = .badRequest ∨ code = .requestContentDone
    · -- the request is answered and deleted
      refine ⟨_, _, _, if_pos hcode, if_pos hcode, hloop, hlog, ?_, fun fd hfd ↦ ?_, ?_, ?_, ?_, ?_⟩
      · simp only [setRecver, hrecver]
      · simp only [setRecver, Function.update_of_ne hfd, hctx fd hfd]
      · simp [setRecver]
      · simp [setRecver]
      · intro p' hne _
        by_cases hp' : p' = p
        · exact (request_set hreq none p').trans ((if_pos hp').trans (hnew p' hne hp').symm)
        · exact (request_set hreq none p').trans ((if_neg hp').trans (hrest p' hp'))
      · intro p' req'' hreq' hctx'
        rw [hold p' hctx'] at hreq'
        have hnone := (request_set hreq none p).trans (if_pos rfl)
        rw [request] at hreq'
        cases hnone.symm.trans hreq'
    · -- the request is kept for the next read
      refine ⟨_, _, _, if_neg hcode, if_neg hcode, hloop, hlog, ?_, fun fd hfd ↦ ?_, ?_, ?_, ?_, ?_⟩
      · simp only [setRecver, hrecver]
      · exact hctx fd hfd
      · have hself := (request_set hreq (some req') p).trans (if_pos rfl)
        simp only [setRecver, hp, Option.map_some]
        exact congrArg some hself
      · intro p' hp'
        simp only [setRecver, hp, Option.some.injEq] at hp'
        rw [← hp']
        exact hbefore.imp_right And.right
      · intro p' _ hne
        have hp' : p' ≠ p := fun heq ↦ hne (heq ▸ hp)
        exact (request_set hreq _ p').trans ((if_neg hp').trans (hrest p' hp'))
      · intro p' _ _ hctx'
        rw [hold p' hctx']
        exact hp

theorem readings_of_log {k : ℕ} {e : Reading} (h : s'.log = s.log ++ [e]) :
    s'.readings k = s.readings k ++ if e.channel = k then [e] else [] := by
  rw [readings, readings, h, List.filter_append]
  by_cases hk : e.channel = k
  · rw [if_pos hk]
    simp [hk]
  · rw [if_neg hk]
    simp [hk]

theorem answers_of_log {k : ℕ} {e : Reading} (h : s'.log = s.log ++ [e]) :
    s'.answers k = s.answers k ++ if e.channel = k then e.answered.toList else [] := by
  rw [answers, answers, readings_of_log h, List.flatMap_append]
  by_cases hk : e.channel = k
  · rw [if_pos hk, if_pos hk, List.flatMap_singleton]
  · rw [if_neg hk, if_neg hk]
    rfl

theorem run_of_log {k : ℕ} {reads : List Bytes} {answered : Option Connection.Answered}
    {c c' : Connection} (hlog : s'.log = s.log ++ [⟨k, reads, answered⟩])
    (hrun : Connection.run store .accepted (s.reads k) = .ok (c, s.answers k))
    (hopen : c.disconnected = false) (hread : c.onRead store reads = .ok (c', answered)) :
    Connection.run store .accepted (s'.reads k) = .ok (c', s'.answers k) := by
  rw [ServerLoop.reads, answers_of_log hlog, readings_of_log hlog, if_pos rfl, if_pos rfl,
    List.map_append]
  change Connection.run store .accepted (s.reads k ++ [reads]) = _
  rw [Connection.run_append hrun hopen, hread]
  rfl

theorem getContext_frame {slot : ℤ} {id p : ℕ} {s₁ : ServerLoop}
    (h : s.getContext slot id = (s₁, p)) :
    s₁.toEventLoop = s.toEventLoop ∧ s₁.log = s.log := by
  rw [getContext] at h
  cases hp : s.context slot with
  | some p' =>
    simp only [hp] at h
    cases h
    exact ⟨rfl, rfl⟩
  | none =>
    simp only [hp] at h
    cases h
    exact ⟨rfl, rfl⟩

theorem onMessage_frame {slot : ℤ} {id : ℕ} {answered : Option Connection.Answered}
    (h : s.onMessage store slot id = .ok (s', answered)) :
    s'.toEventLoop = s.toEventLoop ∧ s'.log = s.log := by
  obtain ⟨s₁, p, hget⟩ : ∃ s₁ p, s.getContext slot id = (s₁, p) := ⟨_, _, rfl⟩
  obtain ⟨hloop, hlog⟩ := getContext_frame hget
  rw [onMessage, hget] at h
  cases hreq : s₁.request p with
  | none =>
    simp only [hreq] at h
    cases h
  | some req =>
    simp only [hreq] at h
    obtain ⟨⟨code, req'⟩, -, h⟩ := bind_eq_ok.mp h
    dsimp only at h
    split_ifs at h
    · cases h
      exact ⟨hloop, hlog⟩
    · cases h
      exact ⟨hloop, hlog⟩

/-- A task of `onRead` that leaves its connection open asks for the event that goes with
what it has answered. -/
theorem onRead_cases {slot : ℤ} {channel : Channel} {calls : Calls} {out : Outcome}
    (h : s.onRead store slot channel calls = .ok (s', out)) :
    s'.toEventLoop = s.toEventLoop ∧
      (Closes (s.conns slot) channel.type out .onRead ∧ s'.log = s.log ∨
        ¬ Closes (s.conns slot) channel.type out .onRead ∧ ∃ answered,
          s'.log = s.log ++ [⟨channel.id, calls.reads, answered⟩] ∧
          resumes (s.conns slot) out .onRead =
            (Connection.keepAliveAfter (s.conns slot).keepAlive answered,
              if answered.isSome then .epollout else .epollin)) := by
  rw [onRead] at h
  dsimp only at h
  split_ifs at h with hcloses hreadable
  · cases h
    exact ⟨rfl, .inl ⟨hcloses, rfl⟩⟩
  · cases h
    exact ⟨rfl, .inr ⟨hcloses, none, rfl, rfl⟩⟩
  · obtain ⟨⟨s₁, answered⟩, hmessage, h⟩ := bind_eq_ok.mp h
    obtain ⟨hloop, hlog⟩ := onMessage_frame hmessage
    cases h
    refine ⟨hloop, .inr ⟨hcloses, answered, ?_, rfl⟩⟩
    simp only [hlog]
    rfl

theorem onWrite_frame (slot : ℤ) (channel : Channel) (calls : Calls) :
    (s.onWrite slot channel calls).1.toEventLoop = s.toEventLoop ∧
      (s.onWrite slot channel calls).1.log = s.log := by
  rw [onWrite_fst]
  exact ⟨rfl, rfl⟩

theorem next_task {i : ℕ} {task : Task} {channel : Channel} {calls : Calls}
    (htask : s.tasks[i]? = some task) (hchannel : (s.conns task.slot).channel = some channel)
    (h : s.next store (.task i calls) = .ok s') :
    ∃ s₁ out, s.perform store task channel calls = .ok (s₁, out) ∧ s'.log = s₁.log ∧
      s₁.toEventLoop.next (.task i out) = .ok s'.toEventLoop := by
  simp only [next, htask, hchannel] at h
  obtain ⟨⟨s₁, out⟩, hperform, h⟩ := bind_eq_ok.mp h
  obtain ⟨loop, hloop, h⟩ := bind_eq_ok.mp h
  cases h
  exact ⟨s₁, out, hperform, rfl, hloop⟩

namespace Owned

variable {own : ℕ → Option HttpRequest} (h : s.Owned own object)

include h

theorem congr (hrequests : s'.requests = s.requests) : s'.Owned own object := by
  have hrequest := request_congr hrequests
  exact ⟨h.inj, hrequest ▸ h.owned, hrequest ▸ h.held⟩

theorem of_none {k : ℕ} (hown : own k = none) : object k = none := by
  have howned := h.owned k
  rw [hown] at howned
  exact Option.map_eq_none_iff.mp howned

theorem of_some {k p : ℕ} (hobject : object k = some p) :
    ∃ req, s.request p = some req ∧ own k = some req := by
  have howned := h.owned k
  rw [hobject, Option.map_some] at howned
  obtain ⟨req, hreq, heq⟩ := Option.map_eq_some_iff.mp howned.symm
  exact ⟨req, heq.symm, hreq⟩

/-- One channel changes, deletes or allocates a request, and the others keep theirs. -/
theorem update {k₀ : ℕ} {q : Option ℕ} {req₀ : Option HttpRequest}
    (hq : q.map s'.request = req₀.map some)
    (hfresh : ∀ p, q = some p → object k₀ = some p ∨ s.request p = none)
    (hothers : ∀ p, object k₀ ≠ some p → q ≠ some p → s'.request p = s.request p)
    (hfreed : ∀ p req, s'.request p = some req → object k₀ = some p → q = some p) :
    s'.Owned (Function.update own k₀ req₀) (Function.update object k₀ q) := by
  have hapart {k p : ℕ} (hk : k ≠ k₀) (hobject : object k = some p) : q ≠ some p := fun hqp ↦ by
    rcases hfresh p hqp with h₀ | hnone
    · exact hk (h.inj k k₀ p hobject h₀)
    · obtain ⟨req, hreq, -⟩ := h.of_some hobject
      rw [hnone] at hreq
      cases hreq
  refine ⟨fun k k' p hk hk' ↦ ?_, fun k ↦ ?_, fun p req hreq ↦ ?_⟩
  · by_cases h₀ : k = k₀
    · by_cases h₀' : k' = k₀
      · rw [h₀, h₀']
      · rw [h₀, Function.update_self] at hk
        rw [Function.update_of_ne h₀'] at hk'
        exact absurd hk (hapart h₀' hk')
    · rw [Function.update_of_ne h₀] at hk
      by_cases h₀' : k' = k₀
      · rw [h₀', Function.update_self] at hk'
        exact absurd hk' (hapart h₀ hk)
      · rw [Function.update_of_ne h₀'] at hk'
        exact h.inj k k' p hk hk'
  · by_cases h₀ : k = k₀
    · rw [h₀, Function.update_self, Function.update_self]
      exact hq
    · rw [Function.update_of_ne h₀, Function.update_of_ne h₀, ← h.owned k]
      cases hobject : object k with
      | none => rfl
      | some p =>
        have hne : object k₀ ≠ some p := fun h' ↦ h₀ (h.inj k k₀ p hobject h')
        rw [Option.map_some, Option.map_some, hothers p hne (hapart h₀ hobject)]
  · by_cases hqp : q = some p
    · exact ⟨k₀, by rw [Function.update_self, hqp]⟩
    · have hne : object k₀ ≠ some p := fun h' ↦ hqp (hfreed p req hreq h')
      rw [hothers p hne hqp] at hreq
      obtain ⟨k, hk⟩ := h.held p req hreq
      have h₀ : k ≠ k₀ := fun h' ↦ hne (h' ▸ hk)
      exact ⟨k, by rw [Function.update_of_ne h₀, hk]⟩

end Owned

namespace Apart

variable (h : s.Apart store own object)

include h

theorem readings_of_le {k : ℕ} (hk : s.allocated ≤ k) : s.readings k = [] :=
  List.filter_eq_nil_iff.mpr fun e he heq ↦ by
    have hlt := h.log_lt e he
    have heq : e.channel = k := by simpa using heq
    omega

/-- A channel that has not been allocated has read nothing. -/
theorem own_of_le {k : ℕ} (hk : s.allocated ≤ k) : own k = .accepted := by
  have hrun := h.run k
  rw [reads, answers, h.readings_of_le hk] at hrun
  exact (congrArg Prod.fst (Except.ok.inj hrun)).symm

theorem answers_of_le {k : ℕ} (hk : s.allocated ≤ k) : s.answers k = [] := by
  rw [answers, h.readings_of_le hk]
  rfl

/-- A step that neither reads nor answers, and leaves the connections that remain. -/
theorem of_keeps (hloop : s'.HandedOver) (hasked : s'.Asked)
    (hkeeps : EventLoop.Keeps s.toEventLoop s'.toEventLoop) (hlog : s'.log = s.log)
    (hrequests : s'.requests = s.requests)
    (hdata : ∀ fd channel, s'.Serves fd channel →
      s'.context fd = s.context fd ∧ s'.recver channel.id = s.recver channel.id) :
    s'.Apart store own object where
  handedOver := hloop
  asked := hasked
  id_lt fd channel hserves :=
    (h.id_lt fd channel (serves_of_keeps hkeeps hserves)).trans_le hkeeps.allocated
  id_inj fd fd' channel channel' hserves hserves' :=
    h.id_inj fd fd' channel channel' (serves_of_keeps hkeeps hserves)
      (serves_of_keeps hkeeps hserves')
  log_lt e he := (h.log_lt e (hlog ▸ he)).trans_le hkeeps.allocated
  run k := by
    rw [reads, answers, readings, hlog]
    exact h.run k
  serves fd channel hserves := by
    obtain ⟨hcontext, hrecver⟩ := hdata fd channel hserves
    rw [h.serves fd channel (serves_of_keeps hkeeps hserves)]
    refine (seen_congr (hkeeps.poller fd hserves.1) (hkeeps.conns fd hserves.1) hrecver ?_).symm
    rw [hcontext, request_congr hrequests]
  context fd channel hserves := by
    rw [(hdata fd channel hserves).1]
    exact h.context fd channel (serves_of_keeps hkeeps hserves)
  requests := h.requests.congr hrequests

/-- A step that goes on with the connection of one slot, or begins it, and leaves the
others. -/
theorem of_one (fd₀ : ℤ) {k₀ : ℕ} {c : Connection} {q : Option ℕ} (hloop : s'.HandedOver)
    (hasked : s'.Asked) (halloc : s.allocated ≤ s'.allocated) (hk₀ : k₀ < s'.allocated)
    (hmine : ∀ channel, s'.Serves fd₀ channel → channel.id = k₀)
    (hothers : ∀ fd channel, fd ≠ fd₀ → s'.Serves fd channel →
      s.Serves fd channel ∧ channel.id ≠ k₀ ∧ s'.poller fd = s.poller fd ∧
        s'.conns fd = s.conns fd ∧ s'.recver channel.id = s.recver channel.id ∧
        s'.context fd = s.context fd)
    (hlog : ∀ e ∈ s'.log, e ∈ s.log ∨ e.channel = k₀)
    (hreadings : ∀ k, k ≠ k₀ → s'.readings k = s.readings k)
    (hrun : Connection.run store .accepted (s'.reads k₀) = .ok (c, s'.answers k₀))
    (hseen : c = s'.seen fd₀ k₀) (hcontext : s'.context fd₀ = q)
    (hrequests : s'.Owned (fun k ↦ (Function.update own k₀ c k).context)
      (Function.update object k₀ q)) :
    s'.Apart store (Function.update own k₀ c) (Function.update object k₀ q) where
  handedOver := hloop
  asked := hasked
  id_lt fd channel hserves := by
    by_cases hfd : fd = fd₀
    · rw [hmine channel (hfd ▸ hserves)]
      exact hk₀
    · exact (h.id_lt fd channel (hothers fd channel hfd hserves).1).trans_le halloc
  id_inj fd fd' channel channel' hserves hserves' hid := by
    by_cases hfd : fd = fd₀
    · have hchannel := hmine channel (hfd ▸ hserves)
      by_contra hne
      have hfd' : fd' ≠ fd₀ := fun h' ↦ hne (hfd.trans h'.symm)
      exact (hothers fd' channel' hfd' hserves').2.1 (hid ▸ hchannel)
    · obtain ⟨hold, hne, -⟩ := hothers fd channel hfd hserves
      by_cases hfd' : fd' = fd₀
      · exact absurd (hid.trans (hmine channel' (hfd' ▸ hserves'))) hne
      · exact h.id_inj fd fd' channel channel' hold (hothers fd' channel' hfd' hserves').1 hid
  log_lt e he := by
    rcases hlog e he with hold | hnew
    · exact (h.log_lt e hold).trans_le halloc
    · rw [hnew]
      exact hk₀
  run k := by
    by_cases hk : k = k₀
    · rw [hk, Function.update_self]
      exact hrun
    · rw [Function.update_of_ne hk, reads, answers, hreadings k hk]
      exact h.run k
  serves fd channel hserves := by
    by_cases hfd : fd = fd₀
    · subst hfd
      rw [hmine channel hserves, Function.update_self]
      exact hseen
    · obtain ⟨hold, hne, hpoller, hconns, hrecver, hctx⟩ := hothers fd channel hfd hserves
      rw [Function.update_of_ne hne, h.serves fd channel hold]
      refine (seen_congr hpoller hconns hrecver ?_).symm
      rw [hctx]
      cases hp : s.context fd with
      | none => rfl
      | some p =>
        have hobject : object channel.id = some p := (h.context fd channel hold).symm.trans hp
        obtain ⟨req, hreq, hown⟩ := h.requests.of_some hobject
        obtain ⟨req', hreq', hown'⟩ :=
          hrequests.of_some ((Function.update_of_ne hne _ _).trans hobject)
        rw [Function.update_of_ne hne, hown] at hown'
        cases hown'
        exact hreq'.trans hreq.symm
  context fd channel hserves := by
    by_cases hfd : fd = fd₀
    · subst hfd
      rw [hmine channel hserves, Function.update_self]
      exact hcontext
    · obtain ⟨hold, hne, -, -, -, hctx⟩ := hothers fd channel hfd hserves
      rw [Function.update_of_ne hne, hctx]
      exact h.context fd channel hold
  requests := hrequests

theorem wait {events : List (ℤ × Revents)} (hadmits : s.Admits (.wait events))
    (hs : s.next store (.wait events) = .ok s') : s'.Apart store own object := by
  obtain ⟨loop, hloop, hs⟩ := bind_eq_ok.mp hs
  cases hs
  obtain ⟨hkeeps, hasked⟩ := EventLoop.HandedOver.wait_keeps h.asked hadmits.2 hloop
  cases hloop
  exact h.of_keeps (h.handedOver.wait hadmits.1) hasked hkeeps rfl rfl fun _ _ _ ↦ ⟨rfl, rfl⟩

theorem handle {clock : TimeStamp.Clock} (hs : s.next store (.handle clock) = .ok s') :
    s'.Apart store own object := by
  obtain ⟨loop, hloop, hs⟩ := bind_eq_ok.mp hs
  cases hs
  obtain ⟨loop', hloop', hhanded⟩ := h.handedOver.handle clock
  rw [hloop] at hloop'
  cases hloop'
  obtain ⟨hkeeps, hasked⟩ := h.handedOver.handle_keeps h.asked hloop
  exact h.of_keeps hhanded hasked hkeeps rfl rfl fun _ _ _ ↦ ⟨rfl, rfl⟩

theorem tick {clock : TimeStamp.Clock} (hpunctual : s.Admits (.tick clock))
    (hs : s.next store (.tick clock) = .ok s') : s'.Apart store own object := by
  obtain ⟨loop, hloop, hs⟩ := bind_eq_ok.mp hs
  cases hs
  obtain ⟨loop', hloop', hhanded⟩ := h.handedOver.tick hpunctual
  rw [hloop] at hloop'
  cases hloop'
  obtain ⟨hkeeps, hasked⟩ := h.handedOver.tick_keeps h.asked hpunctual hloop
  exact h.of_keeps hhanded hasked hkeeps rfl rfl fun _ _ _ ↦ ⟨rfl, rfl⟩

/-- A new connection has a channel that nothing has been read from. -/
theorem accept {clock : TimeStamp.Clock} {connfd ret : ℤ}
    (hfree : s.Admits (.accept clock connfd ret))
    (hs : s.next store (.accept clock connfd ret) = .ok s') : s'.Apart store own object := by
  obtain ⟨s₁, hs₁, hs⟩ := bind_eq_ok.mp hs
  obtain ⟨loop, hloop, hs₁⟩ := bind_eq_ok.mp hs₁
  cases hs₁
  obtain ⟨loop', hloop', hhanded⟩ := h.handedOver.accept clock ret hfree
  rw [hloop] at hloop'
  cases hloop'
  obtain ⟨hasked, ⟨hacc, hkeeps⟩ | ⟨hacc, type, -, hconns, hpoller, halloc⟩⟩ :=
    h.handedOver.accept_cases h.asked hfree hloop
  · rw [connected, if_neg hacc] at hs
    cases hs
    exact h.of_keeps hhanded hasked hkeeps rfl rfl fun _ _ _ ↦ ⟨rfl, rfl⟩
  · rw [connected, if_pos hacc] at hs
    cases hs
    have hobject : object s.allocated = none := h.requests.of_none (by rw [h.own_of_le le_rfl]; rfl)
    have hown : Function.update own s.allocated .accepted = own :=
      Function.update_eq_self_iff.mpr (h.own_of_le le_rfl).symm
    have hsame : Function.update object s.allocated none = object :=
      Function.update_eq_self_iff.mpr hobject.symm
    rw [← hown, ← hsame]
    refine h.of_one connfd hhanded hasked ?_ ?_ (fun channel hserves ↦ ?_)
      (fun fd channel hfd hserves ↦ ?_) (fun e he ↦ .inl he) (fun k _ ↦ rfl) ?_ ?_
      (Function.update_self _ _ _) ?_
    · exact halloc.ge.trans' (Nat.le_succ _)
    · exact halloc.ge
    · have hchannel := hserves.2
      simp only [hconns, Function.update_self, Option.some.injEq] at hchannel
      rw [← hchannel]
    · have hconn : loop.conns fd = s.conns fd := by rw [hconns, Function.update_of_ne hfd]
      have hold : s.Serves fd channel := (serves_of_conns hconn).mp hserves
      have hne : channel.id ≠ s.allocated := (h.id_lt fd channel hold).ne
      exact ⟨hold, hne, by rw [hpoller, Function.update_of_ne hfd], hconn,
        Function.update_of_ne hne _ _, Function.update_of_ne hfd _ _⟩
    · have hrun := h.run s.allocated
      rw [h.own_of_le le_rfl] at hrun
      exact hrun
    · have hpoll : loop.poller connfd = some .epollin := by rw [hpoller, Function.update_self]
      simp [seen, connection, hpoll, hconns, Connection.accepted]
    · rw [hown, hsame]
      exact h.requests.congr rfl

section Task

variable {i : ℕ} {task : Task} {channel : Channel} {out : Outcome} {loop : EventLoop}
  {s₁ : ServerLoop}
variable (htask : s.tasks[i]? = some task)
  (hchannel : (s.conns task.slot).channel = some channel)
  (hnext : s.toEventLoop.next (.task i out) = .ok loop)
  (hrecver : ∀ k, k ≠ channel.id → s₁.recver k = s.recver k)
  (hothers : ∀ fd, fd ≠ task.slot → s₁.context fd = s.context fd)

include htask hchannel

theorem serves_task : s.Serves task.slot channel :=
  ⟨(h.handedOver.served.fresh task (List.mem_of_getElem? htask)).1, hchannel⟩

include hnext hrecver hothers

/-- A task that closes its connection. -/
theorem of_closes (hcloses : Closes (s.conns task.slot) channel.type out task.kind)
    (hlog : s₁.log = s.log) (hrequests : s₁.requests = s.requests) :
    Apart store { s₁ with toEventLoop := loop } own object := by
  obtain ⟨loop', hloop', hhanded⟩ := h.handedOver.task i out
  rw [hnext] at hloop'
  cases hloop'
  obtain ⟨hasked, -, ⟨-, hkeeps, hdead⟩ | ⟨hno, -⟩⟩ :=
    h.handedOver.task_cases h.asked htask hchannel hnext
  · refine h.of_keeps hhanded hasked hkeeps hlog hrequests fun fd channel' hserves ↦ ?_
    have hfd : fd ≠ task.slot := fun heq ↦ hdead (heq ▸ hserves.1)
    refine ⟨hothers fd hfd, hrecver channel'.id fun hid ↦ hfd ?_⟩
    exact h.id_inj fd task.slot channel' channel (serves_of_keeps hkeeps hserves)
      (h.serves_task htask hchannel) hid
  · exact absurd hcloses hno

/-- A task that passes its connection on to the kernel. -/
theorem of_resumes {c : Connection} {q : Option ℕ}
    (hcloses : ¬ Closes (s.conns task.slot) channel.type out task.kind)
    (hlog : ∀ e ∈ s₁.log, e ∈ s.log ∨ e.channel = channel.id)
    (hreadings : ∀ k, k ≠ channel.id → s₁.readings k = s.readings k)
    (hrun : Connection.run store .accepted (s₁.reads channel.id) =
      .ok (c, s₁.answers channel.id))
    (hseen : let after := resumes (s.conns task.slot) out task.kind
      let conn : Connection := ⟨s₁.recver channel.id, (s₁.context task.slot).bind s₁.request,
        after.1, false⟩
      c = if after.2 = .epollout then conn.onWrite else conn)
    (hcontext : s₁.context task.slot = q)
    (hrequests : s₁.Owned (fun k ↦ (Function.update own channel.id c k).context)
      (Function.update object channel.id q)) :
    Apart store { s₁ with toEventLoop := loop } (Function.update own channel.id c)
      (Function.update object channel.id q) := by
  obtain ⟨loop', hloop', hhanded⟩ := h.handedOver.task i out
  rw [hnext] at hloop'
  cases hloop'
  obtain ⟨hasked, halloc, ⟨hno, -⟩ | ⟨-, hconns, hpoller⟩⟩ :=
    h.handedOver.task_cases h.asked htask hchannel hnext
  · exact absurd hno hcloses
  · have hserves := h.serves_task htask hchannel
    refine h.of_one task.slot hhanded hasked halloc.ge
      ((h.id_lt _ _ hserves).trans_eq halloc.symm) (fun channel' hserves' ↦ ?_)
      (fun fd channel' hfd hserves' ↦ ?_) hlog hreadings hrun ?_ hcontext (hrequests.congr rfl)
    · have hchannel' := hserves'.2
      simp only [hconns, Function.update_self, hchannel, Option.some.injEq] at hchannel'
      rw [← hchannel']
    · have hconn : loop.conns fd = s.conns fd := by rw [hconns, Function.update_of_ne hfd]
      have hold : s.Serves fd channel' := (serves_of_conns hconn).mp hserves'
      have hne : channel'.id ≠ channel.id := fun hid ↦
        hfd (h.id_inj fd task.slot channel' channel hold hserves hid)
      exact ⟨hold, hne, by rw [hpoller, Function.update_of_ne hfd], hconn, hrecver _ hne,
        hothers fd hfd⟩
    · rw [hseen]
      simp only [seen, connection, hpoller, hconns, Function.update_self, Option.some.injEq]
      rfl

/-- A task of `onRead` that passes its connection on. -/
theorem of_reading {c : Connection} {q : Option ℕ} {reads : List Bytes}
    {answered : Option Connection.Answered}
    (hcloses : ¬ Closes (s.conns task.slot) channel.type out task.kind)
    (hopen : (own channel.id).disconnected = false)
    (hlog : s₁.log = s.log ++ [⟨channel.id, reads, answered⟩])
    (hread : (own channel.id).onRead store reads = .ok (c, answered))
    (hseen : let after := resumes (s.conns task.slot) out task.kind
      let conn : Connection := ⟨s₁.recver channel.id, (s₁.context task.slot).bind s₁.request,
        after.1, false⟩
      c = if after.2 = .epollout then conn.onWrite else conn)
    (hcontext : s₁.context task.slot = q)
    (hrequests : s₁.Owned (Function.update (fun k ↦ (own k).context) channel.id c.context)
      (Function.update object channel.id q)) :
    ∃ own object, Apart store { s₁ with toEventLoop := loop } own object := by
  refine ⟨_, _, h.of_resumes htask hchannel hnext hrecver hothers hcloses (fun e he ↦ ?_)
    (fun k hk ↦ ?_) (run_of_log hlog (h.run channel.id) hopen hread) hseen hcontext ?_⟩
  · rw [hlog] at he
    rcases List.mem_append.mp he with he | he
    · exact .inl he
    · rw [List.mem_singleton.mp he]
      exact .inr rfl
  · rw [readings_of_log hlog, if_neg (Ne.symm hk), List.append_nil]
  · have hcontexts : (fun k ↦ (Function.update own channel.id c k).context) =
        Function.update (fun k ↦ (own k).context) channel.id c.context :=
      funext fun k ↦ Function.apply_update (fun _ ↦ Connection.context) own channel.id c k
    rw [hcontexts]
    exact hrequests

end Task

theorem write {i : ℕ} {task : Task} {channel : Channel} {calls : Calls}
    (htask : s.tasks[i]? = some task) (hkind : task.kind = .onWrite)
    (hchannel : (s.conns task.slot).channel = some channel)
    (hs : (s.onWrite task.slot channel calls).1.lift
      (.task i (s.onWrite task.slot channel calls).2) = .ok s') : s'.Apart store own object := by
  obtain ⟨loop, hnext, hs⟩ := bind_eq_ok.mp hs
  rw [onWrite_fst] at hnext hs
  cases hs
  have hrecver (k : ℕ) (hk : k ≠ channel.id) (recver : Buffer) :
      (s.setRecver channel.id recver).recver k = s.recver k := Function.update_of_ne hk _ _
  have hserves := h.serves_task htask hchannel
  have hpoller : s.poller task.slot = some .epollout := by
    rw [h.asked.tasks task (List.mem_of_getElem? htask), hkind]
    rfl
  have hown := h.serves _ _ hserves
  rw [seen, if_pos hpoller] at hown
  by_cases hcloses : Closes (s.conns task.slot) channel.type (s.onWrite task.slot channel calls).2
      task.kind
  · exact h.of_closes htask hchannel hnext (fun k hk ↦ hrecver k hk _) (fun _ _ ↦ rfl) hcloses
      rfl rfl
  · have hself : Function.update own channel.id (own channel.id) = own := Function.update_eq_self _ _
    have hobject : Function.update object channel.id (object channel.id) = object :=
      Function.update_eq_self _ _
    rw [← hself, ← hobject]
    refine h.of_resumes htask hchannel hnext (fun k hk ↦ hrecver k hk _) (fun _ _ ↦ rfl) hcloses
      (fun e he ↦ .inl he) (fun k _ ↦ rfl) (h.run channel.id) ?_ (h.context _ _ hserves) ?_
    · rw [hown]
      rw [hkind] at hcloses ⊢
      by_cases hzero : calls.n = 0
      · -- all has been sent, and the connection is kept alive
        have halive : (s.conns task.slot).keepAlive = true := by
          by_contra hno
          exact hcloses ⟨fun hc ↦ hno hc.2, fun hc ↦ hc.1.ne hzero⟩
        simp [resumes, onWrite, setRecver, connection, Connection.onWrite, hzero, halive]
        rfl
      · simp [resumes, onWrite, setRecver, connection, Connection.onWrite, hzero]
    · rw [hself, hobject]
      exact h.requests.congr rfl

/-- A task of `onRead` fails only where the parser of its connection fails, on its own. -/
theorem read {i : ℕ} {task : Task} {channel : Channel} (calls : Calls)
    (htask : s.tasks[i]? = some task) (hkind : task.kind = .onRead)
    (hchannel : (s.conns task.slot).channel = some channel) :
    (∃ e, s.onRead store task.slot channel calls = .error e ∧
      Connection.run store .accepted (s.reads channel.id ++ [calls.reads]) = .error e) ∨
    ∃ s₁ out, s.onRead store task.slot channel calls = .ok (s₁, out) ∧
      s₁.toEventLoop = s.toEventLoop ∧
      ∀ loop, s.toEventLoop.next (.task i out) = .ok loop →
        ∃ own object, Apart store { s₁ with toEventLoop := loop } own object := by
  have hserves := h.serves_task htask hchannel
  have hpoller : s.poller task.slot = some .epollin := by
    rw [h.asked.tasks task (List.mem_of_getElem? htask), hkind]
    rfl
  have hown : own channel.id = s.connection task.slot channel.id := by
    rw [h.serves _ _ hserves, seen, hpoller]
    rfl
  have hopen : (own channel.id).disconnected = false := by rw [hown]; rfl
  have hrun := h.run channel.id
  let s₀ := s.setRecver channel.id (calls.reads.foldl Buffer.append (s.recver channel.id))
  have hrecver (k : ℕ) (hk : k ≠ channel.id) : s₀.recver k = s.recver k :=
    Function.update_of_ne hk _ _
  have hread : s₀.connection task.slot channel.id = (own channel.id).readAgain calls.reads := by
    rw [hown]
    simp [s₀, connection, setRecver, Connection.readAgain]
    rfl
  by_cases hcloses : Closes (s.conns task.slot) channel.type
      ⟨calls.n, calls.err, false, false, false, (s.conns task.slot).keepAlive⟩ .onRead
  · refine .inr ⟨s₀, _, if_pos hcloses, rfl, fun loop hloop ↦ ⟨own, object, ?_⟩⟩
    exact h.of_closes htask hchannel hloop hrecver (fun _ _ ↦ rfl) (hkind ▸ hcloses) rfl rfl
  have hbuffer : ((own channel.id).readAgain calls.reads).recver = s₀.recver channel.id := by
    rw [← hread]
    rfl
  by_cases hreadable : (s₀.recver channel.id).readable = 0
  · have honRead : (own channel.id).onRead store calls.reads =
        .ok ((own channel.id).readAgain calls.reads, none) := by
      rw [Connection.onRead]
      exact if_pos (by rw [hbuffer]; exact hreadable)
    refine .inr ⟨{ s₀ with log := s₀.log ++ [⟨channel.id, calls.reads, none⟩] }, _,
      (if_neg hcloses).trans (if_pos hreadable), rfl, fun loop hloop ↦ ?_⟩
    refine h.of_reading htask hchannel hloop hrecver (fun _ _ ↦ rfl) (hkind ▸ hcloses) hopen rfl
      honRead ?_ (h.context _ _ hserves) ?_
    · rw [← hread, hkind]
      rfl
    · have hcontext : ((own channel.id).readAgain calls.reads).context =
          (own channel.id).context := rfl
      rw [hcontext, Function.update_eq_self (f := fun k ↦ (own k).context), Function.update_eq_self]
      exact h.requests.congr rfl
  · have hvalid (p : ℕ) (hp : s₀.context task.slot = some p) : ∃ req, s₀.request p = some req := by
      obtain ⟨req, hreq, -⟩ := h.requests.of_some ((h.context _ _ hserves).symm.trans hp)
      exact ⟨req, hreq⟩
    have honRead : (own channel.id).onRead store calls.reads =
        (((own channel.id).readAgain calls.reads).onMessage store).map
          fun x ↦ (if x.2.isSome then x.1.onWrite else x.1, x.2) := by
      rw [Connection.onRead]
      refine (if_neg (by rw [hbuffer]; exact hreadable)).trans ?_
      cases ((own channel.id).readAgain calls.reads).onMessage store with
      | error e => rfl
      | ok x => rfl
    obtain ⟨e, he, hfail⟩ | ⟨c, answered, s₂, hc, hs₂, hhandled⟩ :=
      onMessage_eq store channel.id hvalid
    · rw [hread] at he
      refine .inl ⟨e, (if_neg hcloses).trans ((if_neg hreadable).trans ?_), ?_⟩
      · rw [hfail]
        rfl
      · rw [Connection.run_append hrun hopen, honRead, he]
        rfl
    · obtain ⟨hdisconnected, hkeepAlive⟩ := Connection.onMessage_ok hc
      have hclosed : c.disconnected = false := hdisconnected
      let keepAlive := Connection.keepAliveAfter (s.conns task.slot).keepAlive answered
      have hconn : (⟨s₂.recver channel.id, (s₂.context task.slot).bind s₂.request, keepAlive,
          false⟩ : Connection) = c := by
        rw [hhandled.recver, Function.update_self, bind_of_map hhandled.request, ← hclosed]
        exact congrArg (Connection.mk c.recver c.context · c.disconnected) hkeepAlive.symm
      refine .inr ⟨{ s₂ with log := s₂.log ++ [⟨channel.id, calls.reads, answered⟩] },
        ⟨calls.n, calls.err, false, true, answered.isSome, keepAlive⟩,
        (if_neg hcloses).trans ((if_neg hreadable).trans ?_), hhandled.toEventLoop,
        fun loop hloop ↦ ?_⟩
      · rw [hs₂]
        rfl
      · refine h.of_reading (q := s₂.context task.slot) htask hchannel hloop (fun k hk ↦ ?_)
          hhandled.context (hkind ▸ hcloses) hopen (by rw [hhandled.log]; rfl)
          (by rw [honRead, ← hread, hc]; rfl) ?_ rfl ?_
        · simp only [hhandled.recver]
          exact (Function.update_of_ne hk _ _).trans (hrecver k hk)
        · have hafter (conn : Connection) (heq : conn = c) :
              (if answered.isSome then c.onWrite else c) =
                if (if answered.isSome then Interest.epollout else .epollin) = .epollout
                then conn.onWrite else conn := by
            rw [heq]
            cases answered with
            | none => rfl
            | some x => rfl
          rw [hkind]
          exact hafter _ hconn
        · have hcontext : (if answered.isSome then c.onWrite else c).context = c.context := by
            split_ifs
            · rfl
            · rfl
          have hobject : s₀.context task.slot = object channel.id := h.context _ _ hserves
          rw [hcontext]
          refine h.requests.update hhandled.request (fun p hp ↦ ?_) (fun p hne hq ↦ ?_)
            fun p req hreq hp ↦ ?_
          · rw [← hobject]
            exact hhandled.fresh p hp
          · exact hhandled.others p (by rw [hobject]; exact hne) hq
          · exact hhandled.freed p req hreq (by rw [hobject]; exact hp)

theorem task (i : ℕ) (calls : Calls) :
    (∃ e k reads, s.next store (.task i calls) = .error e ∧
      Connection.run store .accepted (s.reads k ++ [reads]) = .error e) ∨
    ∃ s', s.next store (.task i calls) = .ok s' ∧ ∃ own object, s'.Apart store own object := by
  cases htask : s.tasks[i]? with
  | none =>
    refine .inr ⟨s, ?_, own, object, h⟩
    rw [ServerLoop.next, htask]
  | some task =>
    obtain ⟨channel, hchannel⟩ := h.handedOver.channel_of_task htask
    have hnext : s.next store (.task i calls) = (do
        let (s, out) ← s.perform store task channel calls
        s.lift (.task i out)) := by
      rw [ServerLoop.next, htask]
      simp only [hchannel]
    rw [hnext]
    cases hkind : task.kind with
    | onRead =>
      have hperform : s.perform store task channel calls =
          s.onRead store task.slot channel calls := by rw [perform, hkind]
      rw [hperform]
      obtain ⟨e, he, hrun⟩ | ⟨s₁, out, hs₁, hloop, hapart⟩ :=
        h.read calls htask hkind hchannel
      · exact .inl ⟨e, channel.id, calls.reads, by rw [he]; rfl, hrun⟩
      · obtain ⟨loop, hloop', -⟩ := h.handedOver.task i out
        refine .inr ⟨{ s₁ with toEventLoop := loop }, ?_, hapart loop hloop'⟩
        rw [hs₁]
        change s₁.lift (.task i out) = _
        rw [lift, hloop, hloop']
        rfl
    | onWrite =>
      have hperform : s.perform store task channel calls =
          .ok (s.onWrite task.slot channel calls) := by rw [perform, hkind]
      obtain ⟨loop, hloop, -⟩ := h.handedOver.task i (s.onWrite task.slot channel calls).2
      have hlift : (s.onWrite task.slot channel calls).1.lift
          (.task i (s.onWrite task.slot channel calls).2) =
            .ok { (s.onWrite task.slot channel calls).1 with toEventLoop := loop } := by
        rw [lift, onWrite_fst]
        change (do
          let loop ← s.toEventLoop.next _
          _) = _
        rw [hloop]
        rfl
      rw [hperform]
      exact .inr ⟨_, hlift, own, object, h.write htask hkind hchannel hlift⟩

theorem next {step : Step} (hadmits : s.Admits step) :
    (∃ e k reads, s.next store step = .error e ∧
      Connection.run store .accepted (s.reads k ++ [reads]) = .error e) ∨
    ∃ s', s.next store step = .ok s' ∧ ∃ own object, s'.Apart store own object := by
  cases step with
  | wait events => exact .inr ⟨_, rfl, own, object, h.wait hadmits rfl⟩
  | handle clock =>
    obtain ⟨loop, hloop, -⟩ := h.handedOver.handle clock
    have hs : s.next store (.handle clock) = .ok { s with toEventLoop := loop } := by
      rw [ServerLoop.next, lift, hloop]
      rfl
    exact .inr ⟨_, hs, own, object, h.handle hs⟩
  | accept clock connfd ret =>
    obtain ⟨loop, hloop, -⟩ := h.handedOver.accept clock ret hadmits
    have hs : s.next store (.accept clock connfd ret) =
        .ok (s.connected connfd ret { s with toEventLoop := loop }) := by
      rw [ServerLoop.next, lift, hloop]
      rfl
    exact .inr ⟨_, hs, own, object, h.accept hadmits hs⟩
  | tick clock =>
    obtain ⟨loop, hloop, -⟩ := h.handedOver.tick hadmits
    have hs : s.next store (.tick clock) = .ok { s with toEventLoop := loop } := by
      rw [ServerLoop.next, lift, hloop]
      rfl
    exact .inr ⟨_, hs, own, object, h.tick hadmits hs⟩
  | task i calls => exact h.task i calls

end Apart

theorem apart_init (store : HttpPassStore) (idleTimeout : Int32) (enableHttps : Bool) :
    (init idleTimeout enableHttps).Apart store (fun _ ↦ .accepted) fun _ ↦ none := by
  have hclosed (fd : ℤ) (channel : Channel) : ¬ (init idleTimeout enableHttps).Serves fd channel :=
    fun hserves ↦ hserves.1 (.inr rfl)
  exact {
    handedOver := EventLoop.handedOver_init idleTimeout enableHttps
    asked := EventLoop.asked_init idleTimeout enableHttps
    id_lt := fun fd channel hserves ↦ absurd hserves (hclosed fd channel)
    id_inj := fun fd _ channel _ hserves ↦ absurd hserves (hclosed fd channel)
    log_lt := fun _ he ↦ (nomatch he)
    run := fun _ ↦ rfl
    serves := fun fd channel hserves ↦ absurd hserves (hclosed fd channel)
    context := fun fd channel hserves ↦ absurd hserves (hclosed fd channel)
    requests := ⟨fun _ _ _ hp ↦ (nomatch hp), fun _ ↦ rfl, fun _ _ hp ↦ (nomatch hp)⟩ }

variable (store : HttpPassStore) (idleTimeout : Int32) (enableHttps : Bool)

theorem run_apart {steps : List Step}
    (hrun : Lib.Run.Throughout (next store) Admits (init idleTimeout enableHttps) steps) :
    (∀ s, Lib.Run.Reaches (next store) (init idleTimeout enableHttps) steps s →
      ∃ own object, s.Apart store own object) ∧
    ∀ e, steps.foldlM (next store) (init idleTimeout enableHttps) = .error e →
      ∃ s, Lib.Run.Reaches (next store) (init idleTimeout enableHttps) steps s ∧
        ∃ k reads, Connection.run store .accepted (s.reads k ++ [reads]) = .error e :=
  hrun.invariant_or
    (fun _ _ ⟨_, _, h⟩ hadmits ↦ (h.next hadmits).imp_left
      fun ⟨e, k, reads, he, hrun⟩ ↦ ⟨e, he, k, reads, hrun⟩)
    ⟨_, _, apart_init store idleTimeout enableHttps⟩

/-- Two connections whose messages come in turn. -/
def inTurn (clock : TimeStamp.Clock) : List Step :=
  [.accept clock 5 0, .accept clock 6 0, .wait [(5, ⟨false, true, false⟩), (6, ⟨false, true, false⟩)],
    .handle clock, .handle clock, .task 1 (.blocked [ascii "GET /b HTTP/1.1\r\nHo"]),
    .task 0 (.blocked [ascii "GET /a HTTP/1.1\r\n", ascii "\r\n"]),
    .wait [(6, ⟨false, true, false⟩), (5, ⟨false, false, true⟩)], .handle clock, .handle clock,
    .task 1 .sent, .task 0 (.blocked [ascii "st: c\r\n"]),
    .wait [(6, ⟨true, true, false⟩)], .handle clock]

end ServerLoop

end Socnet.Http
