import Socnet.Http.ResponseStream
import Socnet.Http.ServerLoop

namespace Socnet.Http

open Net TcpServer Connections HttpResponseBuilder

/-- What the services of a server make of the requests that are handed to them. -/
structure Service (gzip : Bytes → Bytes) (files : Bytes → File) (support : Bool) where
  respond : Connection.Answered → HttpResponseBuilder
  method : ∀ a method, a.2.method = some method → (respond a).method = method
  keepalive : ∀ a, (respond a).keepalive = a.2.keepalive
  readable : ∀ a, (respond a).Readable gzip files support

namespace Calls

theorem wrote_nonpos (all : Bool) : (if all then 0 else -1 : ℤ) ≤ 0 := by
  split_ifs
  · exact le_rfl
  · decide

/-- What `TcpConnection::write` returns. -/
def wrote (all : Bool) (err : ℤ) : Calls := ⟨[], if all then 0 else -1, err, wrote_nonpos all⟩

end Calls

/-- The server loop with what its channels send: what a channel holds of its last answer
and what the kernel has taken of it, what the kernel has taken of the answers before, and
the answers that have been built for a channel. -/
structure Serving extends ServerLoop where
  outgoing : ℕ → Delivery
  sent : ℕ → Bytes
  responses : ℕ → List (HttpResponseBuilder × Built)

namespace Serving

/-- A channel as it is allocated. -/
def channel (support : Bool) : Outgoing := ⟨support, .init, none, none, 0, 0, 0⟩

/-- A channel with TLS does not support `sendfile`. -/
def supports (sendfile enableHttps : Bool) : Bool := sendfile && !enableHttps

def init (idleTimeout : Int32) (sendfile enableHttps : Bool) : Serving :=
  ⟨ServerLoop.init idleTimeout enableHttps,
    fun _ ↦ .start (channel (supports sendfile enableHttps)), fun _ ↦ [], fun _ ↦ []⟩

variable {gzip : Bytes → Bytes} {files : Bytes → File} {support : Bool} (store : HttpPassStore)
  (s : Serving)

/-- All that the kernel has taken from a channel. -/
def taken (k : ℕ) : Bytes := s.sent k ++ (s.outgoing k).accepted

/-- `taken` are the counts of the calls of `write` that succeed in a task of `onWrite`, and
the service is the one that is called in a task of `onRead`. -/
inductive Step (gzip : Bytes → Bytes) (files : Bytes → File) (support : Bool)
  | wait (events : List (ℤ × Revents))
  | handle (clock : TimeStamp.Clock)
  | accept (clock : TimeStamp.Clock) (connfd ret : ℤ)
  | tick (clock : TimeStamp.Clock)
  | task (i : ℕ) (calls : Calls) (taken : List ℕ) (service : Service gzip files support)

def lift (step : ServerLoop.Step) : Except Fault Serving := do
  let server ← s.toServerLoop.next store step
  .ok { s with toServerLoop := server }

/-- The request that a task has answered. -/
def answered (server : ServerLoop) : Option Connection.Answered :=
  (server.log.drop s.log.length).head?.bind Reading.answered

/-- `HttpResponse::send` builds the answer into the channel. -/
def respond (service : Service gzip files support) (id : ℕ) :
    Option Connection.Answered → Except Fault Serving
  | none => .ok s
  | some a => do
    let b := service.respond a
    let built ← b.build gzip files (s.outgoing id).channel
    .ok { s with
      outgoing := Function.update s.outgoing id (.start built.channel)
      responses := Function.update s.responses id (s.responses id ++ [(b, built)]) }

def onRead (service : Service gzip files support) (i id : ℕ) (calls : Calls) :
    Except Fault Serving := do
  let s' ← s.lift store (.task i calls)
  s'.respond service id (s.answered s'.toServerLoop)

def onWrite (i : ℕ) (channel : Channel) (err : ℤ) (taken : List ℕ) : Except Fault Serving := do
  let (d, all) ← (s.outgoing channel.id).write channel.type taken
  let s' ← s.lift store (.task i (.wrote all err))
  .ok (if all then { s' with
    outgoing := Function.update s'.outgoing channel.id (.start d.channel.reset)
    sent := Function.update s'.sent channel.id (s'.sent channel.id ++ d.accepted) }
  else { s' with outgoing := Function.update s'.outgoing channel.id d })

def next (s : Serving) : Step gzip files support → Except Fault Serving
  | .wait events => s.lift store (.wait events)
  | .handle clock => s.lift store (.handle clock)
  | .accept clock connfd ret => do
    let s' ← s.lift store (.accept clock connfd ret)
    .ok (if Activity.Accepted s.enableHttps connfd ret then { s' with
      outgoing := Function.update s'.outgoing s.allocated (.start (channel support)) }
    else s')
  | .tick clock => s.lift store (.tick clock)
  | .task i calls taken service =>
    match s.tasks[i]? with
    | none => .ok s
    | some task =>
      match (s.conns task.slot).channel with
      | none => .error .nullChannel
      | some channel =>
        match task.kind with
        | .onRead => s.onRead store service i channel.id calls
        | .onWrite => s.onWrite store i channel calls.err taken

/-- The kernel fails or takes some of what it is offered, and no more than an `int`
counts. -/
def Accepts (type : ChannelType) (d : Delivery) (taken : List ℕ) : Prop :=
  Lib.Run.Throughout (Delivery.step type) (fun d k ↦ d.Admissible type k ∧ ∀ n ∈ k, n < 2 ^ 31)
    d (taken.map some)

/-- What the kernel does, and that the idle timer spares the connections being served. -/
def Admits (s : Serving) : Step gzip files support → Prop
  | .wait events => s.toServerLoop.Admits (.wait events)
  | .accept clock connfd ret => s.toServerLoop.Admits (.accept clock connfd ret)
  | .tick clock => s.toServerLoop.Admits (.tick clock)
  | .task i _ taken _ => ∀ task ∈ s.tasks[i]?, task.kind = .onWrite →
      ∀ channel ∈ (s.conns task.slot).channel,
        Accepts channel.type (s.outgoing channel.id) taken
  | .handle _ => True

instance (type : ChannelType) (d : Delivery) : DecidablePred (Accepts type d) := fun _ ↦
  inferInstanceAs (Decidable (Lib.Run.Throughout _ _ _ _))

instance (s : Serving) : (step : Step gzip files support) → Decidable (s.Admits step)
  | .wait events => inferInstanceAs (Decidable (s.toServerLoop.Admits (.wait events)))
  | .accept clock connfd ret =>
    inferInstanceAs (Decidable (s.toServerLoop.Admits (.accept clock connfd ret)))
  | .tick clock => inferInstanceAs (Decidable (s.toServerLoop.Admits (.tick clock)))
  | .task _ _ _ _ => inferInstanceAs (Decidable (∀ _ ∈ _, _ → ∀ _ ∈ _, _))
  | .handle _ => inferInstanceAs (Decidable True)

/-- The answer that a service has for a request, built into a channel that was empty. -/
def Responds (gzip : Bytes → Bytes) (files : Bytes → File) (support : Bool)
    (a : Connection.Answered) (x : HttpResponseBuilder × Built) : Prop :=
  ∃ (service : Service gzip files support) (o : Outgoing), o.supportSendFile = support ∧
    x.1 = service.respond a ∧ x.1.build gzip files o.reset = .ok x.2

variable (gzip : Bytes → Bytes) (files : Bytes → File) (support : Bool)

/-- Every channel sends the answers to its own requests, in their order. -/
structure Recorded (k : ℕ) : Prop where
  answers : List.Forall₂ (Responds gzip files support) (s.answers k) (s.responses k)
  taken : s.taken k <+: stream (s.responses k)
  kept : ∀ x ∈ (s.responses k).dropLast, x.1.keepalive = true

/-- A channel that has sent all it had to. -/
structure Quiet (k : ℕ) : Prop where
  outgoing : ∃ o : Outgoing, s.outgoing k = .start o.reset ∧ o.supportSendFile = support
  sent : s.sent k = stream (s.responses k)
  kept : ∀ x ∈ s.responses k, x.1.keepalive = true

/-- A channel in the middle of an answer. -/
structure Busy (type : ChannelType) (keepAlive : Bool) (k : ℕ)
    (before : List (HttpResponseBuilder × Built)) (last : HttpResponseBuilder × Built) : Prop where
  responses : s.responses k = before ++ [last]
  sent : s.sent k = stream before
  kept : ∀ x ∈ before, x.1.keepalive = true
  keepAlive : last.1.keepalive = keepAlive
  sending : Delivery.Sending type last.2.channel.sender.peek last.2.channel.file (s.outgoing k)
  cflag : (s.outgoing k).cflag = false
  support : (s.outgoing k).channel.supportSendFile = support

/-- A connection that the kernel watches for input has nothing to send, and one that it
watches for output has. -/
structure Stands (fd : ℤ) (channel : Channel) : Prop where
  ssl : channel.type = .ssl → support = false
  quiet : s.poller fd = some .epollin → s.Quiet support channel.id
  busy : s.poller fd = some .epollout →
    ∃ before last, s.Busy support channel.type (s.conns fd).keepAlive channel.id before last

structure Truthful : Prop where
  apart : ∃ own object, s.Apart store own object
  https : s.enableHttps = true → support = false
  recorded : ∀ k, s.Recorded gzip files support k
  stands : ∀ fd channel, s.Serves fd channel → s.Stands support fd channel

/-- The server fails where the parser of one of its connections fails. -/
def Fails (store : HttpPassStore) (s : Serving) (e : Fault) : Prop :=
  ∃ k reads, Connection.run store .accepted (s.reads k ++ [reads]) = .error e

/-- What the two states hold for a channel is the same. -/
structure Same (s s' : Serving) (k : ℕ) : Prop where
  outgoing : s'.outgoing k = s.outgoing k
  sent : s'.sent k = s.sent k
  responses : s'.responses k = s.responses k
  answers : s'.answers k = s.answers k

variable {gzip : Bytes → Bytes} {files : Bytes → File} {support : Bool} {store : HttpPassStore}
  {s s' : Serving} {k : ℕ}

namespace Same

variable (h : Same s s' k)

include h

theorem recorded (hr : s.Recorded gzip files support k) : s'.Recorded gzip files support k where
  answers := by
    rw [h.answers, h.responses]
    exact hr.answers
  taken := by
    rw [Serving.taken, h.sent, h.outgoing, h.responses]
    exact hr.taken
  kept := by
    rw [h.responses]
    exact hr.kept

theorem quiet (hq : s.Quiet support k) : s'.Quiet support k where
  outgoing := by
    rw [h.outgoing]
    exact hq.outgoing
  sent := by
    rw [h.sent, h.responses]
    exact hq.sent
  kept := by
    rw [h.responses]
    exact hq.kept

theorem busy {type : ChannelType} {keepAlive : Bool}
    {before : List (HttpResponseBuilder × Built)} {last : HttpResponseBuilder × Built}
    (hb : s.Busy support type keepAlive k before last) :
    s'.Busy support type keepAlive k before last where
  responses := h.responses.trans hb.responses
  sent := h.sent.trans hb.sent
  kept := hb.kept
  keepAlive := hb.keepAlive
  sending := by
    rw [h.outgoing]
    exact hb.sending
  cflag := by
    rw [h.outgoing]
    exact hb.cflag
  support := by
    rw [h.outgoing]
    exact hb.support

theorem stands {fd : ℤ} {channel : Channel} (hk : channel.id = k)
    (hpoller : s'.poller fd = s.poller fd) (hconns : s'.conns fd = s.conns fd)
    (hs : s.Stands support fd channel) : s'.Stands support fd channel where
  ssl := hs.ssl
  quiet hin := hk ▸ h.quiet (hk ▸ hs.quiet (hpoller ▸ hin))
  busy hout := by
    obtain ⟨before, last, hbusy⟩ := hs.busy (hpoller ▸ hout)
    rw [hk] at hbusy ⊢
    rw [hconns]
    exact ⟨before, last, h.busy hbusy⟩

end Same

theorem Quiet.taken (hq : s.Quiet support k) : s.taken k = stream (s.responses k) := by
  obtain ⟨o, ho, -⟩ := hq.outgoing
  rw [Serving.taken, ho, hq.sent]
  exact List.append_nil _

theorem Quiet.recorded (hq : s.Quiet support k)
    (hanswers : List.Forall₂ (Responds gzip files support) (s.answers k) (s.responses k)) :
    s.Recorded gzip files support k :=
  ⟨hanswers, hq.taken ▸ List.prefix_rfl, fun x hx ↦ hq.kept x (List.mem_of_mem_dropLast hx)⟩

/-- The answer of a service can be built into a channel that has nothing to send, and is
then what the channel has to send. -/
theorem Quiet.respond {type : ChannelType} (hq : s.Quiet support k)
    (hssl : type = .ssl → support = false) (service : Service gzip files support)
    (a : Connection.Answered) :
    ∃ built, (service.respond a).build gzip files (s.outgoing k).channel = .ok built ∧
      Responds gzip files support a (service.respond a, built) ∧
      ∀ s' : Serving, s'.outgoing k = .start built.channel → s'.sent k = s.sent k →
        s'.responses k = s.responses k ++ [(service.respond a, built)] →
        s'.Busy support type a.2.keepalive k (s.responses k) (service.respond a, built) := by
  obtain ⟨o, houtgoing, hsupport⟩ := hq.outgoing
  obtain ⟨built, hbuild, hbuilt, hsender, -⟩ := (service.readable a).read_stream hsupport
  have hfilled := build_filled hbuild
  have hfresh : Delivery.Fresh type built.channel built.channel.sender.peek built.channel.file :=
    Delivery.fresh_stream hfilled.counters hfilled.mapped hfilled.file fun ht ↦
      hfilled.support (hsupport.trans (hssl ht))
  refine ⟨built, ?_, ⟨service, o, hsupport, rfl, hbuild⟩, fun s' ho hsent hresponses ↦ ?_⟩
  · rw [houtgoing]
    exact hbuild
  · exact {
      responses := hresponses
      sent := hsent.trans hq.sent
      kept := hq.kept
      keepAlive := service.keepalive a
      sending := ho ▸ hfresh.sending hsender
      cflag := by
        rw [ho]
        rfl
      support := by
        rw [ho]
        exact hbuilt }

/-- Once the flag is raised, all the answers have been sent. -/
theorem Busy.sent_all {type : ChannelType} {keepAlive : Bool}
    {before : List (HttpResponseBuilder × Built)} {last : HttpResponseBuilder × Built}
    (hb : s.Busy support type keepAlive k before last) {d : Delivery}
    (hsending : Delivery.Sending type last.2.channel.sender.peek last.2.channel.file d)
    (hc : d.cflag = true) : s.sent k ++ d.accepted = stream (s.responses k) := by
  rw [hb.sent, hb.responses, stream, stream, List.flatMap_append, List.flatMap_singleton,
    hsending.flag.mp hc]
  rfl

theorem Busy.kept_all {type : ChannelType} {before : List (HttpResponseBuilder × Built)}
    {last : HttpResponseBuilder × Built} (hb : s.Busy support type true k before last) :
    ∀ x ∈ s.responses k, x.1.keepalive = true := by
  intro x hx
  rw [hb.responses] at hx
  rcases List.mem_append.mp hx with hx | hx
  · exact hb.kept x hx
  · rw [List.mem_singleton.mp hx]
    exact hb.keepAlive

theorem Busy.recorded {type : ChannelType} {keepAlive : Bool}
    {before : List (HttpResponseBuilder × Built)} {last : HttpResponseBuilder × Built}
    (hb : s.Busy support type keepAlive k before last)
    (hanswers : List.Forall₂ (Responds gzip files support) (s.answers k) (s.responses k)) :
    s.Recorded gzip files support k where
  answers := hanswers
  taken := by
    rw [Serving.taken, hb.sent, hb.responses, stream, stream, List.flatMap_append,
      List.flatMap_singleton]
    exact (List.prefix_append_right_inj _).mpr hb.sending.accepted
  kept := by
    rw [hb.responses, List.dropLast_concat]
    exact hb.kept

theorem onWrite_eq (store : HttpPassStore) (i : ℕ) {channel : Channel} (err : ℤ) {taken : List ℕ}
    {d : Delivery} {all : Bool}
    (hwrite : (s.outgoing channel.id).write channel.type taken = .ok (d, all)) :
    s.onWrite store i channel err taken =
      (s.toServerLoop.next store (.task i (.wrote all err))).map fun server ↦
        if all then { s with
          toServerLoop := server
          outgoing := Function.update s.outgoing channel.id (.start d.channel.reset)
          sent := Function.update s.sent channel.id (s.sent channel.id ++ d.accepted) }
        else { s with
          toServerLoop := server
          outgoing := Function.update s.outgoing channel.id d } := by
  rw [Serving.onWrite, hwrite]
  change (do
    let s' ← s.lift store (.task i (.wrote all err))
    _) = _
  rw [lift]
  cases s.toServerLoop.next store (.task i (.wrote all err)) with
  | error e => rfl
  | ok server => rfl

namespace Truthful

variable (h : s.Truthful store gzip files support)

include h

/-- A step that goes on with one channel. -/
theorem of_channel (k₀ : ℕ) (hapart : ∃ own object, s'.Apart store own object)
    (hhttps : s'.enableHttps = s.enableHttps) (hsame : ∀ k, k ≠ k₀ → Same s s' k)
    (hrecorded : s'.Recorded gzip files support k₀)
    (hmine : ∀ fd channel, s'.Serves fd channel → channel.id = k₀ → s'.Stands support fd channel)
    (hothers : ∀ fd channel, s'.Serves fd channel → channel.id ≠ k₀ →
      s.Serves fd channel ∧ s'.poller fd = s.poller fd ∧ s'.conns fd = s.conns fd) :
    s'.Truthful store gzip files support where
  apart := hapart
  https := by
    rw [hhttps]
    exact h.https
  recorded k := by
    by_cases hk : k = k₀
    · rw [hk]
      exact hrecorded
    · exact (hsame k hk).recorded (h.recorded k)
  stands fd channel hserves := by
    by_cases hk : channel.id = k₀
    · exact hmine fd channel hserves hk
    · obtain ⟨hold, hpoller, hconns⟩ := hothers fd channel hserves hk
      exact (hsame _ hk).stands rfl hpoller hconns (h.stands fd channel hold)

/-- A step that leaves the connections that remain, and the channels but one that none of
them has. -/
theorem of_keeps (k₀ : ℕ) (hapart : ∃ own object, s'.Apart store own object)
    (hhttps : s'.enableHttps = s.enableHttps)
    (hkeeps : EventLoop.Keeps s.toEventLoop s'.toEventLoop)
    (hsame : ∀ k, k ≠ k₀ → Same s s' k) (hrecorded : s'.Recorded gzip files support k₀)
    (hdead : ∀ fd channel, s'.Serves fd channel → channel.id ≠ k₀) :
    s'.Truthful store gzip files support :=
  h.of_channel k₀ hapart hhttps hsame hrecorded
    (fun _ _ hserves hk ↦ absurd hk (hdead _ _ hserves))
    fun fd _ hserves _ ↦ ⟨ServerLoop.serves_of_keeps hkeeps hserves,
      hkeeps.poller fd hserves.1, hkeeps.conns fd hserves.1⟩

/-- A step of the loop that leaves the connections that remain. -/
theorem of_lift {step : ServerLoop.Step} {loopStep : EventLoop.Step}
    (hadmits : s.toServerLoop.Admits step)
    (hnext : s.toServerLoop.next store step = s.toServerLoop.lift loopStep)
    (hkeeps : ∀ loop, s.toEventLoop.next loopStep = .ok loop →
      EventLoop.Keeps s.toEventLoop loop) :
    (∃ e, s.lift store step = .error e ∧ Fails store s e) ∨
      ∃ s', s.lift store step = .ok s' ∧ s'.Truthful store gzip files support := by
  obtain ⟨own, object, ha⟩ := h.apart
  rcases ha.next hadmits with ⟨e, k, reads, he, hrun⟩ | ⟨server, hserver, own', object', ha'⟩
  · refine .inl ⟨e, ?_, k, reads, hrun⟩
    rw [lift, he]
    rfl
  · refine .inr ⟨{ s with toServerLoop := server }, ?_, ?_⟩
    · rw [lift, hserver]
      rfl
    · rw [hnext] at hserver
      obtain ⟨loop, hloop, hserver⟩ := bind_eq_ok.mp hserver
      cases hserver
      have hsame (k : ℕ) : Same s { s with toEventLoop := loop } k := ⟨rfl, rfl, rfl, rfl⟩
      exact h.of_keeps s.allocated ⟨own', object', ha'⟩ (EventLoop.enableHttps_next hloop)
        (hkeeps loop hloop) (fun k _ ↦ hsame k) ((hsame _).recorded (h.recorded _))
        fun fd channel hserves ↦
          (ha.id_lt fd channel (ServerLoop.serves_of_keeps (hkeeps loop hloop) hserves)).ne

theorem wait {events : List (ℤ × Revents)} (hadmits : s.toServerLoop.Admits (.wait events)) :
    (∃ e, s.lift store (.wait events) = .error e ∧ Fails store s e) ∨
      ∃ s', s.lift store (.wait events) = .ok s' ∧ s'.Truthful store gzip files support := by
  obtain ⟨own, object, ha⟩ := h.apart
  exact h.of_lift hadmits rfl fun loop hloop ↦
    (EventLoop.HandedOver.wait_keeps ha.asked hadmits.2 hloop).1

theorem handle (clock : TimeStamp.Clock) :
    (∃ e, s.lift store (.handle clock) = .error e ∧ Fails store s e) ∨
      ∃ s', s.lift store (.handle clock) = .ok s' ∧ s'.Truthful store gzip files support := by
  obtain ⟨own, object, ha⟩ := h.apart
  exact h.of_lift trivial rfl fun loop hloop ↦ (ha.handedOver.handle_keeps ha.asked hloop).1

theorem tick {clock : TimeStamp.Clock} (hadmits : s.toServerLoop.Admits (.tick clock)) :
    (∃ e, s.lift store (.tick clock) = .error e ∧ Fails store s e) ∨
      ∃ s', s.lift store (.tick clock) = .ok s' ∧ s'.Truthful store gzip files support := by
  obtain ⟨own, object, ha⟩ := h.apart
  exact h.of_lift hadmits rfl fun loop hloop ↦ (ha.handedOver.tick_keeps ha.asked hadmits hloop).1

/-- Nothing has been answered on a channel that is not allocated. -/
theorem unallocated {k : ℕ} (hk : s.allocated ≤ k) :
    s.responses k = [] ∧ s.sent k = [] := by
  obtain ⟨own, object, ha⟩ := h.apart
  have hresponses : s.responses k = [] := by
    have hall := (h.recorded k).answers
    rw [ha.answers_of_le hk] at hall
    exact List.forall₂_nil_left_iff.mp hall
  have htaken := (h.recorded k).taken
  rw [hresponses] at htaken
  exact ⟨hresponses, (List.append_eq_nil_iff.mp (List.prefix_nil.mp htaken)).1⟩

/-- The channel of a new connection has nothing to send. -/
theorem begins {fd₀ : ℤ} {type : ChannelType} (hapart : ∃ own object, s'.Apart store own object)
    (hhttps : s'.enableHttps = s.enableHttps) (hssl : type = .ssl → s.enableHttps = true)
    (hconns : s'.conns = Function.update s.conns fd₀ ⟨fd₀, false, false, some ⟨s.allocated, type⟩⟩)
    (hpoller : s'.poller = Function.update s.poller fd₀ (some .epollin))
    (houtgoing : s'.outgoing =
      Function.update s.outgoing s.allocated (.start (channel support)))
    (hsent : s'.sent = s.sent) (hresponses : s'.responses = s.responses) (hlog : s'.log = s.log) :
    s'.Truthful store gzip files support := by
  obtain ⟨own, object, ha⟩ := h.apart
  obtain ⟨hnone, hempty⟩ := h.unallocated le_rfl
  have hanswers (k : ℕ) : s'.answers k = s.answers k := by
    rw [ServerLoop.answers, ServerLoop.readings, hlog]
    rfl
  have hquiet : s'.Quiet support s.allocated := by
    refine ⟨⟨channel support, ?_, rfl⟩, ?_, fun x hx ↦ ?_⟩
    · rw [houtgoing, Function.update_self]
      rfl
    · rw [hsent, hresponses, hnone, hempty]
      rfl
    · rw [hresponses, hnone] at hx
      cases hx
  have hrecorded : s'.Recorded gzip files support s.allocated := by
    refine hquiet.recorded ?_
    rw [hanswers, hresponses]
    exact (h.recorded _).answers
  have hfd (fd : ℤ) (channel : Channel) (hserves : s'.Serves fd channel) (hne : fd ≠ fd₀) :
      s.Serves fd channel ∧ s'.conns fd = s.conns fd := by
    have hconn : s'.conns fd = s.conns fd := by rw [hconns, Function.update_of_ne hne]
    exact ⟨(ServerLoop.serves_of_conns hconn).mp hserves, hconn⟩
  refine h.of_channel s.allocated hapart hhttps (fun k hk ↦ ?_) hrecorded
    (fun fd channel hserves hid ↦ ?_) fun fd channel hserves hid ↦ ?_
  · exact ⟨by rw [houtgoing, Function.update_of_ne hk], by rw [hsent], by rw [hresponses],
      hanswers k⟩
  · have hslot : fd = fd₀ := by
      by_contra hne
      exact (ha.id_lt fd channel (hfd fd channel hserves hne).1).ne hid
    subst hslot
    have hchannel := hserves.2
    rw [hconns, Function.update_self] at hchannel
    refine ⟨fun ht ↦ h.https (hssl ?_), fun _ ↦ hid ▸ hquiet, fun hout ↦ ?_⟩
    · rw [← ht, ← Option.some.inj hchannel]
    · rw [hpoller, Function.update_self] at hout
      cases hout
  · have hslot : fd ≠ fd₀ := fun heq ↦ hid ?_
    · obtain ⟨hold, hconn⟩ := hfd fd channel hserves hslot
      exact ⟨hold, by rw [hpoller, Function.update_of_ne hslot], hconn⟩
    · have hchannel := hserves.2
      rw [heq, hconns, Function.update_self] at hchannel
      rw [← Option.some.inj hchannel]

theorem accept {clock : TimeStamp.Clock} {connfd ret : ℤ}
    (hfree : s.toServerLoop.Admits (.accept clock connfd ret)) :
    (∃ e, s.next store (.accept clock connfd ret : Step gzip files support) = .error e ∧
        Fails store s e) ∨
      ∃ s', s.next store (.accept clock connfd ret : Step gzip files support) = .ok s' ∧
        s'.Truthful store gzip files support := by
  obtain ⟨own, object, ha⟩ := h.apart
  rcases ha.next hfree with ⟨e, k, reads, he, hrun⟩ | ⟨server, hserver, own', object', ha'⟩
  · refine .inl ⟨e, ?_, k, reads, hrun⟩
    simp only [Serving.next, lift, he]
    rfl
  · have hs : s.next store (.accept clock connfd ret : Step gzip files support) =
        .ok (if Activity.Accepted s.enableHttps connfd ret then { s with
          toServerLoop := server
          outgoing := Function.update s.outgoing s.allocated (.start (channel support)) }
        else { s with toServerLoop := server }) := by
      simp only [Serving.next, lift, hserver]
      rfl
    refine .inr ⟨_, hs, ?_⟩
    obtain ⟨s₁, hs₁, hserver⟩ := bind_eq_ok.mp hserver
    obtain ⟨loop, hloop, hs₁⟩ := bind_eq_ok.mp hs₁
    cases hs₁
    have hhttps := EventLoop.enableHttps_next hloop
    obtain ⟨-, ⟨hacc, hkeeps⟩ | ⟨hacc, type, hssl, hconns, hpoller, halloc⟩⟩ :=
      ha.handedOver.accept_cases ha.asked hfree hloop
    · rw [ServerLoop.connected, if_neg hacc] at hserver
      cases hserver
      rw [if_neg hacc]
      have hsame (k : ℕ) : Same s { s with toEventLoop := loop } k := ⟨rfl, rfl, rfl, rfl⟩
      exact h.of_keeps s.allocated ⟨own', object', ha'⟩ hhttps hkeeps (fun k _ ↦ hsame k)
        ((hsame _).recorded (h.recorded _)) fun fd channel hserves ↦
          (ha.id_lt fd channel (ServerLoop.serves_of_keeps hkeeps hserves)).ne
    · rw [ServerLoop.connected, if_pos hacc] at hserver
      cases hserver
      rw [if_pos hacc]
      exact h.begins ⟨own', object', ha'⟩ hhttps hssl hconns hpoller rfl rfl rfl rfl

section Task

variable {i : ℕ} {task : Task} {channel : Channel} {out : Outcome}
variable (htask : s.tasks[i]? = some task)
  (hchannel : (s.conns task.slot).channel = some channel)

include htask hchannel

/-- A task goes on with its own channel, unless it closes the connection. -/
theorem of_task (hapart : ∃ own object, s'.Apart store own object)
    (hnext : s.toEventLoop.next (.task i out) = .ok s'.toEventLoop)
    (hsame : ∀ k, k ≠ channel.id → Same s s' k)
    (hrecorded : s'.Recorded gzip files support channel.id)
    (hquiet : ¬ Closes (s.conns task.slot) channel.type out task.kind →
      (resumes (s.conns task.slot) out task.kind).2 = .epollin → s'.Quiet support channel.id)
    (hbusy : ¬ Closes (s.conns task.slot) channel.type out task.kind →
      (resumes (s.conns task.slot) out task.kind).2 = .epollout → ∃ before last,
        s'.Busy support channel.type (resumes (s.conns task.slot) out task.kind).1 channel.id
          before last) :
    s'.Truthful store gzip files support := by
  obtain ⟨own, object, ha⟩ := h.apart
  have hserves := ha.serves_task htask hchannel
  have hhttps := EventLoop.enableHttps_next hnext
  obtain ⟨-, -, ⟨-, hkeeps, hdead⟩ | ⟨hcloses, hconns, hpoller⟩⟩ :=
    ha.handedOver.task_cases ha.asked htask hchannel hnext
  · refine h.of_keeps channel.id hapart hhttps hkeeps hsame hrecorded fun fd channel' hserves' hid ↦ ?_
    have hslot : fd = task.slot := ha.id_inj fd task.slot channel' channel
      (ServerLoop.serves_of_keeps hkeeps hserves') hserves hid
    exact hdead (hslot ▸ hserves'.1)
  · have hfd (fd : ℤ) (channel' : Channel) (hserves' : s'.Serves fd channel')
        (hne : fd ≠ task.slot) : s.Serves fd channel' ∧ s'.conns fd = s.conns fd := by
      have hconn : s'.conns fd = s.conns fd := by rw [hconns, Function.update_of_ne hne]
      exact ⟨(ServerLoop.serves_of_conns hconn).mp hserves', hconn⟩
    refine h.of_channel channel.id hapart hhttps hsame hrecorded (fun fd channel' hserves' hid ↦ ?_)
      fun fd channel' hserves' hid ↦ ?_
    · have hslot : fd = task.slot := by
        by_contra hne
        exact hne (ha.id_inj fd task.slot channel' channel (hfd fd channel' hserves' hne).1
          hserves hid)
      subst hslot
      have hchannel' := hserves'.2
      simp only [hconns, Function.update_self, hchannel, Option.some.injEq] at hchannel'
      subst hchannel'
      refine ⟨(h.stands _ _ hserves).ssl, fun hin ↦ ?_, fun hout ↦ ?_⟩
      · rw [hpoller, Function.update_self, Option.some.injEq] at hin
        exact hquiet hcloses hin
      · rw [hpoller, Function.update_self, Option.some.injEq] at hout
        rw [hconns, Function.update_self]
        exact hbusy hcloses hout
    · have hslot : fd ≠ task.slot := fun heq ↦ hid ?_
      · obtain ⟨hold, hconn⟩ := hfd fd channel' hserves' hslot
        exact ⟨hold, by rw [hpoller, Function.update_of_ne hslot], hconn⟩
      · have hchannel' := hserves'.2
        rw [heq, hconns, Function.update_self] at hchannel'
        rw [Option.some.inj (hchannel.symm.trans hchannel')]

/-- An answer is built into a channel that has nothing to send. -/
theorem read (service : Service gzip files support) {calls : Calls} {server : ServerLoop}
    (hkind : task.kind = .onRead) (hapart : ∃ own object, server.Apart store own object)
    (hserver : s.toServerLoop.next store (.task i calls) = .ok server) :
    ∃ s', respond { s with toServerLoop := server } service channel.id (s.answered server) =
      .ok s' ∧ s'.Truthful store gzip files support := by
  obtain ⟨own, object, ha⟩ := h.apart
  obtain ⟨s₁, out, hperform, hlog, hnext⟩ := ServerLoop.next_task htask hchannel hserver
  rw [ServerLoop.perform, hkind] at hperform
  obtain ⟨hloop, hcases⟩ := ServerLoop.onRead_cases hperform
  rw [hloop] at hnext
  have hin : s.poller task.slot = some .epollin := by
    rw [ha.asked.tasks task (List.mem_of_getElem? htask), hkind]
    rfl
  have hquiet := (h.stands _ _ (ha.serves_task htask hchannel)).quiet hin
  rcases hcases with ⟨hcloses, hlog₁⟩ | ⟨-, answered, hlog₁, hresumes⟩
  · have hnone : s.answered server = none := by
      rw [Serving.answered, hlog, hlog₁, List.drop_length]
      rfl
    have hsame (k : ℕ) : Same s { s with toServerLoop := server } k :=
      ⟨rfl, rfl, rfl, by
        change server.answers k = s.answers k
        rw [ServerLoop.answers, ServerLoop.readings, hlog, hlog₁]
        rfl⟩
    rw [hnone]
    refine ⟨_, rfl, h.of_task htask hchannel hapart hnext (fun k _ ↦ hsame k)
      ((hsame _).recorded (h.recorded _)) (fun hopen ↦ ?_) fun hopen ↦ ?_⟩
    · exact absurd hcloses (hkind ▸ hopen)
    · exact absurd hcloses (hkind ▸ hopen)
  · have hanswers (k : ℕ) : server.answers k =
        s.answers k ++ if channel.id = k then answered.toList else [] :=
      ServerLoop.answers_of_log (hlog.trans hlog₁)
    have hanswered : s.answered server = answered := by
      rw [Serving.answered, hlog, hlog₁, List.drop_left]
      rfl
    rw [hanswered]
    cases answered with
    | none =>
      have hsame (k : ℕ) : Same s { s with toServerLoop := server } k :=
        ⟨rfl, rfl, rfl, (hanswers k).trans (by rw [Option.toList_none, ite_self, List.append_nil])⟩
      refine ⟨_, rfl, h.of_task htask hchannel hapart hnext (fun k _ ↦ hsame k)
        ((hsame _).recorded (h.recorded _)) (fun _ _ ↦ (hsame _).quiet hquiet) fun _ hout ↦ ?_⟩
      rw [hkind, hresumes] at hout
      cases hout
    | some a =>
      obtain ⟨built, hbuild, hresponds, hbusy⟩ :=
        hquiet.respond (h.stands _ _ (ha.serves_task htask hchannel)).ssl service a
      let s' : Serving := { s with
        toServerLoop := server
        outgoing := Function.update s.outgoing channel.id (.start built.channel)
        responses := Function.update s.responses channel.id
          (s.responses channel.id ++ [(service.respond a, built)]) }
      have hresponses : s'.responses channel.id =
          s.responses channel.id ++ [(service.respond a, built)] := Function.update_self _ _ _
      have hbusy' := hbusy s' (Function.update_self _ _ _) rfl hresponses
      have hall : List.Forall₂ (Responds gzip files support) (s'.answers channel.id)
          (s'.responses channel.id) := by
        rw [hresponses]
        change List.Forall₂ _ (server.answers channel.id) _
        rw [hanswers, if_pos rfl]
        exact List.rel_append (h.recorded _).answers (.cons hresponds .nil)
      refine ⟨s', ?_, h.of_task htask hchannel hapart hnext (fun k hk ↦ ?_) (hbusy'.recorded hall)
        (fun _ hin ↦ ?_) fun _ _ ↦ ?_⟩
      · simp only [respond, hbuild]
        rfl
      · refine ⟨Function.update_of_ne hk _ _, rfl, Function.update_of_ne hk _ _, ?_⟩
        exact (hanswers k).trans (by rw [if_neg (Ne.symm hk), List.append_nil])
      · rw [hkind, hresumes] at hin
        cases hin
      · rw [hkind, hresumes]
        exact ⟨_, _, hbusy'⟩

/-- A task of `onWrite` goes on with the answer, and keeps the channel for the next one only
when all of it has been sent. -/
theorem write (err : ℤ) {taken : List ℕ} (hkind : task.kind = .onWrite)
    (haccepts : Accepts channel.type (s.outgoing channel.id) taken) :
    (∃ e, s.onWrite store i channel err taken = .error e ∧ Fails store s e) ∨
      ∃ s', s.onWrite store i channel err taken = .ok s' ∧
        s'.Truthful store gzip files support := by
  obtain ⟨own, object, ha⟩ := h.apart
  have hout : s.poller task.slot = some .epollout := by
    rw [ha.asked.tasks task (List.mem_of_getElem? htask), hkind]
    rfl
  obtain ⟨before, last, hbusy⟩ := (h.stands _ _ (ha.serves_task htask hchannel)).busy hout
  obtain ⟨d, hwrite, hsending, hsupport⟩ := hbusy.sending.write hbusy.cflag haccepts
  rcases ha.task i (.wrote d.cflag err) with
    ⟨e, k, reads, he, hrun⟩ | ⟨server, hserver, hapart⟩
  · refine .inl ⟨e, ?_, k, reads, hrun⟩
    rw [onWrite_eq store i err hwrite, he]
    rfl
  · obtain ⟨s₁, out, hperform, hlog, hnext⟩ := ServerLoop.next_task htask hchannel hserver
    rw [ServerLoop.perform, hkind] at hperform
    have hpair := Except.ok.inj hperform
    obtain rfl : s₁ = (s.toServerLoop.onWrite task.slot channel (.wrote d.cflag err)).1 :=
      (congrArg Prod.fst hpair).symm
    obtain rfl : out = (s.toServerLoop.onWrite task.slot channel (.wrote d.cflag err)).2 :=
      (congrArg Prod.snd hpair).symm
    obtain ⟨hloop, hlog₁⟩ :=
      ServerLoop.onWrite_frame (s := s.toServerLoop) task.slot channel (.wrote d.cflag err)
    rw [hloop] at hnext
    rw [hlog₁] at hlog
    have hanswers (k : ℕ) : server.answers k = s.answers k := by
      rw [ServerLoop.answers, ServerLoop.readings, hlog]
      rfl
    have hon := onWrite_eq store i err hwrite
    rw [hserver] at hon
    refine .inr ⟨_, hon, ?_⟩
    cases hc : d.cflag with
    | true =>
      rw [hc] at hnext
      let s' : Serving := { s with
        toServerLoop := server
        outgoing := Function.update s.outgoing channel.id (.start d.channel.reset)
        sent := Function.update s.sent channel.id (s.sent channel.id ++ d.accepted) }
      have hself : s'.outgoing channel.id = .start d.channel.reset := Function.update_self _ _ _
      have hsent : s'.sent channel.id = stream (s.responses channel.id) :=
        (Function.update_self _ _ _).trans (hbusy.sent_all hsending hc)
      have hrecorded : s'.Recorded gzip files support channel.id := by
        refine ⟨(hanswers channel.id).symm ▸ (h.recorded channel.id).answers, ?_,
          (h.recorded channel.id).kept⟩
        rw [Serving.taken, hself, hsent]
        exact (List.append_nil _).symm ▸ List.prefix_rfl
      refine h.of_task htask hchannel hapart hnext (fun k hk ↦ ?_) hrecorded
        (fun hcloses _ ↦ ?_) fun _ hout ↦ ?_
      · exact ⟨Function.update_of_ne hk _ _, Function.update_of_ne hk _ _, rfl, hanswers k⟩
      · -- the connection is kept, so that this answer has been one of them
        have halive : (s.conns task.slot).keepAlive = true := by
          by_contra hno
          rw [hkind] at hcloses
          exact hcloses ⟨fun hk ↦ hno hk.2, fun hneg ↦ hneg.1.ne rfl⟩
        rw [halive] at hbusy
        exact ⟨⟨d.channel, hself, hsupport.trans hbusy.support⟩, hsent, hbusy.kept_all⟩
      · rw [hkind] at hout
        cases hout
    | false =>
      rw [hc] at hnext
      let s' : Serving := { s with
        toServerLoop := server
        outgoing := Function.update s.outgoing channel.id d }
      have hself : s'.outgoing channel.id = d := Function.update_self _ _ _
      have hbusy' : s'.Busy support channel.type (s.conns task.slot).keepAlive channel.id before
          last :=
        ⟨hbusy.responses, hbusy.sent, hbusy.kept, hbusy.keepAlive, hself ▸ hsending, hself ▸ hc,
          by rw [hself, hsupport, hbusy.support]⟩
      refine h.of_task htask hchannel hapart hnext (fun k hk ↦ ?_)
        (hbusy'.recorded ((hanswers channel.id).symm ▸ (h.recorded channel.id).answers))
        (fun _ hin ↦ ?_) fun _ _ ↦ ?_
      · exact ⟨Function.update_of_ne hk _ _, rfl, rfl, hanswers k⟩
      · rw [hkind] at hin
        cases hin
      · rw [hkind]
        exact ⟨_, _, hbusy'⟩

end Task

theorem task (i : ℕ) (calls : Calls) (taken : List ℕ) (service : Service gzip files support)
    (hadmits : s.Admits (.task i calls taken service)) :
    (∃ e, s.next store (.task i calls taken service) = .error e ∧ Fails store s e) ∨
      ∃ s', s.next store (.task i calls taken service) = .ok s' ∧
        s'.Truthful store gzip files support := by
  obtain ⟨own, object, ha⟩ := h.apart
  cases htask : s.tasks[i]? with
  | none =>
    refine .inr ⟨s, ?_, h⟩
    simp only [Serving.next, htask]
  | some task =>
    obtain ⟨channel, hchannel⟩ := ha.handedOver.channel_of_task htask
    cases hkind : task.kind with
    | onRead =>
      simp only [Serving.next, htask, hchannel, hkind]
      rcases ha.task i calls with
        ⟨e, k, reads, he, hrun⟩ | ⟨server, hserver, hapart⟩
      · refine .inl ⟨e, ?_, k, reads, hrun⟩
        rw [Serving.onRead, lift, he]
        rfl
      · obtain ⟨s', hrespond, hs'⟩ := h.read htask hchannel service hkind hapart hserver
        refine .inr ⟨s', ?_, hs'⟩
        rw [Serving.onRead, lift, hserver, ← hrespond]
        rfl
    | onWrite =>
      simp only [Serving.next, htask, hchannel, hkind]
      exact h.write htask hchannel calls.err hkind (hadmits task htask hkind channel hchannel)

theorem next {step : Step gzip files support} (hadmits : s.Admits step) :
    (∃ e, s.next store step = .error e ∧ Fails store s e) ∨
      ∃ s', s.next store step = .ok s' ∧ s'.Truthful store gzip files support := by
  cases step with
  | wait events => exact h.wait hadmits
  | handle clock => exact h.handle clock
  | accept clock connfd ret => exact h.accept hadmits
  | tick clock => exact h.tick hadmits
  | task i calls taken service => exact h.task i calls taken service hadmits

end Truthful

theorem truthful_init (idleTimeout : Int32) (sendfile enableHttps : Bool) :
    (init idleTimeout sendfile enableHttps).Truthful store gzip files
      (supports sendfile enableHttps) where
  apart := ⟨_, _, ServerLoop.apart_init store idleTimeout enableHttps⟩
  https hhttps := by
    change enableHttps = true at hhttps
    rw [supports, hhttps, Bool.not_true, Bool.and_false]
  recorded _ := ⟨.nil, List.nil_prefix, fun _ hx ↦ nomatch hx⟩
  stands _ _ hserves := absurd (.inr rfl) hserves.1

/-- The client reads from the stream of the answers what was built for it. -/
theorem readAll_stream {as : List Connection.Answered} {xs : List (HttpResponseBuilder × Built)}
    (hall : List.Forall₂ (Responds gzip files support) as xs)
    (hkept : ∀ x ∈ xs.dropLast, x.1.keepalive = true) :
    Received.readAll (xs.map (·.1.method)) (stream xs) = some (xs.map (received gzip files)) := by
  induction hall with
  | nil => rfl
  | @cons a x as xs hx hall ih =>
    obtain ⟨service, o, hsupport, hb, hbuild⟩ := hx
    obtain ⟨built, hbuilt, -, -, hread⟩ := (service.readable a).read_stream hsupport
    rw [← hb, hbuild] at hbuilt
    cases hbuilt
    rw [← hb] at hread
    have hstream : stream (x :: xs) = x.2.channel.stream ++ stream xs := List.flatMap_cons
    cases hk : x.1.keepalive with
    | true =>
      have hnext := hread (stream xs) fun hno ↦ by
        rw [hk] at hno
        cases hno
      have hrest := ih fun y hy ↦ hkept y (by
        rw [List.dropLast_cons_of_ne_nil (List.ne_nil_of_mem (List.mem_of_mem_dropLast hy))]
        exact List.mem_cons_of_mem _ hy)
      rw [hstream, List.map_cons, Received.readAll, hnext]
      simp [received, hk, hrest]
    | false =>
      have hnil : xs = [] := by
        by_contra hne
        rw [List.dropLast_cons_of_ne_nil hne] at hkept
        rw [hkept x List.mem_cons_self] at hk
        cases hk
      subst hnil
      have hnext := hread [] fun _ ↦ rfl
      rw [hstream, List.map_cons, Received.readAll, stream, List.flatMap_nil, hnext]
      simp [received, hk]

theorem Busy.taken_ne {type : ChannelType} {keepAlive : Bool}
    {before : List (HttpResponseBuilder × Built)} {last : HttpResponseBuilder × Built}
    (hb : s.Busy support type keepAlive k before last) : s.taken k ≠ stream (s.responses k) := by
  intro heq
  rw [Serving.taken, hb.sent, hb.responses, stream, stream, List.flatMap_append,
    List.flatMap_singleton, List.append_cancel_left_eq] at heq
  have hflag := hb.sending.flag.mpr heq
  rw [hb.cflag] at hflag
  cases hflag

variable (store : HttpPassStore) (idleTimeout : Int32) (sendfile enableHttps : Bool)
  (steps : List (Step gzip files (supports sendfile enableHttps)))
  (hrun : Lib.Run.Throughout (next store) Admits (init idleTimeout sendfile enableHttps) steps)

include hrun

theorem run_truthful :
    (∀ s, Lib.Run.Reaches (next store) (init idleTimeout sendfile enableHttps) steps s →
      s.Truthful store gzip files (supports sendfile enableHttps)) ∧
    ∀ e, steps.foldlM (next store) (init idleTimeout sendfile enableHttps) = .error e →
      ∃ s, Lib.Run.Reaches (next store) (init idleTimeout sendfile enableHttps) steps s ∧
        Fails store s e :=
  hrun.invariant_or (fun _ _ h hadmits ↦ h.next hadmits)
    (truthful_init idleTimeout sendfile enableHttps)

omit hrun

/-- It greets every client. -/
def greets (support : Bool) : Service id (fun _ ↦ ⟨[], []⟩) support where
  respond a := greeting .http11 (a.2.method.getD .get) a.2.keepalive
  method a method hm := by
    rw [hm]
    rfl
  keepalive _ := rfl
  readable _ := readable_greeting _ _ _ _

/-- The answer to the first client is sent in two parts, and the other is answered in
between. -/
def twoClients (clock : TimeStamp.Clock) :
    List (Step id (fun _ ↦ ⟨[], []⟩) (supports true false)) :=
  [.accept clock 5 0, .accept clock 6 0, .wait [(5, ⟨false, true, false⟩), (6, ⟨false, true, false⟩)],
    .handle clock, .handle clock,
    .task 1 (.blocked [ascii "HEAD /b HTTP/1.1\r\nHo"]) [] (greets _),
    .task 0 (.blocked [ascii "GET /a HTTP/1.1\r\n", ascii "\r\n"]) [] (greets _),
    .wait [(6, ⟨false, true, false⟩), (5, ⟨false, false, true⟩)], .handle clock, .handle clock,
    .task 1 (.blocked []) [40] (greets _),
    .task 0 (.blocked [ascii "st: c\r\n\r\n"]) [] (greets _),
    .wait [(5, ⟨false, false, true⟩)], .handle clock, .task 0 (.blocked []) [20, 23] (greets _)]

theorem throughout_twoClients :
    Lib.Run.Throughout (next ⟨id, [], ∅⟩) Admits (init 2000 true false) (twoClients 0) := by
  decide +kernel

end Serving

end Socnet.Http
