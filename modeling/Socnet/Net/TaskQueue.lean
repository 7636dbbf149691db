import Socnet.Net.IdleConnections

namespace Socnet.Net

namespace Connections

variable {c : Connections} {slot fd : ℤ} {out : Outcome}

def Closes (conn : TcpConnection) (type : ChannelType) (out : Outcome) : TaskKind → Prop
  | .onRead => out.n ≤ 0 ∧ (TcpConnection.readAgain type out.n out.err).2 = false
  | .onWrite => ¬ (out.n = 0 ∧ conn.keepAlive = true) ∧ ¬ (out.n < 0 ∧ out.err ≠ 0)

instance (conn : TcpConnection) (type : ChannelType) (out : Outcome) :
    DecidablePred (Closes conn type out)
  | .onRead => inferInstanceAs (Decidable (_ ∧ _))
  | .onWrite => inferInstanceAs (Decidable (_ ∧ _))

def perform (slot : ℤ) (type : ChannelType) (out : Outcome) (c : Connections) :
    TaskKind → Connections
  | .onRead => c.onRead slot type out
  | .onWrite => c.onWrite slot out

theorem onWrite_eq : c.onWrite slot out =
    if out.n = 0 then
      if (c.conns slot).keepAlive = true then
        c.updateEvent (c.conns slot).connfd (if out.cflag then .epollin else .epollout)
      else c.handleConnectionClose slot
    else if out.n < 0 then
      if out.err ≠ 0 then c.updateEvent (c.conns slot).connfd .epollout
      else c.handleConnectionClose slot
    else c.handleConnectionClose slot := rfl

/-- A task that does not close its connection changes no more of it than whether
it is kept alive. -/
theorem perform_cases (c : Connections) (slot : ℤ) (type : ChannelType) (out : Outcome)
    (kind : TaskKind) :
    Closes (c.conns slot) type out kind ∧
        c.perform slot type out kind = c.handleConnectionClose slot ∨
      ¬ Closes (c.conns slot) type out kind ∧ ∃ keepAlive,
        (c.perform slot type out kind).conns =
          Function.update c.conns slot { c.conns slot with keepAlive } := by
  have hkeep {d : Connections} (hd : d.conns = c.conns) : ∃ keepAlive,
      d.conns = Function.update c.conns slot { c.conns slot with keepAlive } :=
    ⟨(c.conns slot).keepAlive, hd.trans (Function.update_eq_self slot c.conns).symm⟩
  cases kind with
  | onRead =>
    have hn : (TcpConnection.readAgain type out.n out.err).1 = out.n := by
      cases type with
      | raw => rfl
      | ssl => rfl
    dsimp only [perform, onRead]
    rw [hn]
    by_cases hcloses : Closes (c.conns slot) type out .onRead
    · exact .inl ⟨hcloses, if_pos hcloses⟩
    · refine .inr ⟨hcloses, ?_⟩
      have hgoes : ¬ (out.n ≤ 0 ∧ (TcpConnection.readAgain type out.n out.err).2 = false) := hcloses
      rw [if_neg hgoes]
      by_cases hreadable : out.readable = false
      · rw [if_pos hreadable]
        exact hkeep (c.conns_updateEvent _)
      · rw [if_neg hreadable, conns_updateEvent]
        exact ⟨out.keepAlive, rfl⟩
  | onWrite =>
    rw [perform, onWrite_eq]
    by_cases hzero : out.n = 0
    · rw [if_pos hzero]
      by_cases halive : (c.conns slot).keepAlive = true
      · rw [if_pos halive]
        exact .inr ⟨fun hc ↦ hc.1 ⟨hzero, halive⟩, hkeep (c.conns_updateEvent _)⟩
      · rw [if_neg halive]
        exact .inl ⟨⟨fun hc ↦ halive hc.2, fun hc ↦ hc.1.ne hzero⟩, rfl⟩
    · rw [if_neg hzero]
      by_cases hneg : out.n < 0
      · rw [if_pos hneg]
        by_cases hagain : out.err ≠ 0
        · rw [if_pos hagain]
          exact .inr ⟨fun hc ↦ hc.2 ⟨hneg, hagain⟩, hkeep (c.conns_updateEvent _)⟩
        · rw [if_neg hagain]
          exact .inl ⟨⟨fun hc ↦ hzero hc.1, fun hc ↦ hagain hc.2⟩, rfl⟩
      · rw [if_neg hneg]
        exact .inl ⟨⟨fun hc ↦ hzero hc.1, fun hc ↦ hneg hc.1⟩, rfl⟩

/-- The connection that a task points to is open and has the channel it had when
the task was queued. -/
def Fresh (c : Connections) (task : Task) : Prop :=
  ¬ (c.conns task.slot).Closed ∧ (c.conns task.slot).channel = task.channel

instance (c : Connections) : DecidablePred c.Fresh := fun _ ↦ inferInstanceAs (Decidable (_ ∧ _))

theorem Fresh.congr {c' : Connections} {task : Task} (h : c.Fresh task)
    (hconn : c'.conns task.slot = c.conns task.slot) : c'.Fresh task := by
  rw [Fresh, hconn]
  exact h

theorem Fresh.perform {task other : Task} (h : c.Fresh other) {type : ChannelType}
    (hquiet : Closes (c.conns task.slot) type out task.kind → other.slot ≠ task.slot) :
    (c.perform task.slot type out task.kind).Fresh other := by
  rcases c.perform_cases task.slot type out task.kind with ⟨hcloses, heq⟩ | ⟨-, keepAlive, heq⟩
  · rw [heq]
    exact h.congr (c.conns_handleConnectionClose_of_ne (hquiet hcloses))
  · by_cases hslot : other.slot = task.slot
    · rw [Fresh, hslot] at h
      rw [Fresh, hslot, heq, Function.update_self]
      exact h
    · refine h.congr ?_
      rw [heq]
      exact Function.update_of_ne hslot _ _

end Connections

namespace TcpServer

open Connections

/-- A turn of the event loop at a time of the clock, or of a worker with the task
at some place of the queue. -/
inductive Step
  | event (clock : TimeStamp.Clock) (e : Event)
  | task (i : ℕ) (out : Outcome)

def next (s : TcpServer) : Step → Except Fault TcpServer
  | .event clock e => s.handle clock e
  | .task i out => s.runTask i out

def runSteps (s : TcpServer) (steps : List Step) : Except Fault TcpServer := steps.foldlM next s

/-- The kernel answers `accept` with an fd that is not in use. -/
def Opens (s : TcpServer) : Step → Prop
  | .event _ (.accept connfd _) => ¬ Live s.toConnections connfd
  | _ => True

/-- The step closes no connection of which another task is queued. -/
def Quiet (s : TcpServer) : Step → Prop
  | .event _ (.close fd) => ∀ task ∈ s.tasks, task.slot ≠ fd
  | .event clock .tick => ∀ t ∈ s.aliveTimer.c, t.timestamp ≤ TimeStamp.now clock →
      ∀ task ∈ s.tasks, task.slot ≠ t.fd
  | .task i out => ∀ task ∈ s.tasks[i]?, ∀ channel ∈ (s.conns task.slot).channel,
      Closes (s.conns task.slot) channel.type out task.kind →
      ∀ other ∈ s.tasks.eraseIdx i, other.slot ≠ task.slot
  | _ => True

instance (s : TcpServer) : DecidablePred s.Opens
  | .event _ (.accept _ _) => inferInstanceAs (Decidable (¬ _))
  | .event _ (.read _) | .event _ (.write _) | .event _ (.close _) | .event _ .tick | .task _ _ =>
    inferInstanceAs (Decidable True)

instance (s : TcpServer) : DecidablePred s.Quiet
  | .event _ (.close _) | .event _ .tick => inferInstanceAs (Decidable (∀ _ ∈ _, _))
  | .event _ (.accept _ _) | .event _ (.read _) | .event _ (.write _) =>
    inferInstanceAs (Decidable True)
  | .task i _ => inferInstanceAs (Decidable (∀ _ ∈ s.tasks[i]?, ∀ _ ∈ _, _))

def Along (P : TcpServer → Step → Prop) (s : TcpServer) : List Step → Prop
  | [] => True
  | step :: steps => P s step ∧
    match s.next step with
    | .ok s' => Along P s' steps
    | .error _ => True

instance decidableAlong (P : TcpServer → Step → Prop) [∀ s, DecidablePred (P s)] :
    (s : TcpServer) → DecidablePred (s.Along P)
  | _, [] => inferInstanceAs (Decidable True)
  | s, step :: steps =>
    have : Decidable (match s.next step with
        | .ok s' => Along P s' steps
        | .error _ => True) :=
      match s.next step with
      | .ok s' => decidableAlong P s' steps
      | .error _ => inferInstanceAs (Decidable True)
    inferInstanceAs (Decidable (_ ∧ _))

/-- The timers close their own slots, and every queued task is fresh. -/
structure Served (s : TcpServer) : Prop where
  wellFormed : s.aliveTimer.WellFormed
  callback : ∀ t ∈ s.aliveTimer.c, t.callback = some t.fd
  fresh : ∀ task ∈ s.tasks, s.toConnections.Fresh task

namespace Served

variable {s : TcpServer} {clock : TimeStamp.Clock} (h : s.Served)

include h

theorem handleConnected {connfd : ℤ} (hopen : ¬ Live s.toConnections connfd) (type : ChannelType) :
    ∃ s', s.handleConnected clock connfd type = .ok s' ∧ s'.Served := by
  obtain ⟨h', hpush, hw, hmem, -⟩ := h.wellFormed.push_mem
    ⟨connfd, TimeStamp.nowMsecond clock s.idleTimeout, some connfd⟩
  refine ⟨_, handleConnected_eq hpush, hw, ?_, ?_⟩
  · intro t ht
    rcases (hmem t).mp ht with rfl | ht
    · rfl
    · exact h.callback t ht.1
  · intro task htask
    have hne : task.slot ≠ connfd := fun heq ↦ hopen (heq ▸ (h.fresh task htask).1)
    refine (h.fresh task htask).congr ?_
    rw [conns_addEvent]
    exact Function.update_of_ne hne _ _

theorem handleServerAccept {connfd : ℤ} (hopen : ¬ Live s.toConnections connfd) (ret : ℤ) :
    ∃ s', s.handleServerAccept clock connfd ret = .ok s' ∧ s'.Served := by
  rw [TcpServer.handleServerAccept]
  split_ifs
  · exact ⟨s, rfl, h⟩
  · exact ⟨_, rfl, { h with }⟩
  · exact h.handleConnected hopen .ssl
  · exact h.handleConnected hopen .raw

theorem handleConnectionEvent (kind : TaskKind) (slot : ℤ) :
    ∃ s', s.handleConnectionEvent kind clock slot = .ok s' ∧ s'.Served := by
  by_cases hclosed : (s.conns slot).Closed
  · refine ⟨s, ?_, h⟩
    dsimp only [TcpServer.handleConnectionEvent]
    rw [if_pos hclosed]
  · obtain ⟨h', hadjust, hw, hcase⟩ := h.wellFormed.adjust_mem
      ⟨(s.conns slot).connfd, TimeStamp.nowMsecond clock s.idleTimeout, none⟩
    refine ⟨_, handleConnectionEvent_eq hclosed hadjust, hw, ?_, ?_⟩
    · intro t ht
      rcases hcase with ⟨-, rfl⟩ | ⟨u, hu, -, hmem, -⟩
      · exact h.callback t ht
      · rcases (hmem t).mp ht with rfl | ht
        · exact h.callback u hu
        · exact h.callback t ht.1
    · intro task htask
      rcases List.mem_append.mp htask with htask | htask
      · exact h.fresh task htask
      · rw [List.mem_singleton.mp htask]
        exact ⟨hclosed, rfl⟩

theorem handleConnectionClose {fd : ℤ} (hquiet : ∀ task ∈ s.tasks, task.slot ≠ fd) :
    Served { s with toConnections := s.toConnections.handleConnectionClose fd } := by
  refine ⟨h.wellFormed, h.callback, fun task htask ↦ (h.fresh task htask).congr ?_⟩
  exact s.toConnections.conns_handleConnectionClose_of_ne (hquiet task htask)

theorem handleTimeout (hquiet : ∀ t ∈ s.aliveTimer.c, t.timestamp ≤ TimeStamp.now clock →
    ∀ task ∈ s.tasks, task.slot ≠ t.fd) :
    ∃ s', s.handleTimeout clock = .ok s' ∧ s'.Served := by
  obtain ⟨l, h', hw, hperm, hdue, -, heq⟩ := handleTimeout_eq h.wellFormed h.callback clock
  refine ⟨_, heq, hw, ?_, fun task htask ↦ (h.fresh task htask).congr ?_⟩
  · intro t ht
    exact h.callback t (hperm.mem_iff.mp (List.mem_append_right l ht))
  · refine s.toConnections.conns_closeAll_of_notMem fun hin ↦ ?_
    obtain ⟨t, ht, hfd⟩ := List.mem_map.mp hin
    have hmem : t ∈ s.aliveTimer.c := hperm.mem_iff.mp (List.mem_append_left _ ht)
    exact hquiet t hmem (hdue t ht) task htask hfd.symm

theorem runTask {i : ℕ} {out : Outcome} (hquiet : s.Quiet (.task i out)) :
    ∃ s', s.runTask i out = .ok s' ∧ s'.Served := by
  cases htask : s.tasks[i]? with
  | none => exact ⟨s, by rw [TcpServer.runTask, htask], h⟩
  | some task =>
    have hfresh := h.fresh task (List.mem_of_getElem? htask)
    obtain ⟨channel, hchannel⟩ : ∃ channel, (s.conns task.slot).channel = some channel :=
      Option.ne_none_iff_exists'.mp fun hnone ↦ hfresh.1 (.inr hnone)
    refine ⟨{ s with
      tasks := s.tasks.eraseIdx i
      toConnections := s.toConnections.perform task.slot channel.type out task.kind }, ?_, ?_⟩
    · rw [TcpServer.runTask, htask]
      dsimp only
      rw [hchannel]
      cases hkind : task.kind with
      | onRead => rfl
      | onWrite => rfl
    · refine ⟨h.wellFormed, h.callback, fun other hother ↦ ?_⟩
      exact (h.fresh other (List.mem_of_mem_eraseIdx hother)).perform fun hcloses ↦
        hquiet task htask channel hchannel hcloses other hother

theorem next {step : Step} (hopen : s.Opens step) (hquiet : s.Quiet step) :
    ∃ s', s.next step = .ok s' ∧ s'.Served := by
  cases step with
  | event clock e =>
    cases e with
    | accept connfd ret => exact h.handleServerAccept hopen ret
    | read fd => exact h.handleConnectionEvent .onRead fd
    | write fd => exact h.handleConnectionEvent .onWrite fd
    | close fd => exact ⟨_, rfl, h.handleConnectionClose hquiet⟩
    | tick => exact h.handleTimeout hquiet
  | task i out => exact h.runTask hquiet

end Served

theorem Served.runSteps {s : TcpServer} (h : s.Served) {first rest : List Step}
    (hopen : s.Along Opens (first ++ rest)) (hquiet : s.Along Quiet (first ++ rest)) :
    ∃ s', s.runSteps first = .ok s' ∧ s'.Served := by
  induction first generalizing s with
  | nil => exact ⟨s, rfl, h⟩
  | cons step first ih =>
    obtain ⟨s₁, hstep, h₁⟩ := h.next hopen.1 hquiet.1
    have hopen₁ := hopen.2
    have hquiet₁ := hquiet.2
    rw [hstep] at hopen₁ hquiet₁
    obtain ⟨s', hrun, h'⟩ := ih h₁ hopen₁ hquiet₁
    refine ⟨s', ?_, h'⟩
    rw [TcpServer.runSteps, List.foldlM_cons, hstep]
    exact hrun

/-- In every state of a run that closes no connection while another task of it is
queued, each queued task has the connection it was queued for. -/
theorem run_tasks (idleTimeout : Int32) (https : Bool) (first rest : List Step)
    (hopen : (init idleTimeout https).Along Opens (first ++ rest))
    (hquiet : (init idleTimeout https).Along Quiet (first ++ rest)) :
    ∃ s, (init idleTimeout https).runSteps first = .ok s ∧
      ∀ task ∈ s.tasks, s.toConnections.Fresh task := by
  have hinit : (init idleTimeout https).Served :=
    ⟨TimerHeap.wellFormed_init, fun _ ht ↦ (nomatch ht), fun _ ht ↦ (nomatch ht)⟩
  obtain ⟨s, hrun, h⟩ := hinit.runSteps hopen hquiet
  exact ⟨s, hrun, h.fresh⟩

theorem run_tasks_closing :
    ∃ s, (init 2000 false).runSteps [.event 0 (.accept 5 0), .event 0 (.read 5),
        .task 0 ⟨-1, 11, false, true, true, false⟩, .event 10 (.write 5)] = .ok s ∧
      ∀ task ∈ s.tasks, s.toConnections.Fresh task :=
  run_tasks 2000 false _ [.task 0 ⟨0, 0, true, false, false, false⟩, .event 20 (.accept 5 0)]
    (by decide +kernel) (by decide +kernel)

/-- The idle timer closes a connection of which a task is queued. The task goes
through a null pointer, or, once the fd has been accepted again, acts on a
connection it was not queued for. -/
theorem run_stale :
    let steps := [.event 0 (.accept 5 0), .event 0 (.read 5), .event 2000000 .tick]
    let closed : Outcome := ⟨0, 0, false, false, false, false⟩
    (init 2000 false).Along Opens (steps ++ [.event 2000000 (.accept 5 0)]) ∧
    (∃ s, (init 2000 false).runSteps steps = .ok s ∧
      (∃ task ∈ s.tasks, ¬ s.toConnections.Fresh task) ∧ s.runTask 0 closed = .error .nullChannel) ∧
    ∃ s, (init 2000 false).runSteps (steps ++ [.event 2000000 (.accept 5 0)]) = .ok s ∧
      (∃ task ∈ s.tasks, task.channel ≠ (s.conns 5).channel) ∧ Live s.toConnections 5 ∧
      ∃ s', s.runTask 0 closed = .ok s' ∧ ¬ Live s'.toConnections 5 := by
  decide +kernel

end TcpServer

end Socnet.Net
