import Mathlib.Data.List.Nodup
import Socnet.Http.HttpMap
import Socnet.Lib.Run
import Socnet.Net.TimerQueue

namespace Socnet.Http

open Net Utility.EncodeUtil

inductive HttpSession.Status
  | new
  | accessed
  | destroy
  deriving DecidableEq

structure HttpSession where
  id : Bytes
  interval : Int32
  status : HttpSession.Status

/-- What `HttpServer` keeps of the sessions. A pointer to a session is its number in
`objects`, where one that has left `sessions` stays, so that a late call on it reads
what it held. `given` are the sessions that requests have been given; no code reads it. -/
structure Sessions where
  lifetime : Int32
  objects : List HttpSession
  sessions : HttpMap Bytes ℕ
  sessionTimer : Option (TimerHeap ℕ)
  given : List ℕ

namespace Sessions

def init (lifetime : Int32) : Sessions := ⟨lifetime, [], ∅, none, []⟩

def setStatus (s : Sessions) (session : ℕ) (status : HttpSession.Status) : Sessions :=
  { s with objects := s.objects.modify session fun o ↦ { o with status } }

def invalidate (s : Sessions) (session : ℕ) : Sessions := s.setStatus session .destroy

def sessionId (random : RandomStr 16) : Bytes := ascii "SESSIONID_" ++ random.bytes

def createSession (s : Sessions) (random : RandomStr 16) : Sessions × ℕ :=
  let session := s.objects.length
  ({ s with
    objects := s.objects ++ [⟨sessionId random, s.lifetime, .new⟩]
    sessions := s.sessions.add (sessionId random) session }, session)

/-- The hash of the id, converted to the `int` that stands for an fd. -/
def timerFd (id : Bytes) : ℤ := (murmurHash2 id).toInt32.toInt

/-- The session that the cookie names, unless it has been invalidated. -/
def findSession (s : Sessions) (cookies : HttpMap Bytes Bytes) : Option (ℕ × HttpSession) := do
  let x ← cookies.get (ascii "SESSIONID")
  let i ← s.sessions.get x
  let session ← s.objects[i]?
  if session.status = .destroy then none else some (i, session)

def createSessionTimer (s : Sessions) : TimerHeap ℕ := s.sessionTimer.getD .init

def associateSession (s : Sessions) (cookies : HttpMap Bytes Bytes) (random : RandomStr 16)
    (clock : TimeStamp.Clock) : Except Fault (Sessions × ℕ) :=
  match s.findSession cookies with
  | some (i, session) =>
    match s.sessionTimer with
    | none => .error .badRead
    | some timer => do
      -- the source passes no callback, and `adjust` reads none
      let timer ← timer.adjust
        ⟨timerFd session.id, TimeStamp.nowSecond clock session.interval, i⟩
      .ok ({ s.setStatus i .accessed with sessionTimer := some timer }, i)
  | none => do
    let (s, i) := s.createSession random
    let timer ← s.createSessionTimer.push
      ⟨timerFd (sessionId random), TimeStamp.nowSecond clock s.lifetime, i⟩
    .ok ({ s with sessionTimer := some timer }, i)

def handleSessionTimeout (s : Sessions) (session : ℕ) : Sessions :=
  match s.objects[session]? with
  | none => s
  | some o => { s with sessions := s.sessions.remove o.id }

/-- `TimerQueue::handleTimeout` of the session timer. -/
def handleTimeout (s : Sessions) (clock : TimeStamp.Clock) : Except Fault Sessions :=
  match s.sessionTimer with
  | none => .ok s
  | some timer => do
    let (timer, s) ← timer.handleTimeout (fun i s ↦ .ok (s.handleSessionTimeout i))
      (TimeStamp.now clock) s
    .ok { s with sessionTimer := some timer }

inductive Event
  | associate (cookies : HttpMap Bytes Bytes) (random : RandomStr 16) (clock : TimeStamp.Clock)
  | invalidate (session : ℕ)
  | timeout (session : ℕ)
  | tick (clock : TimeStamp.Clock)

def step (s : Sessions) : Event → Except Fault Sessions
  | .associate cookies random clock => do
    let (s, i) ← s.associateSession cookies random clock
    .ok { s with given := s.given ++ [i] }
  | .invalidate i => .ok (s.invalidate i)
  | .timeout i => .ok (s.handleSessionTimeout i)
  | .tick clock => s.handleTimeout clock

end Sessions

end Socnet.Http
