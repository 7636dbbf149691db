import Socnet.Http.HttpRequest

namespace Socnet.Http

open Net

/-- A connection as its request parser sees it. The request of `context` reads
and retires the bytes of the connection's own `recver`. -/
structure Connection where
  recver : Buffer
  context : Option HttpRequest
  keepAlive : Bool
  disconnected : Bool

namespace Connection

abbrev Answered := RetCode × HttpRequest

def accepted : Connection where
  recver := Buffer.init
  context := none
  keepAlive := false
  disconnected := false

variable (store : HttpPassStore) (c : Connection)

def request : HttpRequest :=
  match c.context with
  | none => HttpRequest.init c.recver
  | some r => { r with recver := c.recver }

/-- Each successful `read` of a read event appends its bytes. -/
def readAgain (reads : List Bytes) : Connection :=
  { c with recver := reads.foldl Buffer.append c.recver }

/-- The request is answered with its own keep-alive flag, which is still unset
on a bad request, or kept for the next read event. -/
def onMessage : Except Fault (Connection × Option Answered) := do
  let (code, r) ← c.request.parseRequest store
  if code = .badRequest ∨ code = .requestContentDone then
    .ok ({ c with recver := r.recver, context := none, keepAlive := r.keepalive }, some (code, r))
  else .ok ({ c with recver := r.recver, context := some r }, none)

/-- The response has been sent: the channel is reset, and the connection closed
unless it is kept alive. -/
def onWrite : Connection :=
  { c with recver := c.recver.reset, disconnected := !c.keepAlive }

/-- A read event. The events are one-shot and a response asks for a write event
only, so that no read event comes before the response has been sent. -/
def onRead (reads : List Bytes) : Except Fault (Connection × Option Answered) :=
  let c := c.readAgain reads
  if c.recver.readable = 0 then .ok (c, none)
  else do
    let (c, answered) ← c.onMessage store
    .ok (if answered.isSome then c.onWrite else c, answered)

/-- The read events of a connection, up to its close, and the requests they
answer in order. -/
def run (c : Connection) : List (List Bytes) → Except Fault (Connection × List Answered)
  | [] => .ok (c, [])
  | reads :: events =>
    if c.disconnected then .ok (c, [])
    else do
      let (c, answered) ← c.onRead store reads
      let (c, rest) ← run c events
      .ok (c, answered.toList ++ rest)

end Connection

end Socnet.Http
