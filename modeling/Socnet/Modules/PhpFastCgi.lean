import Socnet.Lib.Feed
import Socnet.Modules.FastCgi
import Socnet.Net.Outgoing

namespace Socnet

open FastCgi

structure PhpFastCgi where
  requestId : ℤ

namespace PhpFastCgi

/-- The request is not read: the header has the identifier of the object. -/
def makeHeader (c : PhpFastCgi) (type : UInt8) (_request contentlen paddinglen : ℤ) : Header where
  version := version1
  type := type
  requestIdB1 := .ofInt ((c.requestId >>> (8 : ℕ)) % 256)
  requestIdB0 := .ofInt (c.requestId % 256)
  contentLengthB1 := .ofInt ((contentlen >>> (8 : ℕ)) % 256)
  contentLengthB0 := .ofInt (contentlen % 256)
  paddingLength := .ofInt paddinglen
  reserved := 0

/-- The loop of `sendPost`, with `rn` bytes to send before its call `k`. The kernel is
given the number of the call and the count, which is `rn` as a `size_t`. -/
def sendRest (kernel : ℕ → ℕ → Option ℕ) (postdata : Bytes) (k : ℕ) (rn : ℤ) :
    Except Fault Bytes :=
  let n := Net.Outgoing.result (kernel k (rn % 2 ^ 64).toNat)
  if 0 < n then
    -- the kernel has taken bytes from behind the post data
    if rn < n then .error .badRead
    else do
      let rest ← sendRest kernel postdata (k + 1) (rn - n)
      .ok ((postdata.drop (postdata.length - rn).toNat).take n.toNat ++ rest)
  else .ok []
termination_by rn.toNat
decreasing_by omega

/-- The bytes written to the socket. -/
def sendPost (c : PhpFastCgi) (kernel : ℕ → ℕ → Option ℕ) (postdata : Bytes) :
    Except Fault Bytes := do
  let size := Int.bmod postdata.length (2 ^ 32)
  let startHeader := c.makeHeader stdin c.requestId size 0
  let rest ← sendRest kernel postdata 0 size
  let endHeader := c.makeHeader stdin c.requestId 0 0
  .ok (startHeader.bytes ++ rest ++ endHeader.bytes)

def kBufferSize : ℕ := 2048

/-- The locals of `readPhpFpm`, with the buffer that it appends to and the bytes that the
socket has yet to deliver. -/
structure Reading where
  socket : Lib.Feed UInt8
  header : Header
  buffer : Net.Buffer
  status : Bool
  message : Bytes

namespace Reading

variable (take : ℕ → ℕ → ℕ)

/-- `::read` into an array of the given size, of at most `count` bytes. -/
def readInto (size count : ℕ) (s : Reading) : Except Fault (Bytes × Reading) :=
  let (data, socket) := s.socket.read take count
  if size < data.length then .error .overflow else .ok (data, { s with socket })

def appendRead (count : ℕ) (s : Reading) : Except Fault Reading := do
  let (content, s) ← s.readInto take kBufferSize count
  .ok { s with buffer := s.buffer.append content }

def readBlocks : ℕ → Reading → Except Fault Reading
  | 0, s => .ok s
  | nbuf + 1, s => do
    let s ← s.appendRead take kBufferSize
    readBlocks nbuf s

def skipPadding (s : Reading) : Except Fault Reading :=
  if 0 < s.header.paddingLength then do
    let (_, s) ← s.readInto take 8 s.header.paddingLength.toNat
    .ok s
  else .ok s

def readStdout (s : Reading) : Except Fault Reading := do
  let contentLen := s.header.contentLength
  let s ← s.readBlocks take (contentLen / kBufferSize)
  let s ← s.appendRead take (contentLen % kBufferSize)
  s.skipPadding take

def readStderr (s : Reading) : Except Fault Reading := do
  let (content, s) ← s.readInto take kBufferSize s.header.contentLength
  { s with status := false, message := content }.skipPadding take

/-- Neither the padding of a `FCGI_END_REQUEST` record nor a record of another type is
skipped. -/
def readRecord (s : Reading) : Except Fault Reading :=
  if s.header.type = stdout then s.readStdout take
  else if s.header.type = stderr then s.readStderr take
  else if s.header.type = endRequest then do
    let (_, s) ← s.readInto take 8 8
    .ok s
  else .ok s

/-- The loop body, unless the header cannot be read. A short `read` leaves the rest of
the header as it was. -/
def turn (s : Reading) : Except Fault (Option Reading) := do
  let (data, s) ← s.readInto take headerLen headerLen
  if data = [] then .ok none
  else do
    let s ← { s with header := s.header.overwrite data }.readRecord take
    .ok (some s)

variable {take}

/-- A step of the loop appends to the buffer and takes from the stream. -/
structure After (s s' : Reading) : Prop where
  buffer : s.buffer.peek <+: s'.buffer.peek
  rest : s'.socket.rest.length ≤ s.socket.rest.length

theorem After.trans {s s' s'' : Reading} (h : After s s') (h' : After s' s'') : After s s'' :=
  ⟨h.buffer.trans h'.buffer, h'.rest.trans h.rest⟩

theorem readInto_ok {s s' : Reading} {size count : ℕ} {data : Bytes}
    (h : s.readInto take size count = .ok (data, s')) :
    s'.buffer = s.buffer ∧ s'.header = s.header ∧
      data.length + s'.socket.rest.length = s.socket.rest.length := by
  have hlen := @Lib.Feed.length_read _ take count s.socket
  unfold readInto at h
  dsimp only at h
  split_ifs at h
  cases h
  exact ⟨rfl, rfl, hlen⟩

theorem After.of_readInto {s s' : Reading} {size count : ℕ} {data : Bytes}
    (h : s.readInto take size count = .ok (data, s')) : After s s' := by
  obtain ⟨hbuffer, -, hlen⟩ := readInto_ok h
  refine ⟨?_, by omega⟩
  rw [hbuffer]

theorem After.of_appendRead {s s' : Reading} {count : ℕ}
    (h : s.appendRead take count = .ok s') : After s s' := by
  obtain ⟨⟨content, s₁⟩, hread, h⟩ := bind_eq_ok.mp h
  cases h
  obtain ⟨hbuffer, hrest⟩ := After.of_readInto hread
  refine ⟨hbuffer.trans ?_, hrest⟩
  rw [Net.Buffer.peek_append]
  exact List.prefix_append _ _

theorem After.of_readBlocks {nbuf : ℕ} {s s' : Reading}
    (h : s.readBlocks take nbuf = .ok s') : After s s' := by
  induction nbuf generalizing s with
  | zero =>
    cases h
    exact ⟨List.prefix_rfl, le_rfl⟩
  | succ nbuf ih =>
    obtain ⟨s₁, happend, h⟩ := bind_eq_ok.mp h
    exact (After.of_appendRead happend).trans (ih h)

theorem After.of_skipPadding {s s' : Reading} (h : s.skipPadding take = .ok s') :
    After s s' := by
  unfold skipPadding at h
  split at h
  · obtain ⟨⟨padding, s₁⟩, hread, h⟩ := bind_eq_ok.mp h
    cases h
    exact After.of_readInto hread
  · cases h
    exact ⟨List.prefix_rfl, le_rfl⟩

theorem After.of_readRecord {s s' : Reading} (h : s.readRecord take = .ok s') :
    After s s' := by
  unfold readRecord at h
  split_ifs at h
  · obtain ⟨s₁, hblocks, h⟩ := bind_eq_ok.mp h
    obtain ⟨s₂, happend, h⟩ := bind_eq_ok.mp h
    exact ((After.of_readBlocks hblocks).trans (.of_appendRead happend)).trans (.of_skipPadding h)
  · obtain ⟨⟨content, s₁⟩, hread, h⟩ := bind_eq_ok.mp h
    obtain ⟨hbuffer, hrest⟩ := After.of_readInto hread
    obtain ⟨hbuffer', hrest'⟩ := After.of_skipPadding h
    exact ⟨hbuffer.trans hbuffer', hrest'.trans hrest⟩
  · obtain ⟨⟨body, s₁⟩, hread, h⟩ := bind_eq_ok.mp h
    cases h
    exact After.of_readInto hread
  · cases h
    exact ⟨List.prefix_rfl, le_rfl⟩

/-- The loop goes on only when it has read a part of a header. -/
theorem turn_some {s s' : Reading} (h : s.turn take = .ok (some s')) :
    After s s' ∧ s'.socket.rest.length < s.socket.rest.length := by
  obtain ⟨⟨data, s₁⟩, hread, h⟩ := bind_eq_ok.mp h
  dsimp only at h
  by_cases hdata : data = []
  · rw [if_pos hdata] at h
    cases h
  rw [if_neg hdata] at h
  obtain ⟨s₂, hrecord, h⟩ := bind_eq_ok.mp h
  cases h
  obtain ⟨hbuffer, -, hlen⟩ := readInto_ok hread
  obtain ⟨hbuffer', hrest⟩ := After.of_readRecord hrecord
  have hpos := List.length_pos_iff.mpr hdata
  dsimp only at hbuffer' hrest
  rw [hbuffer] at hbuffer'
  exact ⟨⟨hbuffer', by omega⟩, by omega⟩

def readAll (take : ℕ → ℕ → ℕ) (s : Reading) : Except Fault Reading :=
  match _h : s.turn take with
  | .error e => .error e
  | .ok none => .ok s
  | .ok (some s') => readAll take s'
termination_by s.socket.rest.length
decreasing_by exact (turn_some _h).2

end Reading

/-- `memory` is what the header holds before the first `read`. The pair of the source
comes with the buffer. -/
def readPhpFpm (take : ℕ → ℕ → ℕ) (memory : Header) (buffer : Net.Buffer) (stream : Bytes) :
    Except Fault ((Bool × Bytes) × Net.Buffer) := do
  let s ← Reading.readAll take ⟨⟨0, stream⟩, memory, buffer, true, ascii "OK"⟩
  .ok ((s.status, s.message), s.buffer)

end PhpFastCgi

end Socnet
