import Mathlib.Algebra.Group.Int.Defs
import Mathlib.Algebra.Group.Nat.Defs
import Socnet.Lib.Run
import Socnet.Net.Buffer
import Socnet.Net.TcpServer

namespace Socnet.Net

/-- `MMap`, by the bytes at its address, of which there are none after `MAP_FAILED`. -/
structure MMap where
  address : Option Bytes

/-- The mapping of the first `size` bytes of a file. One of no bytes fails. -/
def MMap.map (file : Bytes) (size : ℕ) : MMap := ⟨if size = 0 then none else some (file.take size)⟩

/-- `SendFile`, with the bytes that the file holds from its offset on. -/
structure SendFile where
  size : ℕ
  rest : Bytes

/-- What a `Channel` keeps of an answer that it sends. -/
structure Outgoing where
  supportSendFile : Bool
  sender : Buffer
  mmapObj : Option MMap
  sfileObj : Option SendFile
  sendBytes : ℤ
  remainBytes : ℤ
  wsendBytes : ℤ

/-- What the kernel is asked to send, by `sendfile` or from memory. -/
structure Offer where
  channel : Outgoing
  bytes : Bytes
  sendFile : Bool

structure Written where
  channel : Outgoing
  n : ℤ
  cflag : Bool
  bytes : Bytes

namespace Outgoing

def reset (o : Outgoing) : Outgoing :=
  { o with
    sender := o.sender.reset
    mmapObj := none
    sfileObj := none
    sendBytes := 0
    remainBytes := 0
    wsendBytes := 0 }

def createMMapObject (o : Outgoing) (file : Bytes) (size : ℕ) : Outgoing :=
  match o.mmapObj with
  | some _ => o
  | none => { o with mmapObj := some (.map file size) }

def createSendFileObject (o : Outgoing) (file : Bytes) (size : ℕ) : Outgoing :=
  if o.supportSendFile then
    match o.sfileObj with
    | some _ => o
    | none => { o with sfileObj := some ⟨size, file⟩ }
  else o

/-- `mmap_obj_ && mmap_obj_->getAddress()`. -/
def mapped (o : Outgoing) : Option Bytes := o.mmapObj.bind MMap.address

/-- `sfile_obj_ && sfile_obj_->getSize()`. -/
def sending (o : Outgoing) : Option SendFile := o.sfileObj.filter (·.size ≠ 0)

def removeMMapObject (o : Outgoing) : Outgoing := { o with mmapObj := none }

/-- The file that is sent behind the sender, if any. -/
def file (o : Outgoing) : Bytes :=
  match o.mapped, o.sending with
  | some data, _ => data
  | none, some f => f.rest.take f.size
  | none, none => []

/-- All that the channel sends before it is reset. -/
def stream (o : Outgoing) : Bytes := o.sender.peek ++ o.file

/-- The bytes of the sender that have not been sent. -/
def unsent (o : Outgoing) : Bytes := o.sender.peek.drop o.sendBytes.toNat

/-- The bytes of a mapping that have not been sent, once the sender has. -/
def unmapped (o : Outgoing) (data : Bytes) : Bytes :=
  data.drop (o.sendBytes.toNat - o.sender.readable)

def rawOffer (o : Outgoing) : Offer :=
  if o.sendBytes < o.sender.readable then
    match o.mapped, o.sending with
    | some data, _ =>
      ⟨{ o with remainBytes := o.unsent.length + data.length }, o.unsent ++ data, false⟩
    | none, some f => ⟨{ o with remainBytes := o.unsent.length + f.size }, o.unsent, false⟩
    | none, none => ⟨{ o with remainBytes := o.unsent.length }, o.unsent, false⟩
  else
    match o.mapped, o.sending with
    | some data, _ => ⟨o, o.unmapped data, false⟩
    | none, some f => ⟨o, f.rest.take f.size, true⟩
    | none, none => ⟨o, [], false⟩

/-- Past the sender and with no mapping, the length of the call before is still there,
and the address is null. -/
def sslOffer (o : Outgoing) : Except Fault Offer :=
  if o.sendBytes < o.sender.readable then
    match o.mapped with
    | some data => .ok ⟨{ o with
        wsendBytes := o.unsent.length
        remainBytes := o.unsent.length + data.length }, o.unsent, false⟩
    | none => .ok ⟨{ o with
        wsendBytes := o.unsent.length
        remainBytes := o.unsent.length }, o.unsent, false⟩
  else
    match o.mapped with
    | some data => .ok ⟨{ o with
        wsendBytes := data.length - o.sendBytes + o.sender.readable
        remainBytes := data.length - o.sendBytes + o.sender.readable }, o.unmapped data, false⟩
    | none => if o.wsendBytes = 0 then .ok ⟨o, [], false⟩ else .error .badRead

def offer (type : ChannelType) (o : Outgoing) : Except Fault Offer :=
  match type with
  | .raw => .ok o.rawOffer
  | .ssl => o.sslOffer

/-- The result of `writev`, `sendfile` or `SSL_write`, as an `int`. -/
def result : Option ℕ → ℤ
  | none => -1
  | some n => (n : ℤ).bmod (2 ^ 32)

theorem result_some {n : ℕ} (hn : n < 2 ^ 31) : result (some n) = n := by
  unfold result
  exact bmod_of_lt hn

end Outgoing

/-- The bytes that the kernel takes. `sendfile` moves the offset of the file past them. -/
def Offer.accepted (w : Offer) : Option ℕ → Bytes
  | none => []
  | some n => w.bytes.take n

/-- How both functions `write` end. -/
def Offer.written (w : Offer) (kernel : Option ℕ) : Written :=
  let n := Outgoing.result kernel
  let bytes := w.accepted kernel
  let o := w.channel
  let o := if w.sendFile then
    { o with sfileObj := o.sfileObj.map fun f ↦ { f with rest := f.rest.drop bytes.length } }
  else o
  let o := if 0 ≤ n then
    { o with sendBytes := o.sendBytes + n, remainBytes := o.remainBytes - n }
  else o
  ⟨o, n, o.remainBytes ≤ 0, bytes⟩

/-- `RawChannel::write` and `SslChannel::write`. -/
def Outgoing.write (type : ChannelType) (o : Outgoing) (kernel : Option ℕ) :
    Except Fault Written := do
  let w ← o.offer type
  .ok (w.written kernel)

/-- A channel with the bytes that the kernel has taken since it was reset, and the flag
of the last call. -/
structure Delivery where
  channel : Outgoing
  accepted : Bytes
  cflag : Bool

namespace Delivery

def step (type : ChannelType) (d : Delivery) (kernel : Option ℕ) : Except Fault Delivery := do
  let w ← d.channel.write type kernel
  .ok ⟨w.channel, d.accepted ++ w.bytes, w.cflag⟩

/-- The call is made before all has been sent, and the kernel fails or takes some of
what it is offered. -/
def Admissible (type : ChannelType) (d : Delivery) (kernel : Option ℕ) : Prop :=
  d.cflag = false ∧ ∀ n ∈ kernel, 0 < n ∧ ∀ w, d.channel.offer type = .ok w → n ≤ w.bytes.length

instance decidableAdmissible (type : ChannelType) (d : Delivery) :
    DecidablePred (d.Admissible type) := fun _ ↦
  inferInstanceAs (Decidable (_ ∧ ∀ _ ∈ _, _ ∧ ∀ _, _ = _ → _))

end Delivery

end Socnet.Net
