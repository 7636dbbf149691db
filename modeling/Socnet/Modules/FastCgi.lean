import Socnet.Bytes
import Socnet.Lib.Framing

namespace Socnet.FastCgi

structure Header where
  version : UInt8
  type : UInt8
  requestIdB1 : UInt8
  requestIdB0 : UInt8
  contentLengthB1 : UInt8
  contentLengthB0 : UInt8
  paddingLength : UInt8
  reserved : UInt8
  deriving DecidableEq

def maxLength : ℕ := 0xffff
def headerLen : ℕ := 8
def version1 : UInt8 := 1
def endRequest : UInt8 := 3
def params : UInt8 := 4
def stdin : UInt8 := 5
def stdout : UInt8 := 6
def stderr : UInt8 := 7

namespace Header

def bytes (h : Header) : Bytes :=
  [h.version, h.type, h.requestIdB1, h.requestIdB0, h.contentLengthB1, h.contentLengthB0,
    h.paddingLength, h.reserved]

def requestId (h : Header) : ℕ := h.requestIdB1.toNat <<< 8 + h.requestIdB0.toNat

def contentLength (h : Header) : ℕ := h.contentLengthB1.toNat <<< 8 + h.contentLengthB0.toNat

def read : Bytes → Option (Header × Bytes)
  | version :: type :: id₁ :: id₀ :: len₁ :: len₀ :: padding :: reserved :: rest =>
    some (⟨version, type, id₁, id₀, len₁, len₀, padding, reserved⟩, rest)
  | _ => none

/-- A header whose first bytes are written anew. -/
def overwrite (h : Header) (data : Bytes) : Header :=
  match read (data ++ h.bytes.drop data.length) with
  | some (h, _) => h
  | none => h

theorem length_bytes (h : Header) : h.bytes.length = headerLen := rfl

theorem read_bytes (h : Header) (rest : Bytes) : read (h.bytes ++ rest) = some (h, rest) := rfl

theorem eq_of_read {l rest : Bytes} {h : Header} (hr : read l = some (h, rest)) :
    l = h.bytes ++ rest := by
  unfold read at hr
  split at hr
  · cases hr
    rfl
  · cases hr

theorem contentLength_le (h : Header) : h.contentLength ≤ maxLength := by
  have h₁ := h.contentLengthB1.toNat_lt
  have h₀ := h.contentLengthB0.toNat_lt
  rw [contentLength, Nat.shiftLeft_eq, maxLength]
  omega

theorem requestId_le (h : Header) : h.requestId ≤ 0xffff := by
  have h₁ := h.requestIdB1.toNat_lt
  have h₀ := h.requestIdB0.toNat_lt
  rw [requestId, Nat.shiftLeft_eq]
  omega

end Header

/-- A record has the lengths that its header announces. -/
structure Record where
  header : Header
  content : Bytes
  padding : Bytes
  length_content : content.length = header.contentLength
  length_padding : padding.length = header.paddingLength.toNat

namespace Record

def bytes (r : Record) : Bytes := r.header.bytes ++ r.content ++ r.padding

/-- The first record of a stream, with the bytes after it. -/
def read (l : Bytes) : Option (Record × Bytes) :=
  match Header.read l with
  | none => none
  | some (h, rest) =>
    if hlen : h.contentLength + h.paddingLength.toNat ≤ rest.length then
      some (⟨h, rest.take h.contentLength,
        (rest.drop h.contentLength).take h.paddingLength.toNat,
        by rw [List.length_take]; omega,
        by rw [List.length_take, List.length_drop]; omega⟩,
        rest.drop (h.contentLength + h.paddingLength.toNat))
    else none

theorem read_bytes (r : Record) (rest : Bytes) : read (r.bytes ++ rest) = some (r, rest) := by
  obtain ⟨h, content, padding, hc, hp⟩ := r
  have hlen : h.contentLength + h.paddingLength.toNat ≤ (content ++ padding ++ rest).length := by
    rw [List.length_append, List.length_append]
    omega
  rw [read, bytes, List.append_assoc, List.append_assoc, ← List.append_assoc content,
    Header.read_bytes]
  simp only [hlen, dif_pos, Option.some.injEq, Prod.mk.injEq, Record.mk.injEq, true_and]
  refine ⟨⟨?_, ?_⟩, ?_⟩
  · rw [List.append_assoc, ← hc, List.take_left]
  · rw [List.append_assoc, ← hc, List.drop_left, ← hp, List.take_left]
  · rw [← hc, ← hp, ← List.length_append, List.drop_left]

theorem eq_of_read {l rest : Bytes} {r : Record} (hr : read l = some (r, rest)) :
    l = r.bytes ++ rest := by
  unfold read at hr
  split at hr
  · cases hr
  · rename_i h tail hh
    split at hr
    · cases hr
      rw [Header.eq_of_read hh, bytes]
      simp only [List.append_assoc, ← List.drop_drop, List.take_append_drop]
    · cases hr

end Record

/-- The records of a stream with no bytes left over. -/
def decode (l : Bytes) : Option (List Record) := Lib.Framing.decode Record.read l

theorem decode_flatMap_bytes (rs : List Record) : decode (rs.flatMap Record.bytes) = some rs :=
  Lib.Framing.decode_flatMap rs (fun r _ ↦ by simp [Record.bytes, Header.bytes])
    fun r _ rest ↦ r.read_bytes rest

theorem decode_flatMap_bytes_append (rs : List Record) (l : Bytes) :
    decode (rs.flatMap Record.bytes ++ l) = (decode l).map (rs ++ ·) :=
  Lib.Framing.decode_flatMap_append rs (fun r _ ↦ by simp [Record.bytes, Header.bytes])
    (fun r _ rest ↦ r.read_bytes rest) l

theorem length_le_of_decode {l : Bytes} {rs : List Record} (h : decode l = some rs) :
    headerLen * rs.length + (rs.flatMap Record.content).length ≤ l.length := by
  rw [Lib.Framing.eq_flatMap_of_decode (fun _ _ _ ↦ Record.eq_of_read) h]
  clear h
  induction rs with
  | nil => simp
  | cons r rs ih =>
    simp only [List.flatMap_cons, List.length_append, List.length_cons, Record.bytes,
      Header.length_bytes, Nat.mul_add] at ih ⊢
    omega

end Socnet.FastCgi
