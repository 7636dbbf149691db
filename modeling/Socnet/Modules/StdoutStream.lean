import Socnet.Modules.PhpFastCgi

namespace Socnet.PhpFastCgi

open FastCgi Lib.Feed

/-- A record of a response, as PHP sends it. -/
structure ResponseRecord (r : Record) : Prop where
  type : r.header.type = stdout ∨ r.header.type = stderr ∨ r.header.type = endRequest
  padding : r.padding.length ≤ 7
  endRequest : r.header.type = endRequest → r.content.length = 8

def output (records : List Record) : Bytes :=
  (records.filter (·.header.type = stdout)).flatMap Record.content

/-- What the socket delivers of a response is put together again, and its errors are
noticed. -/
def Reassembles (take : ℕ → ℕ → ℕ) (memory : Header) (buffer : Net.Buffer)
    (records : List Record) : Prop :=
  ∃ status message buffer',
    readPhpFpm take memory buffer (records.flatMap Record.bytes) =
      .ok ((status, message), buffer') ∧
    buffer'.peek = buffer.peek ++ output records ∧
    (status = false ↔ ∃ r ∈ records, r.header.type = stderr)

theorem output_nil : output [] = [] := rfl

theorem output_cons (r : Record) (records : List Record) :
    output (r :: records) =
      (if r.header.type = stdout then r.content else []) ++ output records := by
  unfold output
  split_ifs with h
  · simp [h]
  · simp [h]

theorem stderr_ne_stdout : stderr ≠ stdout := by decide
theorem endRequest_ne_stdout : endRequest ≠ stdout := by decide
theorem endRequest_ne_stderr : endRequest ≠ stderr := by decide

def paddingCounts (padding : Bytes) : List ℕ :=
  if 0 < padding.length then [padding.length] else []

/-- The numbers of bytes that the loop asks for to read a record. -/
def readCounts (r : Record) : List ℕ :=
  headerLen ::
    (if r.header.type = stdout then
      List.replicate (r.content.length / kBufferSize) kBufferSize ++
        r.content.length % kBufferSize :: paddingCounts r.padding
    else if r.header.type = stderr then r.content.length :: paddingCounts r.padding
    else [8])

/-- A record that the loop can read: it has room for the error text, and expects no
padding behind the end of the request. -/
structure Held (r : Record) : Prop where
  stderr : r.header.type = stderr → r.content.length ≤ kBufferSize
  endRequest : r.header.type = endRequest → r.padding = []

namespace Reading

variable {take : ℕ → ℕ → ℕ} {s : Reading}

theorem readInto_whole {size : ℕ} {data rest : Bytes} (hs : s.socket.rest = data ++ rest)
    (h : take s.socket.calls data.length = data.length) (hsize : data.length ≤ size) :
    s.readInto take size data.length =
      .ok (data, { s with socket := ⟨s.socket.calls + 1, rest⟩ }) := by
  rw [readInto, read_of_whole hs h]
  exact if_neg (by omega)

theorem appendRead_whole {data rest : Bytes} (hs : s.socket.rest = data ++ rest)
    (h : take s.socket.calls data.length = data.length) (hsize : data.length ≤ kBufferSize) :
    s.appendRead take data.length = .ok { s with
      socket := ⟨s.socket.calls + 1, rest⟩
      buffer := s.buffer.append data } := by
  rw [appendRead, readInto_whole hs h hsize]
  rfl

theorem readBlocks_whole {nbuf : ℕ} {content rest : Bytes}
    (hlen : content.length = nbuf * kBufferSize) (hs : s.socket.rest = content ++ rest)
    (h : Whole take s.socket.calls (List.replicate nbuf kBufferSize)) :
    ∃ buffer, s.readBlocks take nbuf = .ok { s with
        socket := ⟨s.socket.calls + nbuf, rest⟩
        buffer } ∧ buffer.peek = s.buffer.peek ++ content := by
  induction nbuf generalizing s content with
  | zero =>
    rw [Nat.zero_mul, List.length_eq_zero_iff] at hlen
    subst hlen
    rw [List.nil_append] at hs
    refine ⟨s.buffer, ?_, by rw [List.append_nil]⟩
    rw [readBlocks, Nat.add_zero, ← hs]
  | succ nbuf ih =>
    obtain ⟨htake, h⟩ := h
    have hblock : (content.take kBufferSize).length = kBufferSize := by
      rw [List.length_take, hlen, Nat.succ_mul]
      omega
    have hs' : s.socket.rest = content.take kBufferSize ++ (content.drop kBufferSize ++ rest) := by
      rw [hs, ← List.append_assoc, List.take_append_drop]
    have hread := appendRead_whole hs' (by rwa [hblock]) hblock.le
    rw [hblock] at hread
    have hrest : (content.drop kBufferSize).length = nbuf * kBufferSize := by
      rw [List.length_drop, hlen, Nat.succ_mul]
      omega
    obtain ⟨buffer, hrun, hpeek⟩ := ih (s := { s with
      socket := ⟨s.socket.calls + 1, content.drop kBufferSize ++ rest⟩
      buffer := s.buffer.append (content.take kBufferSize) }) hrest rfl h
    refine ⟨buffer, ?_, ?_⟩
    · rw [readBlocks, hread]
      change readBlocks take nbuf _ = _
      rw [hrun]
      simp only [Nat.add_right_comm, Nat.add_assoc]
    · rw [hpeek, Net.Buffer.peek_append, List.append_assoc, List.take_append_drop]

theorem skipPadding_whole {padding rest : Bytes}
    (hlen : padding.length = s.header.paddingLength.toNat) (hle : padding.length ≤ 8)
    (hs : s.socket.rest = padding ++ rest)
    (h : Whole take s.socket.calls (paddingCounts padding)) :
    s.skipPadding take = .ok { s with
      socket := ⟨s.socket.calls + (paddingCounts padding).length, rest⟩ } := by
  rw [skipPadding, ← hlen]
  rw [paddingCounts] at h ⊢
  by_cases hpos : 0 < padding.length
  · have hheader : 0 < s.header.paddingLength := by
      rw [UInt8.lt_iff_toNat_lt, ← hlen]
      exact hpos
    rw [if_pos hpos] at h ⊢
    rw [if_pos hheader, readInto_whole hs h.1 hle]
    rfl
  · have hheader : ¬ 0 < s.header.paddingLength := by
      rw [UInt8.lt_iff_toNat_lt, ← hlen]
      exact hpos
    have hnil : padding = [] := List.length_eq_zero_iff.mp (by omega)
    rw [if_neg hpos, if_neg hheader, List.length_nil, Nat.add_zero]
    rw [hnil, List.nil_append] at hs
    rw [← hs]

theorem readStdout_whole {content padding rest : Bytes}
    (hcontent : content.length = s.header.contentLength)
    (hpadding : padding.length = s.header.paddingLength.toNat) (hle : padding.length ≤ 8)
    (hs : s.socket.rest = content ++ (padding ++ rest))
    (h : Whole take s.socket.calls (List.replicate (content.length / kBufferSize) kBufferSize ++
      content.length % kBufferSize :: paddingCounts padding)) :
    ∃ buffer, s.readStdout take = .ok { s with
        socket := ⟨s.socket.calls + (content.length / kBufferSize + 1 +
          (paddingCounts padding).length), rest⟩
        buffer } ∧ buffer.peek = s.buffer.peek ++ content := by
  obtain ⟨hblocks, hremain, hskip⟩ := whole_append.mp h
  rw [List.length_replicate] at hremain hskip
  let nbuf := content.length / kBufferSize
  let front := content.take (nbuf * kBufferSize)
  let back := content.drop (nbuf * kBufferSize)
  have hfront : front.length = nbuf * kBufferSize := by
    rw [List.length_take, Nat.min_eq_left (Nat.div_mul_le_self _ _)]
  have hback : back.length = content.length % kBufferSize := by
    rw [List.length_drop, Nat.mod_eq_sub_div_mul]
  have hlt : back.length ≤ kBufferSize := by
    rw [hback]
    exact (Nat.mod_lt _ (by decide)).le
  have hsplit : front ++ back = content := List.take_append_drop _ _
  have hs' : s.socket.rest = front ++ (back ++ (padding ++ rest)) := by
    rw [hs, ← List.append_assoc front, hsplit]
  obtain ⟨buffer, hrun, hpeek⟩ := readBlocks_whole hfront hs' hblocks
  let s₁ : Reading := { s with
    socket := ⟨s.socket.calls + nbuf, back ++ (padding ++ rest)⟩
    buffer }
  have happend := @appendRead_whole take s₁ back (padding ++ rest) rfl (by rwa [hback]) hlt
  let s₂ : Reading := { s with
    socket := ⟨s.socket.calls + nbuf + 1, padding ++ rest⟩
    buffer := buffer.append back }
  have hend := @skipPadding_whole take s₂ padding rest hpadding hle rfl hskip
  refine ⟨buffer.append back, ?_, ?_⟩
  · rw [readStdout, ← hcontent, hrun]
    change (appendRead take _ s₁ >>= _) = _
    rw [← hback, happend]
    change skipPadding take s₂ = _
    rw [hend]
    simp only [s₂, nbuf, Nat.add_assoc]
  · rw [Net.Buffer.peek_append, hpeek, List.append_assoc, hsplit]

theorem readStderr_whole {content padding rest : Bytes}
    (hcontent : content.length = s.header.contentLength) (hsize : content.length ≤ kBufferSize)
    (hpadding : padding.length = s.header.paddingLength.toNat) (hle : padding.length ≤ 8)
    (hs : s.socket.rest = content ++ (padding ++ rest))
    (h : Whole take s.socket.calls (content.length :: paddingCounts padding)) :
    s.readStderr take = .ok { s with
      socket := ⟨s.socket.calls + (1 + (paddingCounts padding).length), rest⟩
      status := false
      message := content } := by
  obtain ⟨hread, hskip⟩ := h
  let s₁ : Reading := { s with
    socket := ⟨s.socket.calls + 1, padding ++ rest⟩
    status := false
    message := content }
  have hend := @skipPadding_whole take s₁ padding rest hpadding hle rfl hskip
  rw [readStderr, ← hcontent, readInto_whole hs hread hsize]
  change skipPadding take s₁ = _
  rw [hend]
  simp only [s₁, Nat.add_assoc]

/-- Where a record has been read in full. -/
structure Past (s : Reading) (r : Record) (rest : Bytes) (s' : Reading) : Prop where
  socket : s'.socket = ⟨s.socket.calls + (readCounts r).length, rest⟩
  buffer : s'.buffer.peek = s.buffer.peek ++ output [r]
  status : s'.status = false ↔ s.status = false ∨ r.header.type = stderr

/-- The loop once it has read the header of a record. -/
def behindHeader (s : Reading) (r : Record) (rest : Bytes) : Reading :=
  { s with
    socket := ⟨s.socket.calls + 1, r.content ++ (r.padding ++ rest)⟩
    header := r.header }

section Record

variable {r : Record} {rest : Bytes}

theorem turn_header (hs : s.socket.rest = r.bytes ++ rest)
    (h : take s.socket.calls headerLen = headerLen) :
    s.turn take = (do
      let s ← (s.behindHeader r rest).readRecord take
      .ok (some s)) := by
  have hs' : s.socket.rest = r.header.bytes ++ (r.content ++ (r.padding ++ rest)) := by
    rw [hs, Record.bytes, List.append_assoc, List.append_assoc]
  have hread := readInto_whole hs' h (Nat.le_refl headerLen)
  rw [Header.length_bytes] at hread
  rw [turn, hread]
  rfl

theorem turn_of_readRecord {s' : Reading} (hs : s.socket.rest = r.bytes ++ rest)
    (h : take s.socket.calls headerLen = headerLen)
    (hrecord : (s.behindHeader r rest).readRecord take = .ok s') :
    s.turn take = .ok (some s') := by
  rw [turn_header hs h, hrecord]
  rfl

variable (hs : s.socket.rest = r.bytes ++ rest) (h : Whole take s.socket.calls (readCounts r))

include hs h

theorem turn_stdout (ht : r.header.type = stdout) (hle : r.padding.length ≤ 8) :
    ∃ s', s.turn take = .ok (some s') ∧ Past s r rest s' := by
  rw [readCounts, if_pos ht] at h
  obtain ⟨buffer, hrun, hpeek⟩ := @readStdout_whole take (s.behindHeader r rest) _ _ rest
    r.length_content r.length_padding hle rfl h.2
  refine ⟨_, turn_of_readRecord hs h.1 ((if_pos ht).trans hrun), ?_, ?_, ?_⟩
  · simp [readCounts, ht, behindHeader, Nat.add_assoc, Nat.add_comm, Nat.add_left_comm]
  · rw [output_cons, if_pos ht, output_nil, List.append_nil]
    exact hpeek
  · simp [behindHeader, ht, stdout, stderr]

theorem turn_stderr (ht : r.header.type = stderr) (hsize : r.content.length ≤ kBufferSize)
    (hle : r.padding.length ≤ 8) : ∃ s', s.turn take = .ok (some s') ∧ Past s r rest s' := by
  have hne : r.header.type ≠ stdout := ht ▸ stderr_ne_stdout
  rw [readCounts, if_neg hne, if_pos ht] at h
  have hrun := @readStderr_whole take (s.behindHeader r rest) _ _ rest r.length_content hsize
    r.length_padding hle rfl h.2
  refine ⟨_, turn_of_readRecord hs h.1 ((if_neg hne).trans ((if_pos ht).trans hrun)), ?_, ?_, ?_⟩
  · simp [readCounts, ht, behindHeader, stdout, stderr, Nat.add_assoc, Nat.add_comm,
      Nat.add_left_comm]
  · rw [output_cons, if_neg hne, output_nil, List.append_nil]
    exact (List.append_nil _).symm
  · simp [ht]

theorem turn_endRequest (ht : r.header.type = endRequest) (hlen : r.content.length = 8)
    (hpadding : r.padding = []) : ∃ s', s.turn take = .ok (some s') ∧ Past s r rest s' := by
  have hne : r.header.type ≠ stdout := ht ▸ endRequest_ne_stdout
  have hne' : r.header.type ≠ stderr := ht ▸ endRequest_ne_stderr
  rw [readCounts, if_neg hne, if_neg hne', ← hlen] at h
  have hrest : (s.behindHeader r rest).socket.rest = r.content ++ rest := by
    rw [behindHeader, hpadding, List.nil_append]
  have hread := readInto_whole hrest h.2.1 hlen.le
  rw [hlen] at hread
  have hrecord : (s.behindHeader r rest).readRecord take =
      .ok { s.behindHeader r rest with socket := ⟨s.socket.calls + 2, rest⟩ } := by
    rw [readRecord]
    refine (if_neg hne).trans ((if_neg hne').trans ((if_pos ht).trans ?_))
    rw [hread]
    rfl
  refine ⟨_, turn_of_readRecord hs h.1 hrecord, ?_, ?_, ?_⟩
  · simp [readCounts, ht, stdout, stderr, endRequest]
  · rw [output_cons, if_neg hne, output_nil, List.append_nil]
    exact (List.append_nil _).symm
  · simp [behindHeader, hne']

/-- A record of which every read is given all of its bytes. -/
theorem turn_whole (hr : ResponseRecord r) (hheld : Held r) :
    ∃ s', s.turn take = .ok (some s') ∧ Past s r rest s' := by
  have hle : r.padding.length ≤ 8 := hr.padding.trans (by decide)
  rcases hr.type with ht | ht | ht
  · exact turn_stdout hs h ht hle
  · exact turn_stderr hs h ht (hheld.stderr ht) hle
  · exact turn_endRequest hs h ht (hr.endRequest ht) (hheld.endRequest ht)

/-- Error text for which there is no room. -/
theorem turn_overflow (ht : r.header.type = stderr) (hlt : kBufferSize < r.content.length) :
    s.turn take = .error .overflow := by
  have hne : r.header.type ≠ stdout := ht ▸ stderr_ne_stdout
  rw [readCounts, if_neg hne, if_pos ht] at h
  have hread : (s.behindHeader r rest).readInto take kBufferSize r.content.length =
      .error .overflow := by
    rw [readInto, @read_of_whole _ take _ r.content _ rfl h.2.1]
    exact if_pos hlt
  have hstderr : (s.behindHeader r rest).readStderr take = .error .overflow := by
    have hlen : (s.behindHeader r rest).header.contentLength = r.content.length :=
      r.length_content.symm
    rw [readStderr, hlen, hread]
    rfl
  have hrecord : (s.behindHeader r rest).readRecord take = .error .overflow :=
    (if_neg hne).trans ((if_pos ht).trans hstderr)
  rw [turn_header hs h.1, hrecord]
  rfl

end Record

theorem readAll_eq : readAll take s = (s.turn take >>= fun next ↦
    match next with
    | none => .ok s
    | some s' => readAll take s') := by
  rw [readAll]
  split <;> (rename_i h; rw [h]; rfl)

theorem readAll_of_turn {s' : Reading} (h : s.turn take = .ok (some s')) :
    readAll take s = readAll take s' := by
  rw [readAll_eq, h]
  rfl

/-- At the end of the stream the loop is left. -/
theorem readAll_nil (h : s.socket.rest = []) : readAll take s = .ok s := by
  have hturn : s.turn take = .ok none := by
    simp [turn, readInto, Lib.Feed.read, h, bind, Except.bind]
  rw [readAll_eq, hturn]
  rfl

/-- A response of which every read is given all of its bytes is read in full. -/
theorem readAll_whole {records : List Record} (hr : ∀ r ∈ records, ResponseRecord r)
    (hheld : ∀ r ∈ records, Held r) (hs : s.socket.rest = records.flatMap Record.bytes)
    (h : Whole take s.socket.calls (records.flatMap readCounts)) :
    ∃ s', readAll take s = .ok s' ∧ s'.buffer.peek = s.buffer.peek ++ output records ∧
      (s'.status = false ↔ s.status = false ∨ ∃ r ∈ records, r.header.type = stderr) := by
  induction records generalizing s with
  | nil => exact ⟨s, readAll_nil hs, by rw [output_nil, List.append_nil], by simp⟩
  | cons r records ih =>
    obtain ⟨hr₀, hr⟩ := List.forall_mem_cons.mp hr
    obtain ⟨hheld₀, hheld⟩ := List.forall_mem_cons.mp hheld
    rw [List.flatMap_cons] at hs h
    obtain ⟨h₀, h⟩ := whole_append.mp h
    obtain ⟨s₁, hturn, hpast⟩ := turn_whole hs h₀ hr₀ hheld₀
    have hsocket := hpast.socket
    have hbuffer := hpast.buffer
    rw [output_cons, output_nil, List.append_nil] at hbuffer
    have hs₁ : s₁.socket.rest = records.flatMap Record.bytes := by rw [hsocket]
    have hcalls : s₁.socket.calls = s.socket.calls + (readCounts r).length := by rw [hsocket]
    obtain ⟨s', hrun, hpeek, hstatus⟩ := ih hr hheld hs₁ (by rwa [hcalls])
    refine ⟨s', (readAll_of_turn hturn).trans hrun, ?_, ?_⟩
    · rw [hpeek, hbuffer, output_cons, List.append_assoc]
    · rw [hstatus, hpast.status, List.exists_mem_cons_iff, or_assoc]

theorem readAll_overflow {records : List Record} (hr : ∀ r ∈ records, ResponseRecord r)
    (hend : ∀ r ∈ records, r.header.type = endRequest → r.padding = [])
    (hs : s.socket.rest = records.flatMap Record.bytes)
    (h : Whole take s.socket.calls (records.flatMap readCounts))
    (hlong : ∃ r ∈ records, r.header.type = stderr ∧ kBufferSize < r.content.length) :
    readAll take s = .error .overflow := by
  induction records generalizing s with
  | nil =>
    obtain ⟨r, hmem, -⟩ := hlong
    cases hmem
  | cons r records ih =>
    obtain ⟨hr₀, hr⟩ := List.forall_mem_cons.mp hr
    obtain ⟨hend₀, hend⟩ := List.forall_mem_cons.mp hend
    rw [List.flatMap_cons] at hs h
    obtain ⟨h₀, h⟩ := whole_append.mp h
    by_cases hfirst : r.header.type = stderr ∧ kBufferSize < r.content.length
    · rw [readAll_eq, turn_overflow hs h₀ hfirst.1 hfirst.2]
      rfl
    · have hheld₀ : Held r := ⟨fun ht ↦ not_lt.mp fun hlt ↦ hfirst ⟨ht, hlt⟩, hend₀⟩
      obtain ⟨s₁, hturn, hpast⟩ := turn_whole hs h₀ hr₀ hheld₀
      have hsocket := hpast.socket
      have hs₁ : s₁.socket.rest = records.flatMap Record.bytes := by rw [hsocket]
      have hcalls : s₁.socket.calls = s.socket.calls + (readCounts r).length := by rw [hsocket]
      rw [readAll_of_turn hturn]
      refine ih hr hend hs₁ (by rwa [hcalls]) ?_
      rcases (List.exists_mem_cons_iff _ _ _).mp hlong with hlong | hlong
      · exact absurd hlong hfirst
      · exact hlong

theorem After.of_readAll {s' : Reading} (h : readAll take s = .ok s') : After s s' := by
  induction hn : s.socket.rest.length using Nat.strong_induction_on generalizing s with
  | _ n ih =>
    rw [readAll_eq] at h
    obtain ⟨next, hturn, h⟩ := bind_eq_ok.mp h
    cases next with
    | none =>
      cases h
      exact ⟨List.prefix_rfl, le_rfl⟩
    | some s₁ =>
      obtain ⟨hafter, hlt⟩ := turn_some hturn
      exact hafter.trans (ih _ (hn ▸ hlt) h rfl)

end Reading

/-- A socket that delivers single bytes. -/
def byteAtATime (_ count : ℕ) : ℕ := min 1 count

theorem delivers_byteAtATime : Delivers byteAtATime := by
  intro k count
  rw [byteAtATime]
  omega

/-- A header of a type that `readPhpFpm` does not know. -/
def unknownHeader : Header := ⟨0, 0, 0, 0, 0, 0, 0, 0⟩

/-- The header of a record of one byte. -/
def oneByteHeader : Header := ⟨1, stdout, 0, 1, 0, 1, 0, 0⟩

namespace Reading

/-- A single byte of a header leaves its type as it was. -/
theorem turn_byteAtATime {s : Reading} {b : UInt8} {rest : Bytes}
    (hs : s.socket.rest = b :: rest) :
    s.turn byteAtATime = (do
      let s ← { s with
        socket := ⟨s.socket.calls + 1, rest⟩
        header := { s.header with version := b } }.readRecord byteAtATime
      .ok (some s)) := by
  have hread : s.readInto byteAtATime headerLen headerLen =
      .ok ([b], { s with socket := ⟨s.socket.calls + 1, rest⟩ }) := by
    rw [readInto, Lib.Feed.read, hs]
    rfl
  rw [turn, hread]
  rfl

theorem readAll_unknown {s : Reading} (htype : s.header.type = 0) :
    ∃ s', readAll byteAtATime s = .ok s' ∧ s'.buffer = s.buffer := by
  induction hrest : s.socket.rest generalizing s with
  | nil => exact ⟨s, readAll_nil hrest, rfl⟩
  | cons b rest ih =>
    let s₁ : Reading := { s with
      socket := ⟨s.socket.calls + 1, rest⟩
      header := { s.header with version := b } }
    have hturn : s.turn byteAtATime = .ok (some s₁) := by
      rw [turn_byteAtATime hrest, readRecord, htype]
      rfl
    rw [readAll_of_turn hturn]
    exact @ih s₁ htype rfl

theorem turn_oneByte {s : Reading} {b c : UInt8} {rest : Bytes} (hheader : s.header = oneByteHeader)
    (hs : s.socket.rest = b :: c :: rest) :
    ∃ s', s.turn byteAtATime = .ok (some s') ∧ s'.buffer.peek = s.buffer.peek ++ [c] := by
  let s₁ : Reading := { s with
    socket := ⟨s.socket.calls + 1, c :: rest⟩
    header := { s.header with version := b } }
  have hlen : [c].length = s₁.header.contentLength := by
    simp only [s₁, hheader]
    rfl
  have hpadding : ([] : Bytes).length = s₁.header.paddingLength.toNat := by
    simp only [s₁, hheader]
    rfl
  have htype : s₁.header.type = stdout := by
    simp only [s₁, hheader]
    rfl
  have hwhole : Whole byteAtATime s₁.socket.calls
      (List.replicate (1 / kBufferSize) kBufferSize ++ 1 % kBufferSize :: paddingCounts []) := by
    have hcounts : List.replicate (1 / kBufferSize) kBufferSize ++
        1 % kBufferSize :: paddingCounts [] = [1] := by decide
    rw [hcounts]
    exact ⟨rfl, trivial⟩
  obtain ⟨buffer, hrun, hpeek⟩ :=
    @readStdout_whole byteAtATime s₁ [c] [] rest hlen hpadding (Nat.zero_le _) rfl hwhole
  have hturn {s' : Reading} (hrecord : s₁.readRecord byteAtATime = .ok s') :
      s.turn byteAtATime = .ok (some s') := by
    rw [turn_byteAtATime hs]
    change (s₁.readRecord byteAtATime >>= _) = _
    rw [hrecord]
    rfl
  exact ⟨_, hturn ((if_pos htype).trans hrun), hpeek⟩

end Reading

section Response

variable {take : ℕ → ℕ → ℕ} {memory : Header} {buffer : Net.Buffer} {records : List Record}

theorem reassembles_iff_readAll : Reassembles take memory buffer records ↔
    ∃ s', Reading.readAll take
        ⟨⟨0, records.flatMap Record.bytes⟩, memory, buffer, true, ascii "OK"⟩ = .ok s' ∧
      s'.buffer.peek = buffer.peek ++ output records ∧
      (s'.status = false ↔ ∃ r ∈ records, r.header.type = stderr) := by
  constructor
  · intro h
    obtain ⟨status, message, buffer', hread, hpeek, hstatus⟩ := h
    obtain ⟨s', hrun, heq⟩ := bind_eq_ok.mp hread
    cases heq
    exact ⟨s', hrun, hpeek, hstatus⟩
  · intro h
    obtain ⟨s', hrun, hpeek, hstatus⟩ := h
    refine ⟨s'.status, s'.message, s'.buffer, ?_, hpeek, hstatus⟩
    rw [readPhpFpm, hrun]
    rfl

theorem reassembles_whole (hr : ∀ r ∈ records, ResponseRecord r) (hheld : ∀ r ∈ records, Held r)
    (h : Whole take 0 (records.flatMap readCounts)) : Reassembles take memory buffer records := by
  obtain ⟨s', hrun, hpeek, hstatus⟩ := Reading.readAll_whole
    (s := ⟨⟨0, records.flatMap Record.bytes⟩, memory, buffer, true, ascii "OK"⟩) hr hheld rfl h
  refine reassembles_iff_readAll.mpr ⟨s', hrun, hpeek, hstatus.trans ?_⟩
  simp

theorem not_reassembles_overflow (hr : ∀ r ∈ records, ResponseRecord r)
    (hend : ∀ r ∈ records, r.header.type = endRequest → r.padding = [])
    (h : Whole take 0 (records.flatMap readCounts))
    (hlong : ∃ r ∈ records, r.header.type = stderr ∧ kBufferSize < r.content.length) :
    ¬ Reassembles take memory buffer records := by
  intro hre
  obtain ⟨s', hrun, -, -⟩ := reassembles_iff_readAll.mp hre
  have herror := Reading.readAll_overflow
    (s := ⟨⟨0, records.flatMap Record.bytes⟩, memory, buffer, true, ascii "OK"⟩) hr hend rfl h hlong
  cases herror.symm.trans hrun

/-- Single bytes leave the type of the header as it was before the first read, so that the
records are taken for headers or the headers for records. -/
theorem not_reassembles_byteAtATime (hne : records ≠ []) :
    ∃ memory, ¬ Reassembles byteAtATime memory buffer records := by
  by_cases hout : output records = []
  · refine ⟨oneByteHeader, fun hre ↦ ?_⟩
    obtain ⟨s', hrun, hpeek, -⟩ := reassembles_iff_readAll.mp hre
    obtain ⟨r, records, rfl⟩ := List.exists_cons_of_ne_nil hne
    obtain ⟨s₁, hturn, hpeek₁⟩ := Reading.turn_oneByte
      (s := ⟨⟨0, (r :: records).flatMap Record.bytes⟩, oneByteHeader, buffer, true, ascii "OK"⟩)
      rfl rfl
    rw [Reading.readAll_of_turn hturn] at hrun
    dsimp only at hpeek₁
    have hle := (Reading.After.of_readAll hrun).buffer.length_le
    rw [hpeek, hpeek₁, hout, List.append_nil, List.length_append, List.length_singleton] at hle
    omega
  · refine ⟨unknownHeader, fun hre ↦ ?_⟩
    obtain ⟨s', hrun, hpeek, -⟩ := reassembles_iff_readAll.mp hre
    obtain ⟨s₁, hrun₁, hbuffer⟩ := Reading.readAll_unknown
      (s := ⟨⟨0, records.flatMap Record.bytes⟩, unknownHeader, buffer, true, ascii "OK"⟩) rfl
    cases hrun₁.symm.trans hrun
    rw [hbuffer] at hpeek
    exact hout (List.self_eq_append_right.mp hpeek)

/-- However the socket delivers it, a response is put together again only if it has no
records. Where every read is given all of its bytes and the end of the request has no
padding, it is put together again just when there is room for its error texts. -/
theorem reassembles_iff (hr : ∀ r ∈ records, ResponseRecord r) :
    ((∀ take memory buffer, Delivers take → Reassembles take memory buffer records) ↔
      records = []) ∧
    ∀ take memory buffer, Whole take 0 (records.flatMap readCounts) →
      (∀ r ∈ records, r.header.type = endRequest → r.padding = []) →
      (Reassembles take memory buffer records ↔
        ∀ r ∈ records, r.header.type = stderr → r.content.length ≤ kBufferSize) := by
  refine ⟨⟨fun hall ↦ ?_, ?_⟩, fun take memory buffer h hend ↦ ⟨fun hre ↦ ?_, fun hsize ↦ ?_⟩⟩
  · by_contra hne
    obtain ⟨memory, hnot⟩ := @not_reassembles_byteAtATime .init records hne
    exact hnot (hall _ _ _ delivers_byteAtATime)
  · rintro rfl take memory buffer -
    exact reassembles_whole (by simp) (by simp) trivial
  · by_contra hlong
    push Not at hlong
    exact not_reassembles_overflow hr hend h hlong hre
  · exact reassembles_whole hr (fun r hmem ↦ ⟨hsize r hmem, hend r hmem⟩) h

end Response

/-- The output of three bytes. -/
def outputRecord : Record where
  header := ⟨1, stdout, 0, 1, 0, 3, 0, 0⟩
  content := ascii "abc"
  padding := []
  length_content := rfl
  length_padding := by decide

theorem responseRecord_output : ∀ r ∈ [outputRecord], ResponseRecord r := by
  intro r hmem
  obtain rfl := List.mem_singleton.mp hmem
  refine ⟨.inl rfl, Nat.zero_le _, fun ht ↦ ?_⟩
  exact absurd ht (by decide)

theorem reassembles_iff_output :
    ((∀ take memory buffer, Delivers take → Reassembles take memory buffer [outputRecord]) ↔
      [outputRecord] = []) ∧
    ∀ take memory buffer, Whole take 0 ([outputRecord].flatMap readCounts) →
      (∀ r ∈ [outputRecord], r.header.type = endRequest → r.padding = []) →
      (Reassembles take memory buffer [outputRecord] ↔
        ∀ r ∈ [outputRecord], r.header.type = stderr → r.content.length ≤ kBufferSize) :=
  reassembles_iff responseRecord_output

/-- A socket that gives two bytes when it is asked for three. -/
def twoOfThree (_ count : ℕ) : ℕ := if count = 3 then 2 else count

theorem delivers_twoOfThree : Delivers twoOfThree := by
  intro k count
  unfold twoOfThree
  split_ifs <;> omega

/-- The loop once it has read two bytes of the output. -/
def twoRead : Reading where
  socket := ⟨2, ascii "c"⟩
  header := outputRecord.header
  buffer := .append (.init 4) (ascii "ab")
  status := true
  message := ascii "OK"

/-- The third byte is taken for the header of a record. -/
theorem not_reassembles :
    Delivers twoOfThree ∧ (∀ r ∈ [outputRecord], ResponseRecord r) ∧
      ¬ Reassembles twoOfThree unknownHeader (.init 4) [outputRecord] := by
  refine ⟨delivers_twoOfThree, responseRecord_output, fun hre ↦ ?_⟩
  obtain ⟨s', hrun, hpeek, -⟩ := reassembles_iff_readAll.mp hre
  have hfirst : Reading.turn twoOfThree ⟨⟨0, [outputRecord].flatMap Record.bytes⟩, unknownHeader,
      .init 4, true, ascii "OK"⟩ = .ok (some twoRead) := rfl
  have hsecond : twoRead.turn twoOfThree = .ok (some { twoRead with
      socket := ⟨4, []⟩
      header := { outputRecord.header with version := 'c'.toUInt8 } }) := rfl
  rw [Reading.readAll_of_turn hfirst, Reading.readAll_of_turn hsecond,
    Reading.readAll_nil rfl] at hrun
  cases hrun
  exact absurd (congrArg List.length hpeek) (by decide)

end Socnet.PhpFastCgi
