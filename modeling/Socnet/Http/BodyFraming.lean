import Socnet.Http.ParserSafety

namespace Socnet.Http

open Lib Sequence Net Utility.EncodeUtil RequestHead

def decimal (v : Bytes) : Option ℕ :=
  if v ≠ [] ∧ v.all (between '0' '9') then
    some (v.foldl (fun n c ↦ 10 * n + (c - '0'.toUInt8).toNat) 0)
  else none

namespace RequestHead

variable (q : RequestHead)

def header : HttpHeader := storeFields Multimap.empty q.fields

/-- The length that the header states for the body, zero without a statement. -/
def contentLength : Option ℕ :=
  (q.header.get (ascii "Content-Length")).elim (some 0) decimal

def multiPart : Bool :=
  (q.header.get (ascii "Content-Type")).any fun v ↦ ascii "multipart/form-data" <+: v

def keepsAlive : Bool :=
  match q.header.get (ascii "Connection"), q.version with
  | none, v => v ≠ .http10
  | some c, .http10 => ascii "keep-alive" <+: toLowers c
  | some c, _ => ¬ ascii "close" <+: toLowers c

end RequestHead

/-- A request with a body, as it is sent on a connection that stays open. -/
structure Message where
  head : RequestHead
  body : Bytes
  fields_ne_nil : head.fields ≠ []
  content_length : head.contentLength = some body.length
  not_multiPart : head.multiPart = false
  keepsAlive : head.keepsAlive = true

namespace Message

def header (m : Message) : HttpHeader := m.head.header
def text (m : Message) : Bytes := m.head.text ++ m.body

def stream (ms : List Message) : Bytes := (ms.map text).flatten

end Message

namespace Connection

def bytes (events : List (List Bytes)) : Bytes := events.flatten.flatten

def cut (events : List (List Bytes)) (i : ℕ) : ℕ := (bytes (events.take i)).length

/-- The reads make up the messages, and none of them ends inside a request line. -/
def Delivered (ms : List Message) (events : List (List Bytes)) : Prop :=
  (∀ reads ∈ events, reads.flatten ≠ []) ∧ bytes events = Message.stream ms ∧
    ∀ i ≤ events.length, ∀ j < ms.length, ∀ m ∈ ms[j]?,
      ¬ ((Message.stream (ms.take j)).length < cut events i ∧
        cut events i < (Message.stream (ms.take j)).length + m.head.startLine.length)

/-- A read ends where a message ends, and none ends before that once the head
is complete. -/
def Aligned (ms : List Message) (events : List (List Bytes)) : Prop :=
  ∀ j < ms.length, ∀ m ∈ ms[j]?,
    (∃ i ≤ events.length, cut events i = (Message.stream (ms.take j)).length + m.text.length) ∧
    ∀ i ≤ events.length,
      ¬ ((Message.stream (ms.take j)).length + m.head.text.length ≤ cut events i ∧
        cut events i < (Message.stream (ms.take j)).length + m.text.length)

instance (ms : List Message) : DecidablePred (Delivered ms) := fun _ ↦
  inferInstanceAs (Decidable (_ ∧ _ ∧ _))

instance (ms : List Message) : DecidablePred (Aligned ms) := fun _ ↦
  inferInstanceAs (Decidable (∀ _ < _, _))

/-- The requests answered over a sequence of read events, each with all the
bytes that had been read by then. -/
def log (store : HttpPassStore) (c : Connection) (seen : Bytes) :
    List (List Bytes) → Except Fault (List (Bytes × Answered))
  | [] => .ok []
  | reads :: events =>
    if c.disconnected then .ok []
    else do
      let (c, answered) ← c.onRead store reads
      let rest ← log store c (seen ++ reads.flatten) events
      .ok (answered.toList.map (seen ++ reads.flatten, ·) ++ rest)

/-- Each answered request has its own body and form, and what has been read
behind it is still readable. -/
def Framed (done : Bytes) : List Message → List (Bytes × Answered) → Prop
  | [], [] => True
  | m :: ms, (seen, code, r) :: answers =>
    (code = .requestContentDone ∧ r.postData = m.body ∧
      HttpRequest.parseKeyValue HttpRequest.terminator '='.toUInt8 '&'.toUInt8 m.body ∅ =
        .ok r.form ∧ seen = done ++ m.text ++ r.recver.peek) ∧
    Framed (done ++ m.text) ms answers
  | _, _ => False

end Connection

namespace Connection

section Cuts

variable {ms : List Message} {m : Message} {events pre post : List (List Bytes)}
  {last : List Bytes}

@[simp] theorem bytes_nil : bytes [] = [] := rfl

@[simp] theorem bytes_cons (reads : List Bytes) (events : List (List Bytes)) :
    bytes (reads :: events) = reads.flatten ++ bytes events := by
  rw [bytes, List.flatten_cons, List.flatten_append]
  rfl

@[simp] theorem bytes_append (l l' : List (List Bytes)) :
    bytes (l ++ l') = bytes l ++ bytes l' := by
  rw [bytes, List.flatten_append, List.flatten_append]
  rfl

theorem cut_mono (events : List (List Bytes)) {i j : ℕ} (h : i ≤ j) :
    cut events i ≤ cut events j := by
  have hpre := List.take_prefix_take_left (l := events) h
  obtain ⟨l, hl⟩ := hpre
  rw [cut, cut, ← hl, bytes_append, List.length_append]
  omega

theorem cut_append (g post : List (List Bytes)) (i : ℕ) :
    cut (g ++ post) (g.length + i) = (bytes g).length + cut post i := by
  rw [cut, List.take_length_add_append, bytes_append, List.length_append]
  rfl

theorem cut_length_append (g post : List (List Bytes)) :
    cut (g ++ post) g.length = (bytes g).length := by
  rw [cut, List.take_left' rfl]

@[simp] theorem stream_cons (m : Message) (ms : List Message) :
    Message.stream (m :: ms) = m.text ++ Message.stream ms := rfl

theorem exists_reaching {n : ℕ} (hn : 0 < n) (h : n ≤ (bytes events).length) :
    ∃ pre last post, events = pre ++ last :: post ∧ (bytes pre).length < n ∧
      n ≤ (bytes (pre ++ [last])).length := by
  induction events generalizing n with
  | nil =>
    rw [bytes_nil, List.length_nil] at h
    omega
  | cons reads events ih =>
    by_cases hr : n ≤ reads.flatten.length
    · exact ⟨[], reads, events, rfl, hn, by simpa using hr⟩
    · rw [bytes_cons, List.length_append] at h
      obtain ⟨pre, last, post, rfl, hlt, hle⟩ := ih (show 0 < n - reads.flatten.length by omega)
        (show n - reads.flatten.length ≤ (bytes events).length by omega)
      refine ⟨reads :: pre, last, post, rfl, ?_, ?_⟩
      · rw [bytes_cons, List.length_append]
        omega
      · rw [List.cons_append, bytes_cons, List.length_append]
        omega

theorem Delivered.first {reads : List Bytes} (h : Delivered (m :: ms) (reads :: events)) :
    m.head.startLine.length ≤ reads.flatten.length := by
  obtain ⟨hne, -, hcut⟩ := h
  have hpos := List.length_pos_iff.mpr (hne reads List.mem_cons_self)
  have hfirst := hcut 1 (by simp) 0 (by simp) m rfl
  have hlen : cut (reads :: events) 1 = reads.flatten.length := by simp [cut]
  rw [hlen] at hfirst
  simp only [List.take_zero] at hfirst
  change ¬ (0 < _ ∧ _ < 0 + _) at hfirst
  omega

theorem Delivered.tail {g : List (List Bytes)} (hg : bytes g = m.text)
    (h : Delivered (m :: ms) (g ++ post)) : Delivered ms post := by
  obtain ⟨hne, hstream, hcut⟩ := h
  refine ⟨fun reads hr ↦ hne reads (List.mem_append_right _ hr), ?_, ?_⟩
  · rw [bytes_append, stream_cons, hg] at hstream
    exact List.append_cancel_left hstream
  · intro i hi j hj m' hm' hin
    refine hcut (g.length + i) (by simpa using hi) (j + 1) (by simpa using hj) m' hm' ?_
    rw [cut_append, hg, List.take_succ_cons, stream_cons, List.length_append]
    omega

/-- Alignment, message by message: the read that completes a head goes on to the
end of the message. -/
theorem aligned_cons_iff (hpre : (bytes pre).length < m.head.text.length)
    (hlast : m.head.text.length ≤ (bytes (pre ++ [last])).length)
    (hstream : bytes (pre ++ [last] ++ post) = Message.stream (m :: ms)) :
    Aligned (m :: ms) (pre ++ [last] ++ post) ↔
      bytes (pre ++ [last]) = m.text ∧ Aligned ms post := by
  have hhead : m.text.length = m.head.text.length + m.body.length := by simp [Message.text]
  have hg : (pre ++ [last]).length = pre.length + 1 := by simp
  have hcut := cut_length_append (pre ++ [last]) post
  have hindex {k : ℕ} : (pre ++ [last]).length + k ≤ (pre ++ [last] ++ post).length ↔
      k ≤ post.length := by
    simp only [List.length_append]
    omega
  have hstart (j : ℕ) : (Message.stream ((m :: ms).take (j + 1))).length =
      m.text.length + (Message.stream (ms.take j)).length := by simp
  have hbefore {i : ℕ} (hi : i < (pre ++ [last]).length) :
      cut (pre ++ [last] ++ post) i < m.head.text.length := by
    have hle : cut (pre ++ [last] ++ post) i ≤ cut (pre ++ ([last] ++ post)) pre.length := by
      rw [← List.append_assoc]
      exact cut_mono _ (by omega)
    rw [cut_length_append] at hle
    omega
  have hsplit {i : ℕ} (hi : m.head.text.length ≤ cut (pre ++ [last] ++ post) i) :
      ∃ k, i = (pre ++ [last]).length + k := by
    by_contra hno
    have : i < (pre ++ [last]).length := by
      by_contra hge
      exact hno ⟨i - (pre ++ [last]).length, by omega⟩
    have := hbefore this
    omega
  constructor
  · intro hal
    have hend : bytes (pre ++ [last]) = m.text := by
      obtain ⟨⟨i, hi, hcuti⟩, hno⟩ := hal 0 (by simp) m rfl
      simp only [List.take_zero] at hcuti hno
      change _ = 0 + _ at hcuti
      have hno' := hno (pre ++ [last]).length (by simp)
      change ¬ (0 + _ ≤ _ ∧ _ < 0 + _) at hno'
      obtain ⟨k, rfl⟩ := hsplit (i := i) (by omega)
      have hmono := cut_mono (pre ++ [last] ++ post) (Nat.le_add_right (pre ++ [last]).length k)
      have hlen : (bytes (pre ++ [last])).length = m.text.length := by omega
      rw [bytes_append, stream_cons] at hstream
      exact (List.append_inj hstream hlen).1
    refine ⟨hend, ?_⟩
    intro j hj m' hm'
    obtain ⟨⟨i, hi, hcuti⟩, hno⟩ := hal (j + 1) (by simpa using hj) m' hm'
    rw [hstart] at hcuti hno
    refine ⟨?_, fun k hk hin ↦ ?_⟩
    · obtain ⟨k, rfl⟩ := hsplit (i := i) (by omega)
      rw [cut_append, hend] at hcuti
      exact ⟨k, hindex.mp hi, by omega⟩
    · have hno' := hno ((pre ++ [last]).length + k) (hindex.mpr hk)
      rw [cut_append, hend] at hno'
      omega
  · rintro ⟨hend, hal⟩ j hj m' hm'
    rw [hend] at hcut
    cases j with
    | zero =>
      cases hm'
      change (∃ i ≤ _, _ = 0 + _) ∧ ∀ i ≤ _, ¬ (0 + _ ≤ _ ∧ _ < 0 + _)
      refine ⟨⟨(pre ++ [last]).length, by simp, by omega⟩, fun i hi hin ↦ ?_⟩
      obtain ⟨k, rfl⟩ := hsplit (i := i) (by omega)
      rw [cut_append, hend] at hin
      omega
    | succ j =>
      obtain ⟨⟨i, hi, hcuti⟩, hno⟩ := hal j (by simpa using hj) m' hm'
      rw [hstart]
      refine ⟨⟨(pre ++ [last]).length + i, hindex.mpr hi, ?_⟩, fun k hk hin ↦ ?_⟩
      · rw [cut_append, hend]
        omega
      · obtain ⟨k, rfl⟩ := hsplit (i := k) (by omega)
        rw [cut_append, hend] at hin
        exact hno k (hindex.mp hk) (by omega)

end Cuts

end Connection

namespace HttpRequest

section Turns

variable {store : HttpPassStore}

theorem turns_eq (r : HttpRequest) :
    r.turns store =
      r :: match r.turn store with
        | .ok (r', none) => r'.turns store
        | _ => [] := by
  rw [turns]
  split <;> simp_all only

theorem parseRequest_of_turn {r r' : HttpRequest} (h : r.turn store = .ok (r', none)) :
    r.parseRequest store = r'.parseRequest store := by rw [parseRequest_eq, h]

end Turns

/-- The request after its start line, with the header read so far. -/
def headed (q : RequestHead) (b : Buffer) (h : HttpHeader) (code : RetCode) : HttpRequest :=
  { init b with
    method := some q.method
    reqUrl := q.target
    version := some q.version
    header := h
    retCode := code }

variable (store : HttpPassStore) (q : RequestHead)

theorem turn_startLine {b : Buffer} {rest : Bytes} (hb : b.peek = q.startLine ++ rest) :
    (init b).turn store =
      .ok (headed q (b.retired q.startLine.length) Multimap.empty .requestLineDone, none) := by
  rw [turn]
  change ((init b).parseRequestLine >>= fun r ↦ .ok (r, none)) = _
  rw [parseRequestLine_startLine (init b) q rest hb]
  rfl

theorem parseRequestHeader_headed {b : Buffer} {h h' : HttpHeader} (code : RetCode)
    {code' : RetCode} {rest : Bytes} (hs : scanLines b.peek h = .ok (code', h', rest)) :
    ∃ b', (headed q b h code).parseRequestHeader = .ok (headed q b' h' code') ∧
      b'.peek = rest := by
  have hout := outcome_parseRequestHeader (headed q b h code)
  change _ = scanLines b.peek h at hout
  rw [hs] at hout
  cases hp : (headed q b h code).parseRequestHeader with
  | error e =>
    rw [hp] at hout
    cases hout
  | ok r =>
    rw [hp] at hout
    simp only [Except.map, outcome, Except.ok.injEq, Prod.mk.injEq] at hout
    obtain ⟨hcode, hheader, hrest⟩ := hout
    refine ⟨r.recver, ?_, hrest⟩
    have hframe := headerLoop_frame hp
    rw [hframe, hcode, hheader]
    rfl

theorem turn_headed {b : Buffer} {h : HttpHeader} {code : RetCode}
    (hc : code = .requestLineDone ∨ code = .againHeader) :
    (headed q b h code).turn store =
      (headed q b h code).parseRequestHeader >>= fun r ↦
        .ok (r, if r.retCode = .againHeader then some .againHeader else none) := by
  rw [turn]
  rcases hc with rfl | rfl
  · rfl
  · rfl

theorem turn_again {b : Buffer} {h h' : HttpHeader} {code : RetCode} {rest : Bytes}
    (hc : code = .requestLineDone ∨ code = .againHeader)
    (hs : scanLines b.peek h = .ok (.againHeader, h', rest)) :
    ∃ b', (headed q b h code).turn store =
        .ok (headed q b' h' .againHeader, some .againHeader) ∧ b'.peek = rest := by
  obtain ⟨b', hp, hrest⟩ := parseRequestHeader_headed q code hs
  refine ⟨b', ?_, hrest⟩
  rw [turn_headed store q hc, hp]
  rfl

theorem turn_headerDone {b : Buffer} {h h' : HttpHeader} {code : RetCode} {rest : Bytes}
    (hc : code = .requestLineDone ∨ code = .againHeader)
    (hs : scanLines b.peek h = .ok (.requestHeaderDone, h', rest)) :
    ∃ b', (headed q b h code).turn store = .ok (headed q b' h' .requestHeaderDone, none) ∧
      b'.peek = rest := by
  obtain ⟨b', hp, hrest⟩ := parseRequestHeader_headed q code hs
  refine ⟨b', ?_, hrest⟩
  rw [turn_headed store q hc, hp]
  rfl

theorem scanLines_incomplete {a b : Bytes} {h h' : HttpHeader} (hb : b ≠ [])
    (hs : scanLines (a ++ b) h = .ok (.requestHeaderDone, h', [])) :
    ∃ h₁ rest, scanLines a h = .ok (.againHeader, h₁, rest) := by
  rw [scanLines_append] at hs
  cases ha : scanLines a h with
  | error e => simp [ha] at hs
  | ok x =>
    obtain ⟨code, h₁, rest⟩ := x
    cases code with
    | againHeader => exact ⟨h₁, rest, rfl⟩
    | _ => simp [ha, hb] at hs

theorem parseAuthorization_congr {r s : HttpRequest} (hh : s.header = r.header)
    (hm : s.method = r.method) (hd : s.da = r.da) :
    (∃ r', r.parseAuthorization store = .ok r') ↔ ∃ s', s.parseAuthorization store = .ok s' := by
  unfold parseAuthorization
  rw [hh, hm, hd]
  cases r.header.get (ascii "Authorization") with
  | none => simp
  | some v =>
    dsimp only
    split_ifs
    · cases removePrefix 6 v with
      | error e => simp [bind, Except.bind]
      | ok auth =>
        cases hdata : base64Decode auth with
        | error e => simp [bind, Except.bind, hdata]
        | ok data => simp [bind, Except.bind, hdata]
    · cases removePrefix 7 v with
      | error e => simp [bind, Except.bind]
      | ok auth =>
        cases hf : digestFields auth r.da with
        | error e => simp [bind, Except.bind, hf]
        | ok da =>
          cases hauth : HttpAuth.httpDigestAuth store v
            (da.add (ascii "method") ((r.method.map HttpMethod.text).getD [])) with
          | error e => simp [bind, Except.bind, hf, hauth]
          | ok auth => simp [bind, Except.bind, hf, hauth]
    · simp

end HttpRequest

namespace Message

/-- The authorization field of the message, if there is one, can be parsed. -/
def AuthorizationReturns (store : HttpPassStore) (m : Message) : Prop :=
  ∃ r, (HttpRequest.headed m.head Buffer.init m.header .requestHeaderDone).parseAuthorization
    store = .ok r

variable (store : HttpPassStore) (m : Message)

theorem header_ne_nil : m.header.entries ≠ [] := by
  intro hnil
  obtain ⟨f, fields, hf⟩ := List.exists_cons_of_ne_nil m.fields_ne_nil
  have hvalues := values_storeFields m.head (toLowers f.name)
  have hempty : (storeFields Multimap.empty m.head.fields).values (toLowers f.name) = [] := by
    change m.header.values _ = []
    simp [Multimap.values, hnil]
  rw [hempty] at hvalues
  by_cases hc : HttpHeader.setCookie <+: toLowers f.name
  · simp [HttpHeader.stored, pairs, hf, hc] at hvalues
  · simp [HttpHeader.stored, pairs, hf, hc, List.getLast?_cons] at hvalues

theorem keepalive_connectionFlags {r : HttpRequest} (hv : r.version = some m.head.version)
    (hh : r.header = m.header) (hk : r.keepalive = false) :
    r.connectionFlags.keepalive = true := by
  have hkeep := m.keepsAlive
  unfold HttpRequest.connectionFlags
  dsimp only
  rw [hh, hv, hk]
  unfold RequestHead.keepsAlive at hkeep
  change (match m.header.get (ascii "Connection"), m.head.version with
    | none, v => decide (v ≠ .http10)
    | some c, .http10 => decide (ascii "keep-alive" <+: toLowers c)
    | some c, _ => decide (¬ ascii "close" <+: toLowers c)) = true at hkeep
  cases hget : m.header.get (ascii "Connection") with
  | none => simpa [hget] using hkeep
  | some v =>
    rw [hget] at hkeep
    cases hver : m.head.version with
    | http10 => simp_all
    | http11 => simp_all
    | http20 => simp_all

def headRead (b : Buffer) : HttpRequest :=
  HttpRequest.headed m.head b m.header .requestHeaderDone

/-- What the rest of the content turn looks at. -/
structure AtContent (b : Buffer) (r : HttpRequest) : Prop where
  recver : r.recver = b
  header : r.header = m.header
  method : r.method = some m.head.method
  da : r.da = ∅
  hasMultipart : r.hasMultipart = false
  postData : r.postData = []
  form : r.form = ∅
  keepalive : r.keepalive = true

theorem turn_headRead (b : Buffer) :
    ∃ r, m.AtContent b r ∧
      (m.headRead b).turn store = (r.parseAuthorization store >>= fun r₁ ↦
        r₁.parseRequestContent >>= fun r₂ ↦
          .ok (r₂, if r₂.retCode = .againContent then some .againContent else none)) := by
  obtain ⟨r₁, h₁, hf₁⟩ := (m.headRead b).parseUrlQuery_ok
  obtain ⟨r₂, h₂, hf₂⟩ := r₁.connectionFlags.parseCookie_ok
  have hkeep : r₁.connectionFlags.keepalive = true :=
    m.keepalive_connectionFlags (by rw [hf₁]; rfl) (by rw [hf₁]; rfl) (by rw [hf₁]; rfl)
  have hfields : ¬ (r₁.header.entries = [] ∧ r₁.version ≠ some .http10) := by
    rw [hf₁]
    exact fun h ↦ m.header_ne_nil h.1
  have hat : m.AtContent b r₂ := by
    rw [hf₂]
    refine ⟨?_, ?_, ?_, ?_, ?_, ?_, ?_, hkeep⟩ <;> (rw [HttpRequest.connectionFlags, hf₁]; rfl)
  have h₃ : r₂.parseMultiPartData = .ok r₂ := by
    unfold HttpRequest.parseMultiPartData
    rw [hat.header]
    cases hv : m.header.get (ascii "Content-Type") with
    | none => rfl
    | some v =>
      have hmulti := m.not_multiPart
      rw [RequestHead.multiPart, ← header, hv] at hmulti
      exact if_neg (by simpa using hmulti)
  refine ⟨r₂, hat, ?_⟩
  rw [HttpRequest.turn]
  change ((m.headRead b).parseUrlQuery >>= fun r ↦ _) = _
  rw [h₁]
  simp only [bind, Except.bind]
  rw [if_neg hfields, h₂]
  simp only [h₃]

/-- The content turn of a message succeeds when its authorization does and its
body is not cut off in front of a blank, and then takes all that is readable. -/
theorem parseRequest_content (b : Buffer) :
    (¬ (m.AuthorizationReturns store ∧ (m.headRead b).ContentSafe) ∧
      ∃ e, (m.headRead b).parseRequest store = .error e) ∨
    (m.AuthorizationReturns store ∧ (m.headRead b).ContentSafe) ∧
      ∃ r, (m.headRead b).parseRequest store = .ok (.requestContentDone, r) ∧
        r.postData = b.peek ∧
        HttpRequest.parseKeyValue HttpRequest.terminator '='.toUInt8 '&'.toUInt8 b.peek ∅ =
          .ok r.form ∧ r.recver.peek = [] ∧ r.keepalive = true := by
  obtain ⟨r, hat, hturn⟩ := m.turn_headRead store b
  have hauth : m.AuthorizationReturns store ↔ ∃ r', r.parseAuthorization store = .ok r' :=
    HttpRequest.parseAuthorization_congr store hat.header hat.method hat.da
  rw [HttpRequest.parseRequest_eq, hturn]
  cases h₁ : r.parseAuthorization store with
  | error e =>
    refine .inl ⟨fun h ↦ ?_, e, rfl⟩
    obtain ⟨r', hr'⟩ := hauth.mp h.1
    rw [h₁] at hr'
    cases hr'
  | ok r₁ =>
    have hframe := HttpRequest.parseAuthorization_frame store h₁
    have hcontent : r₁.parseRequestContent =
        (HttpRequest.parseKeyValue b.memory '='.toUInt8 '&'.toUInt8 b.peek ∅ >>= fun form ↦
          .ok { r₁ with
            postData := b.peek
            form
            recver := b.retiredAll
            retCode := .requestContentDone }) := by
      rw [HttpRequest.parseRequestContent, hframe]
      simp [hat.hasMultipart, hat.recver, hat.postData, hat.form]
    have hkeep : r₁.keepalive = true := by rw [hframe, hat.keepalive]
    cases hform : HttpRequest.parseKeyValue b.memory '='.toUInt8 '&'.toUInt8 b.peek ∅ with
    | error e =>
      refine .inl ⟨fun h ↦ ?_, e, ?_⟩
      · have hsafe : HttpRequest.OpenEnded '&'.toUInt8 b.peek →
          ∃ c ∈ b.memory.head?, c ≠ SP := h.2
        obtain ⟨form, hok, -⟩ :=
          HttpRequest.parseKeyValue_ok '='.toUInt8 '&'.toUInt8 b.peek ∅ hsafe
        rw [hform] at hok
        cases hok
      · simp [hcontent, hform, bind, Except.bind]
    | ok form =>
      have hsafe : HttpRequest.OpenEnded '&'.toUInt8 b.peek →
        ∃ c ∈ b.memory.head?, c ≠ SP := HttpRequest.head_of_parseKeyValue hform
      obtain ⟨form', hok, hterm⟩ :=
        HttpRequest.parseKeyValue_ok '='.toUInt8 '&'.toUInt8 b.peek ∅ hsafe
      rw [hform] at hok
      cases hok
      refine .inr ⟨⟨hauth.mpr ⟨r₁, h₁⟩, hsafe⟩, ?_⟩
      simp only [hcontent, hform, bind, Except.bind]
      refine ⟨_, HttpRequest.parseRequest_eq _ _, rfl, hterm, b.peek_retiredAll, hkeep⟩

end Message

namespace Connection

open HttpRequest

variable (store : HttpPassStore)

def contentTurns (l : List HttpRequest) : List HttpRequest :=
  l.filter (·.retCode = .requestHeaderDone)

theorem peek_readAgain (c : Connection) (reads : List Bytes) :
    (c.readAgain reads).recver.peek = c.recver.peek ++ reads.flatten := by
  change (reads.foldl Buffer.append c.recver).peek = _
  induction reads generalizing c with
  | nil => simp
  | cons b reads ih =>
    rw [List.foldl_cons, List.flatten_cons, ← List.append_assoc, ← Buffer.peek_append]
    exact ih { c with recver := c.recver.append b }

structure Idle (c : Connection) : Prop where
  open_ : c.disconnected = false
  context : c.context = none
  recver : c.recver.peek = []

/-- A connection that has taken the bytes `p` of a head `q`: none, or at least
its start line and less than the whole. -/
inductive Reading (q : RequestHead) : Bytes → Connection → Prop
  | idle {c : Connection} (h : c.Idle) : Reading q [] c
  | waiting {p : Bytes} {c : Connection} {h : HttpHeader} (hopen : c.disconnected = false)
      (hctx : c.context = some (headed q c.recver h .againHeader)) (hline : q.startLine <+: p)
      (hscan : ∀ t, scanLines (c.recver.peek ++ t) h =
        scanLines ((p ++ t).drop q.startLine.length) Multimap.empty) : Reading q p c

variable {q : RequestHead} {p : Bytes} {c : Connection} {reads : List Bytes}

theorem Reading.not_disconnected (h : Reading q p c) : c.disconnected = false := by
  cases h with
  | idle h => exact h.open_
  | waiting hopen => exact hopen

/-- Whatever came before, the next read puts the parser at a header turn over
all the header bytes there are. -/
theorem Reading.enter (h : Reading q p c) (hline : q.startLine <+: p ++ reads.flatten) :
    ∃ b hd code, (code = .requestLineDone ∨ code = .againHeader) ∧
      (c.readAgain reads).request.parseRequest store = (headed q b hd code).parseRequest store ∧
      contentTurns ((c.readAgain reads).request.turns store) =
        contentTurns ((headed q b hd code).turns store) ∧
      scanLines b.peek hd =
        scanLines ((p ++ reads.flatten).drop q.startLine.length) Multimap.empty := by
  cases h with
  | idle h =>
    obtain ⟨rest, hrest⟩ := hline
    rw [List.nil_append] at hrest
    have hpeek : (c.readAgain reads).recver.peek = q.startLine ++ rest := by
      rw [peek_readAgain, h.recver, hrest, List.nil_append]
    have hreq : (c.readAgain reads).request = init (c.readAgain reads).recver := by
      have hctx : (c.readAgain reads).context = none := h.context
      rw [request, hctx]
    have hturn := turn_startLine store q hpeek
    refine ⟨(c.readAgain reads).recver.retired q.startLine.length, Multimap.empty,
      .requestLineDone, .inl rfl, ?_, ?_, ?_⟩
    · rw [hreq, parseRequest_of_turn hturn]
    · rw [hreq, turns_eq, hturn]
      rfl
    · rw [Buffer.peek_retired, hpeek, List.nil_append, hrest]
  | waiting hopen hctx hline hscan =>
    rename_i hd
    have hreq : (c.readAgain reads).request =
        headed q (c.readAgain reads).recver hd .againHeader := by
      have hctx' : (c.readAgain reads).context = some (headed q c.recver hd .againHeader) := hctx
      rw [request, hctx']
      rfl
    refine ⟨(c.readAgain reads).recver, hd, .againHeader, .inr rfl, by rw [hreq],
      by rw [hreq], ?_⟩
    rw [peek_readAgain, hscan]

theorem headed_retCode_ne {b : Buffer} {hd : HttpHeader} {code : RetCode}
    (h : code = .requestLineDone ∨ code = .againHeader) :
    (headed q b hd code).retCode ≠ .requestHeaderDone := by
  rcases h with rfl | rfl
  · exact nofun
  · exact nofun

theorem readable_readAgain (hne : reads.flatten ≠ []) :
    (c.readAgain reads).recver.readable ≠ 0 := by
  have := List.length_pos_iff.mpr hne
  rw [← Buffer.peek_length, peek_readAgain, List.length_append]
  omega

theorem onRead_eq (hne : reads.flatten ≠ []) :
    c.onRead store reads = ((c.readAgain reads).onMessage store >>= fun x ↦
      .ok (if x.2.isSome then x.1.onWrite else x.1, x.2)) := by
  rw [onRead, if_neg (readable_readAgain hne)]

theorem fieldLines_of_text {t : Bytes} (hline : q.startLine <+: p) (h : p ++ t = q.text) :
    p.drop q.startLine.length ++ t = fieldLines q.fields ++ CRLF := by
  rw [← List.drop_append_of_le_length hline.length_le, h, RequestHead.text, List.drop_left' rfl]

theorem Reading.onRead_again (h : Reading q p c) (hne : reads.flatten ≠ [])
    (hline : q.startLine <+: p ++ reads.flatten) {t : Bytes} (ht : t ≠ [])
    (htext : p ++ reads.flatten ++ t = q.text) :
    contentTurns ((c.readAgain reads).request.turns store) = [] ∧
    ∃ c', c.onRead store reads = .ok (c', none) ∧ Reading q (p ++ reads.flatten) c' := by
  obtain ⟨b, hd, code, hcode, hparse, hturns, hscan⟩ := h.enter store hline
  have hall := scanLines_fields q.fields Multimap.empty []
  rw [List.append_nil, ← fieldLines_of_text hline htext] at hall
  obtain ⟨hd', rest, hagain⟩ := scanLines_incomplete ht hall
  rw [← hscan] at hagain
  obtain ⟨b', hturn, hrest⟩ := turn_again store q hcode hagain
  refine ⟨?_, { c.readAgain reads with
    recver := b', context := some (headed q b' hd' .againHeader) }, ?_, ?_⟩
  · rw [hturns, turns_eq, hturn]
    simp [contentTurns, headed_retCode_ne hcode]
  · rw [onRead_eq store hne, onMessage, hparse, parseRequest_eq, hturn]
    rfl
  · refine .waiting h.not_disconnected rfl hline fun t' ↦ ?_
    rw [hscan] at hagain
    change scanLines (b'.peek ++ t') hd' = _
    rw [List.drop_append_of_le_length hline.length_le,
      scanLines_append ((p ++ reads.flatten).drop _), hagain, hrest]

theorem contentTurns_of_rank {r : HttpRequest} (h : rank r.retCode = 0) :
    contentTurns (r.turns store) = [] := by
  cases hc : r.retCode with
  | badRequest => simp [turns_eq, turn, hc, contentTurns]
  | requestContentDone => simp [turns_eq, turn, hc, contentTurns]
  | _ => simp [hc, rank] at h

theorem contentTurns_headRead (m : Message) (b : Buffer) :
    contentTurns ((m.headRead b).turns store) = [m.headRead b] := by
  have hself : (m.headRead b).retCode = .requestHeaderDone := rfl
  rw [turns_eq]
  cases ht : (m.headRead b).turn store with
  | error e => simp [contentTurns, hself]
  | ok x =>
    obtain ⟨r, code⟩ := x
    cases code with
    | some code => simp [contentTurns, hself]
    | none =>
      have hrank : rank r.retCode = 0 := Nat.lt_one_iff.mp (turn_rank ht)
      have hrest := contentTurns_of_rank store hrank
      rw [contentTurns] at hrest
      simp [contentTurns, hself, hrest]

theorem Reading.onRead_answer {m : Message} (h : Reading m.head p c) (hne : reads.flatten ≠ [])
    {x : Bytes} (htext : p ++ reads.flatten = m.head.text ++ x) :
    ∃ b, b.peek = x ∧
      contentTurns ((c.readAgain reads).request.turns store) = [m.headRead b] ∧
      ((¬ (m.AuthorizationReturns store ∧ (m.headRead b).ContentSafe) ∧
          ∃ e, c.onRead store reads = .error e) ∨
        (m.AuthorizationReturns store ∧ (m.headRead b).ContentSafe) ∧
          ∃ r c', c.onRead store reads = .ok (c', some (.requestContentDone, r)) ∧ c'.Idle ∧
            r.postData = x ∧
            parseKeyValue terminator '='.toUInt8 '&'.toUInt8 x ∅ = .ok r.form ∧
            r.recver.peek = []) := by
  have hline : m.head.startLine <+: p ++ reads.flatten := by
    rw [htext, RequestHead.text, List.append_assoc]
    exact List.prefix_append _ _
  obtain ⟨b, hd, code, hcode, hparse, hturns, hscan⟩ := h.enter store hline
  have hall := scanLines_fields m.head.fields Multimap.empty x
  have hdrop : (p ++ reads.flatten).drop m.head.startLine.length =
      fieldLines m.head.fields ++ (CRLF ++ x) := by
    rw [htext, RequestHead.text, List.append_assoc, List.drop_left' rfl, List.append_assoc]
  rw [← hdrop, ← hscan] at hall
  obtain ⟨b', hturn, hrest⟩ := turn_headerDone store m.head hcode hall
  refine ⟨b', hrest, ?_, ?_⟩
  · rw [hturns, turns_eq, hturn]
    have hcontent := contentTurns_headRead store m b'
    rw [contentTurns] at hcontent ⊢
    rw [List.filter_cons_of_neg (by simpa using headed_retCode_ne hcode)]
    exact hcontent
  · have hreq : (c.readAgain reads).request.parseRequest store =
        (m.headRead b').parseRequest store := by rw [hparse, parseRequest_of_turn hturn]; rfl
    rcases m.parseRequest_content store b' with ⟨hno, e, he⟩ | ⟨hyes, r, hr, hpost, hform, hpeek, hk⟩
    · refine .inl ⟨hno, e, ?_⟩
      rw [onRead_eq store hne, onMessage, hreq, he]
      rfl
    · rw [hrest] at hpost hform
      refine .inr ⟨hyes, r, { c.readAgain reads with
        recver := r.recver.reset, context := none, keepAlive := r.keepalive,
        disconnected := !r.keepalive }, ?_, ⟨?_, rfl, r.recver.peek_retiredAll⟩, hpost, hform, hpeek⟩
      · rw [onRead_eq store hne, onMessage, hreq, hr]
        rfl
      · simp [hk]

section Events

variable {events : List (List Bytes)} {c' : Connection} {a : Option Answered}

theorem log_cons {seen : Bytes} (hopen : c.disconnected = false)
    (hread : c.onRead store reads = .ok (c', a)) :
    c.log store seen (reads :: events) = (c'.log store (seen ++ reads.flatten) events).map
      (a.toList.map (seen ++ reads.flatten, ·) ++ ·) := by
  rw [log, hopen, hread]
  cases h : c'.log store (seen ++ reads.flatten) events with
  | error e => simp [bind, Except.bind, Except.map, h]
  | ok l => simp [bind, Except.bind, Except.map, h]

theorem log_cons_error {seen : Bytes} {e : Fault} (hopen : c.disconnected = false)
    (hread : c.onRead store reads = .error e) :
    c.log store seen (reads :: events) = .error e := by
  rw [log, hopen, hread]
  rfl

theorem turns_cons (hopen : c.disconnected = false) (hne : reads.flatten ≠ [])
    (hread : c.onRead store reads = .ok (c', a)) :
    c.turns store (reads :: events) =
      (c.readAgain reads).request.turns store ++ c'.turns store events := by
  rw [turns, hopen, hread, if_neg (readable_readAgain hne)]
  rfl

theorem turns_cons_error {e : Fault} (hopen : c.disconnected = false) (hne : reads.flatten ≠ [])
    (hread : c.onRead store reads = .error e) :
    c.turns store (reads :: events) = (c.readAgain reads).request.turns store := by
  rw [turns, hopen, hread, if_neg (readable_readAgain hne)]
  exact List.append_nil _

end Events

theorem contentTurns_append (l l' : List HttpRequest) :
    contentTurns (l ++ l') = contentTurns l ++ contentTurns l' := List.filter_append _ _

theorem Reading.log_incomplete {pre : List (List Bytes)} (rest : List (List Bytes))
    (seen : Bytes) {t : Bytes} (h : Reading q p c)
    (hne : ∀ reads ∈ pre, reads.flatten ≠ [])
    (hline : ∀ reads ∈ pre.head?, q.startLine.length ≤ (p ++ reads.flatten).length)
    (ht : t ≠ []) (htext : p ++ bytes pre ++ t = q.text) :
    ∃ c', c.log store seen (pre ++ rest) = c'.log store (seen ++ bytes pre) rest ∧
      contentTurns (c.turns store (pre ++ rest)) = contentTurns (c'.turns store rest) ∧
      Reading q (p ++ bytes pre) c' := by
  induction pre generalizing p c seen with
  | nil => exact ⟨c, by simp, rfl, by simpa using h⟩
  | cons reads pre ih =>
    have htext' : p ++ reads.flatten ++ bytes pre ++ t = q.text := by simpa using htext
    have hpre : p ++ reads.flatten <+: q.text := ⟨bytes pre ++ t, by rw [← htext']; simp⟩
    have hstart : q.startLine <+: p ++ reads.flatten :=
      List.prefix_of_prefix_length_le (List.prefix_append _ _) hpre (hline reads rfl)
    have hthis : reads.flatten ≠ [] := hne reads List.mem_cons_self
    have hopen : c.disconnected = false := h.not_disconnected
    obtain ⟨hturns, c₁, hread, h₁⟩ := h.onRead_again store hthis hstart
      (show bytes pre ++ t ≠ [] by simp [ht]) (by rw [← htext']; simp)
    obtain ⟨c', hlog, hturns', h'⟩ := ih (seen ++ reads.flatten) h₁
      (fun r hr ↦ hne r (List.mem_cons_of_mem _ hr))
      (fun r _ ↦ by have := hstart.length_le; rw [List.length_append]; omega) htext'
    refine ⟨c', ?_, ?_, by simpa using h'⟩
    · rw [List.cons_append, log_cons store hopen hread, hlog, bytes_cons, List.append_assoc]
      cases c'.log store (seen ++ (reads.flatten ++ bytes pre)) rest <;> rfl
    · rw [List.cons_append, turns_cons store hopen hthis hread, contentTurns_append, hturns,
        hturns', List.nil_append]

/-- What a connection owes its messages: every one of them is answered with its own
body. -/
def BodyFraming (store : HttpPassStore) (c : Connection) (seen : Bytes) (ms : List Message)
    (events : List (List Bytes)) : Prop :=
  ∃ answers, c.log store seen events = .ok answers ∧ Framed seen ms answers

theorem bodyFraming_nil {events : List (List Bytes)} (hd : Delivered [] events) (seen : Bytes) :
    c.BodyFraming store seen [] events ∧ c.turns store events = [] := by
  obtain ⟨hne, hstream, -⟩ := hd
  cases events with
  | nil => exact ⟨⟨[], rfl, trivial⟩, rfl⟩
  | cons reads events =>
    rw [bytes_cons] at hstream
    exact absurd (List.append_eq_nil_iff.mp hstream).1 (hne reads List.mem_cons_self)

theorem Idle.message {m : Message} {ms : List Message} {pre post : List (List Bytes)}
    {last : List Bytes} (h : c.Idle) (seen : Bytes)
    (hd : Delivered (m :: ms) (pre ++ last :: post))
    (hpre : (bytes pre).length < m.head.text.length)
    (hlast : m.head.text.length ≤ (bytes (pre ++ [last])).length) :
    ∃ b : Buffer, bytes (pre ++ [last]) = m.head.text ++ b.peek ∧
      ((¬ (m.AuthorizationReturns store ∧ (m.headRead b).ContentSafe) ∧
          (∃ e, c.log store seen (pre ++ last :: post) = .error e) ∧
          contentTurns (c.turns store (pre ++ last :: post)) = [m.headRead b]) ∨
        (m.AuthorizationReturns store ∧ (m.headRead b).ContentSafe) ∧
          ∃ (r : HttpRequest) (c' : Connection), c'.Idle ∧ c.log store seen (pre ++ last :: post) =
              (c'.log store (seen ++ bytes (pre ++ [last])) post).map
                ((seen ++ bytes (pre ++ [last]), .requestContentDone, r) :: ·) ∧
            contentTurns (c.turns store (pre ++ last :: post)) =
              m.headRead b :: contentTurns (c'.turns store post) ∧
            r.postData = b.peek ∧
            parseKeyValue terminator '='.toUInt8 '&'.toUInt8 b.peek ∅ = .ok r.form ∧
            r.recver.peek = []) := by
  have hne := hd.1
  have hstream := hd.2.1
  have hhead : m.head.text <+: bytes (pre ++ last :: post) := by
    rw [hstream, stream_cons, Message.text, List.append_assoc]
    exact List.prefix_append _ _
  have hall : bytes (pre ++ last :: post) = bytes (pre ++ [last]) ++ bytes post := by simp
  obtain ⟨x, hx⟩ : m.head.text <+: bytes (pre ++ [last]) :=
    List.prefix_of_prefix_length_le hhead ⟨_, hall.symm⟩ hlast
  obtain ⟨t, ht⟩ : bytes pre <+: m.head.text := by
    refine List.prefix_of_prefix_length_le ?_ hhead hpre.le
    exact ⟨bytes (last :: post), by rw [bytes_append]⟩
  have htne : t ≠ [] := by
    rintro rfl
    rw [List.append_nil] at ht
    rw [ht] at hpre
    exact lt_irrefl _ hpre
  have hlastne : last.flatten ≠ [] := hne last (by simp)
  have hfirst : ∀ reads ∈ pre.head?, m.head.startLine.length ≤ ([] ++ reads.flatten).length := by
    intro reads hr
    obtain ⟨pre', rfl⟩ := List.head?_eq_some_iff.mp hr
    exact hd.first
  obtain ⟨c₁, hlog, hturns, h₁⟩ := Reading.log_incomplete store (last :: post) seen
    (Reading.idle h) (fun reads hr ↦ hne reads (List.mem_append_left _ hr)) hfirst htne
    (by simpa using ht)
  have hopen := h₁.not_disconnected
  obtain ⟨b, hb, hcontent, hres⟩ := h₁.onRead_answer store hlastne (x := x)
    (by rw [hx]; simp)
  refine ⟨b, by rw [hb, hx], ?_⟩
  rw [hlog, hturns]
  rcases hres with ⟨hno, e, hread⟩ | ⟨hyes, r, c', hread, hidle, hpost, hform, hpeek⟩
  · refine .inl ⟨hno, ⟨e, log_cons_error store hopen hread⟩, ?_⟩
    rw [turns_cons_error store hopen hlastne hread, hcontent]
  · refine .inr ⟨hyes, r, c', hidle, ?_, ?_, hpost.trans hb.symm, hb ▸ hform, hpeek⟩
    · rw [log_cons store hopen hread, List.append_assoc, bytes_append, bytes_cons, bytes_nil,
        List.append_nil]
      rfl
    · rw [turns_cons store hopen hlastne hread, contentTurns_append, hcontent]
      rfl

/-- From a connection that waits for a request, by induction on the messages. -/
theorem bodyFraming_iff {ms : List Message} {events : List (List Bytes)} (seen : Bytes)
    (h : c.Idle) (hd : Delivered ms events) :
    c.BodyFraming store seen ms events ↔
      Aligned ms events ∧ (∀ m ∈ ms, m.AuthorizationReturns store) ∧
        ∀ r ∈ contentTurns (c.turns store events), r.ContentSafe := by
  induction ms generalizing c events seen with
  | nil =>
    obtain ⟨hframe, hturns⟩ := bodyFraming_nil store hd seen
    refine iff_of_true hframe ⟨?_, by simp, by simp [hturns, contentTurns]⟩
    intro j hj
    simp at hj
  | cons m ms ih =>
    have hpos : 0 < m.head.text.length := by
      rw [RequestHead.text, List.length_append, length_startLine]
      omega
    have htotal : m.head.text.length ≤ (bytes events).length := by
      rw [hd.2.1, stream_cons, Message.text, List.length_append, List.length_append]
      omega
    obtain ⟨pre, last, post, rfl, hpre, hlast⟩ := exists_reaching hpos htotal
    have hcat : pre ++ last :: post = pre ++ [last] ++ post := by simp
    obtain ⟨b, hbytes, hcase⟩ := h.message store seen hd hpre hlast
    have haligned := aligned_cons_iff hpre hlast (by rw [← hcat]; exact hd.2.1)
    rw [← hcat] at haligned
    rcases hcase with ⟨hno, ⟨e, hlog⟩, hturns⟩ |
      ⟨hyes, r, c', hidle, hlog, hturns, hpost, hform, hpeek⟩
    · refine iff_of_false ?_ ?_
      · rintro ⟨answers, hok, -⟩
        rw [hlog] at hok
        cases hok
      · rintro ⟨-, hauth, hsafe⟩
        refine hno ⟨hauth m List.mem_cons_self, hsafe _ ?_⟩
        rw [hturns]
        exact List.mem_singleton_self _
    · by_cases hbody : b.peek = m.body
      · have htext : bytes (pre ++ [last]) = m.text := by rw [hbytes, hbody]; rfl
        have htail : Delivered ms post := by
          rw [hcat] at hd
          exact hd.tail htext
        have hstep : c.BodyFraming store seen (m :: ms) (pre ++ last :: post) ↔
            c'.BodyFraming store (seen ++ m.text) ms post := by
          rw [BodyFraming, BodyFraming, hlog, htext]
          constructor
          · rintro ⟨answers, hok, hframed⟩
            cases hl : c'.log store (seen ++ m.text) post with
            | error e =>
              rw [hl] at hok
              cases hok
            | ok answers' =>
              rw [hl] at hok
              cases hok
              exact ⟨answers', rfl, hframed.2⟩
          · rintro ⟨answers', hl, hframed⟩
            refine ⟨(seen ++ m.text, .requestContentDone, r) :: answers', by rw [hl]; rfl,
              ⟨rfl, hpost.trans hbody, hbody ▸ hform, ?_⟩, hframed⟩
            rw [hpeek, List.append_nil]
        rw [hstep, ih (seen ++ m.text) hidle htail, haligned, hturns]
        simp only [htext, true_and, List.forall_mem_cons, hyes.1, hyes.2]
      · refine iff_of_false ?_ ?_
        · rintro ⟨answers, hok, hframed⟩
          rw [hlog] at hok
          cases hl : c'.log store (seen ++ bytes (pre ++ [last])) post with
          | error e =>
            rw [hl] at hok
            cases hok
          | ok answers' =>
            rw [hl] at hok
            cases hok
            exact hbody (hpost ▸ hframed.1.2.1)
        · rintro ⟨hal, -⟩
          have htext := (haligned.mp hal).1
          rw [hbytes] at htext
          exact hbody (List.append_cancel_left htext)

theorem idle_accepted : accepted.Idle := ⟨rfl, rfl, Buffer.peek_init _⟩

/-- However the messages are cut into reads outside their request lines, each is
answered with its own body exactly when the reads are aligned with them and no
content turn faults. -/
theorem bodyFraming_accepted (store : HttpPassStore) (ms : List Message)
    (events : List (List Bytes)) (hd : Delivered ms events) :
    accepted.BodyFraming store [] ms events ↔
      Aligned ms events ∧ (∀ m ∈ ms, m.AuthorizationReturns store) ∧
        ∀ r ∈ contentTurns (accepted.turns store events), r.ContentSafe :=
  bodyFraming_iff store [] idle_accepted hd

def formMessage : Message where
  head := ⟨.post, ascii "/", .http11,
    [⟨ascii "Content-Length", ascii "3", by decide, by decide, by decide⟩], by decide⟩
  body := ascii "a=1"
  fields_ne_nil := by decide
  content_length := by decide +kernel
  not_multiPart := by decide +kernel
  keepsAlive := by decide +kernel

theorem bodyFraming_two_forms : accepted.BodyFraming ⟨id, [], ∅⟩ [] [formMessage, formMessage]
    [[ascii "POST / HTTP/1.1\r\nContent-Le", ascii "ngth: 3\r"], [ascii "\n\r\na=1"],
      [formMessage.text]] := by
  refine (bodyFraming_accepted _ _ _ (by decide +kernel)).mpr
    ⟨by decide +kernel, ?_, by decide +kernel⟩
  intro m hm
  simp only [List.mem_cons, List.not_mem_nil, or_false, or_self] at hm
  subst hm
  exact ⟨_, rfl⟩

/-- The head and the body of a form come in two reads. -/
theorem bodyFraming_late_body : Delivered [formMessage] [[formMessage.head.text], [ascii "a=1"]] ∧
    ¬ accepted.BodyFraming ⟨id, [], ∅⟩ [] [formMessage]
      [[formMessage.head.text], [ascii "a=1"]] := by
  have hd : Delivered [formMessage] [[formMessage.head.text], [ascii "a=1"]] := by decide +kernel
  refine ⟨hd, fun h ↦ ?_⟩
  have hal := ((bodyFraming_iff _ [] idle_accepted hd).mp h).1
  revert hal
  decide +kernel

end Connection

end Socnet.Http
