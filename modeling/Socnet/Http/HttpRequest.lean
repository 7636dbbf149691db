import Socnet.Net.Buffer
import Socnet.Http.HttpAuth
import Socnet.Http.HttpMultiPart
import Socnet.Http.HttpUtil

namespace Socnet.Http

open Lib Sequence Net Utility.EncodeUtil

inductive HttpMethod
  | get
  | post
  | head
  deriving DecidableEq

inductive HttpVersion
  | http10
  | http11
  | http20
  deriving DecidableEq

def HttpMethod.text : HttpMethod → Bytes
  | .get => ascii "GET"
  | .post => ascii "POST"
  | .head => ascii "HEAD"

def HttpVersion.text : HttpVersion → Bytes
  | .http10 => ascii "HTTP/1.0"
  | .http11 => ascii "HTTP/1.1"
  | .http20 => ascii "HTTP/2.0"

inductive RetCode
  | noRequest
  | requestLineDone
  | requestHeaderDone
  | requestContentDone
  | badRequest
  | againHeader
  | againContent
  deriving DecidableEq

/-- The request under construction on a connection. `method` and `version` are
uninitialised until the request line has set them. -/
structure HttpRequest where
  recver : Buffer
  reqUrl : Bytes
  url : Bytes
  queryS : Bytes
  postData : Bytes
  method : Option HttpMethod
  version : Option HttpVersion
  header : HttpHeader
  multipart : HttpMultiPart
  retCode : RetCode
  cookies : HttpMap Bytes Bytes
  keepalive : Bool
  compressed : Bool
  hasMultipart : Bool
  hasCookies : Bool
  auth : Option HttpAuth
  query : HttpMap Bytes Bytes
  form : HttpMap Bytes Bytes
  da : HttpMap Bytes Bytes

namespace HttpRequest

def init (recver : Buffer) : HttpRequest where
  recver := recver
  reqUrl := []
  url := []
  queryS := []
  postData := []
  method := none
  version := none
  header := Multimap.empty
  multipart := HttpMultiPart.init
  retCode := .noRequest
  cookies := ∅
  keepalive := false
  compressed := false
  hasMultipart := false
  hasCookies := false
  auth := none
  query := ∅
  form := ∅
  da := ∅

variable (r : HttpRequest)

/-- The method a line starts with and the number of bytes to skip for it. -/
def startMethod (line : Bytes) : Option (HttpMethod × ℕ) :=
  if HttpMethod.get.text <+: line then some (.get, 4)
  else if HttpMethod.post.text <+: line then some (.post, 5)
  else if HttpMethod.head.text <+: line then some (.head, 5)
  else none

def startVersion (line : Bytes) : Option HttpVersion :=
  if HttpVersion.http10.text <+: line then some .http10
  else if HttpVersion.http11.text <+: line then some .http11
  else if HttpVersion.http20.text <+: line then some .http20
  else none

def parseRequestLine : Except Fault HttpRequest :=
  match startMethod r.recver.peek with
  | none => .ok { r with retCode := .badRequest }
  | some (method, i) => do
    let line ← removePrefix i r.recver.peek
    match find [SP] line with
    | none => .ok { r with method := some method, retCode := .badRequest }
    | some pos =>
      let reqUrl := line.take pos
      let line ← removePrefix (pos + 1) line
      match startVersion line with
      | none => .ok { r with method := some method, reqUrl, retCode := .badRequest }
      | some version =>
        let _ ← removePrefix 10 line
        .ok { r with
          method := some method
          reqUrl
          version := some version
          recver := r.recver.retired (i + (pos + 1) + 10)
          retCode := .requestLineDone }

/-- What a turn of the header loop finds at the front of its view: the blank
line, no complete line, a line without a colon, a value that `substr` cannot
cut, or a header line of `len` bytes. -/
inductive HeaderTurn
  | blank
  | incomplete
  | noColon
  | raise (e : Fault)
  | line (key value : Bytes) (len : ℕ)

def headerTurn (header : Bytes) : HeaderTurn :=
  if CRLF <+: header then .blank
  else
    match find CRLF header with
    | none => .incomplete
    | some pos =>
      let line := header.take pos
      match find (ascii ":") line with
      | none => .noColon
      | some pos2 =>
        match substr line (pos2 + 2) (pos - pos2 - 2) with
        | .error e => .raise e
        | .ok value => .line (line.take pos2) value (pos + 2)

theorem headerTurn_len {header key value : Bytes} {len : ℕ}
    (h : headerTurn header = .line key value len) : 2 ≤ len ∧ len ≤ header.length := by
  unfold headerTurn at h
  split_ifs at h
  split at h
  · cases h
  · rename_i pos hpos
    dsimp only at h
    split at h
    · cases h
    · split at h
      · cases h
      · cases h
        exact ⟨Nat.le_add_left 2 pos, find_length hpos⟩

/-- The loop of `parseRequestHeader`: `header` is the view it scans, next to
the lines it retires from the buffer one by one. -/
def headerLoop (header : Bytes) (r : HttpRequest) : Except Fault HttpRequest :=
  match _h : headerTurn header with
  | .blank => .ok { r with recver := r.recver.retired 2, retCode := .requestHeaderDone }
  | .incomplete => .ok { r with retCode := .againHeader }
  | .noColon => .ok { r with retCode := .badRequest }
  | .raise e => .error e
  | .line key value len =>
    headerLoop (header.drop len)
      { r with header := r.header.add key value, recver := r.recver.retired len }
termination_by header.length
decreasing_by
  have := headerTurn_len _h
  rw [List.length_drop]
  omega

def parseRequestHeader : Except Fault HttpRequest := headerLoop r.recver.peek r

def blanks : Bytes → Except Fault ℕ
  | [] => .error .badRead
  | c :: rest => if c = SP then do .ok ((← blanks rest) + 1) else .ok 0

/-- `s2` separates the pairs and `s1` the key from the value. Without `s1` the
position `npos + 1` wraps to zero and the value is the key again. Blanks behind
a separator are skipped in memory, where `memory` follows the view. -/
def parseKeyValue (memory : Bytes) (s1 s2 : UInt8) (s : Bytes) (c : HttpMap Bytes Bytes) :
    Except Fault (HttpMap Bytes Bytes) :=
  if _h : s = [] then .ok c
  else
    let pos := find [s2] s
    let kv := match pos with | none => s | some p => s.take p
    let (key, value) := match find [s1] kv with
      | none => (kv, kv)
      | some p => (kv.take p, kv.drop (p + 1))
    let c := c.add (urlDecode key) (urlDecode value)
    match pos with
    | none => .ok c
    | some p =>
      match blanks ((s ++ memory).drop (p + 1)) with
      | .error e => .error e
      | .ok n =>
        if p + n + 1 ≤ s.length then parseKeyValue memory s1 s2 (s.drop (p + n + 1)) c
        else .error .pastEnd
termination_by s.length
decreasing_by
  have := List.length_pos_iff.mpr _h
  simp only [List.length_drop]
  omega

def terminator : Bytes := [0]

def parseUrlQuery : Except Fault HttpRequest :=
  match find (ascii "?") r.reqUrl with
  | none => .ok { r with url := urlDecode r.reqUrl }
  | some pos => do
    let uls ← removePrefix (pos + 1) r.reqUrl
    let query ← parseKeyValue terminator '='.toUInt8 '&'.toUInt8 uls r.query
    .ok { r with queryS := uls, query, url := urlDecode (r.reqUrl.take pos) }

def parseCookie : Except Fault HttpRequest :=
  match r.header.get (ascii "Cookie") with
  | none => .ok r
  | some value => do
    let cookies ← parseKeyValue terminator '='.toUInt8 ';'.toUInt8 value r.cookies
    .ok { r with hasCookies := true, cookies }

def parseMultiPartData : Except Fault HttpRequest :=
  match r.header.get (ascii "Content-Type") with
  | none => .ok r
  | some value =>
    if ascii "multipart/form-data" <+: value then do
      let value ← removePrefix 21 value
      if ascii "boundary" <+: value then
        let value ← removePrefix 9 value
        .ok { r with hasMultipart := true, multipart := { r.multipart with boundary := value } }
      else .ok { r with hasMultipart := true }
    else .ok r

/-- State 0 of the digest loop: the name goes to `buffer[0..k)`. -/
def scanName (name : Bytes) : Bytes → Except Fault (Bytes × Option Bytes)
  | [] => .ok (name, none)
  | c :: rest =>
    if c = '='.toUInt8 then .ok (name, some rest)
    else if name.length < 128 then scanName (name ++ [c]) rest
    else .error .overflow

/-- State 1 of the digest loop: the value goes to `buffer[k..v)`. -/
def scanValue (k : ℕ) (value : Bytes) : Bytes → Except Fault (Bytes × Bytes)
  | [] => .ok (value, [])
  | c :: rest =>
    if c = ','.toUInt8 then .ok (value, c :: rest)
    else if c = '"'.toUInt8 then .ok (value, rest)
    else if k + value.length < 128 then scanValue k (value ++ [c]) rest
    else .error .overflow

theorem scanName_length {name text name' rest : Bytes}
    (h : scanName name text = .ok (name', some rest)) : rest.length < text.length := by
  induction text generalizing name with
  | nil => simp [scanName] at h
  | cons c text ih =>
    simp only [scanName] at h
    split_ifs at h
    · cases h
      simp
    · exact (ih h).trans (Nat.lt_succ_self _)

theorem scanValue_length {k : ℕ} {value text value' rest : Bytes}
    (h : scanValue k value text = .ok (value', rest)) : rest.length ≤ text.length := by
  induction text generalizing value with
  | nil =>
    cases h
    simp
  | cons c text ih =>
    simp only [scanValue] at h
    split_ifs at h
    · cases h
      simp
    · cases h
      simp
    · exact (ih h).trans (Nat.le_succ _)

def skipQuote (text : Bytes) : Bytes :=
  if ascii "\"" <+: text then text.drop 1 else text

/-- The digest loop from state 0. State 2 only leaves on a comma followed by a
space, and otherwise spins. -/
def digestFields (auth : Bytes) (da : HttpMap Bytes Bytes) : Except Fault (HttpMap Bytes Bytes) :=
  match _hn : scanName [] auth with
  | .error e => .error e
  | .ok (_, none) => .ok da
  | .ok (name, some rest) =>
    if rest = [] then .ok da
    else
      match _hv : scanValue name.length [] (skipQuote rest) with
      | .error e => .error e
      | .ok (value, rest') =>
        if rest' = [] then .ok (da.add name value)
        else if ascii ", " <+: rest' then digestFields (rest'.drop 2) (da.add name value)
        else .error .hang
termination_by auth.length
decreasing_by
  have h₁ := scanName_length _hn
  have h₂ := scanValue_length _hv
  have h₃ : (skipQuote rest).length ≤ rest.length := by
    unfold skipQuote
    split_ifs <;> simp
  simp only [List.length_drop]
  omega

variable (store : HttpPassStore)

def parseAuthorization : Except Fault HttpRequest :=
  match r.header.get (ascii "Authorization") with
  | none => .ok r
  | some x =>
    if ascii "Basic" <+: x then do
      let auth ← removePrefix 6 x
      let userPass ← base64Decode auth
      -- without a colon `npos + 1` wraps to zero
      let (user, pass) := match find (ascii ":") userPass with
        | none => (userPass, userPass)
        | some pos => (userPass.take pos, userPass.drop (pos + 1))
      .ok { r with auth := some (HttpAuth.httpBasicAuth store user pass) }
    else if ascii "Digest" <+: x then do
      let auth ← removePrefix 7 x
      let da ← digestFields auth r.da
      let da := da.add (ascii "method") ((r.method.map HttpMethod.text).getD [])
      let auth ← HttpAuth.httpDigestAuth store x da
      .ok { r with da, auth := some auth }
    else .ok r

def parseRequestContent : Except Fault HttpRequest :=
  let content := r.recver.peek
  let postData := r.postData ++ content
  if r.hasMultipart then
    let eob := ascii "--" ++ r.multipart.boundary ++ ascii "--" ++ CRLF
    if ¬ eob <:+ content then .ok { r with postData, retCode := .againContent }
    else do
      let multipart ← r.multipart.parse content r.recver.memory
      .ok { r with
        postData, multipart, recver := r.recver.retiredAll, retCode := .requestContentDone }
  else do
    let form ← parseKeyValue r.recver.memory '='.toUInt8 '&'.toUInt8 content r.form
    .ok { r with postData, form, recver := r.recver.retiredAll, retCode := .requestContentDone }

def connectionFlags : HttpRequest :=
  let keepalive := r.keepalive || r.version ≠ some .http10
  let keepalive := match r.header.get (ascii "Connection") with
    | none => keepalive
    | some conn =>
      if r.version = some .http10 ∧ ascii "keep-alive" <+: toLowers conn then true
      else if ascii "close" <+: toLowers conn then false
      else keepalive
  let compressed := match r.header.get (ascii "Accept-Encoding") with
    | none => r.compressed
    | some enc => (find (ascii "gzip") enc).isSome
  { r with keepalive, compressed }

/-- One turn of the `switch` in `parseRequest`: the new request and, when the
turn ends in a `return`, the code returned. -/
def turn : Except Fault (HttpRequest × Option RetCode) :=
  match r.retCode with
  | .noRequest => do
    let r ← r.parseRequestLine
    .ok (r, none)
  | .requestLineDone | .againHeader => do
    let r ← r.parseRequestHeader
    .ok (r, if r.retCode = .againHeader then some .againHeader else none)
  | .requestHeaderDone => do
    let r ← r.parseUrlQuery
    if r.header.entries = [] ∧ r.version ≠ some .http10 then
      .ok ({ r with keepalive := true }, some .requestContentDone)
    else
      let r ← r.connectionFlags.parseCookie
      let r ← r.parseMultiPartData
      let r ← r.parseAuthorization store
      let r ← r.parseRequestContent
      .ok (r, if r.retCode = .againContent then some .againContent else none)
  | .againContent => do
    let r ← r.parseRequestContent
    .ok (r, if r.retCode = .againContent then some .againContent else none)
  | .badRequest => .ok (r, some .badRequest)
  | .requestContentDone => .ok (r, some .requestContentDone)

theorem parseRequestLine_retCode {r r' : HttpRequest} (h : r.parseRequestLine = .ok r') :
    r'.retCode = .badRequest ∨ r'.retCode = .requestLineDone := by
  unfold parseRequestLine at h
  split at h
  · cases h
    exact .inl rfl
  · obtain ⟨line, -, h⟩ := bind_eq_ok.mp h
    split at h
    · cases h
      exact .inl rfl
    · obtain ⟨line, -, h⟩ := bind_eq_ok.mp h
      split at h
      · cases h
        exact .inl rfl
      · obtain ⟨-, -, h⟩ := bind_eq_ok.mp h
        cases h
        exact .inr rfl

theorem headerLoop_retCode {header : Bytes} {r r' : HttpRequest}
    (h : headerLoop header r = .ok r') :
    r'.retCode = .badRequest ∨ r'.retCode = .requestHeaderDone ∨ r'.retCode = .againHeader := by
  fun_induction headerLoop header r with
  | case1 =>
    cases h
    exact .inr (.inl rfl)
  | case2 =>
    cases h
    exact .inr (.inr rfl)
  | case3 =>
    cases h
    exact .inl rfl
  | case4 => cases h
  | case5 _ _ _ _ _ _ ih => exact ih h

theorem parseRequestContent_retCode {r r' : HttpRequest} (h : r.parseRequestContent = .ok r') :
    r'.retCode = .againContent ∨ r'.retCode = .requestContentDone := by
  unfold parseRequestContent at h
  dsimp only at h
  split_ifs at h
  · obtain ⟨m, -, h⟩ := bind_eq_ok.mp h
    cases h
    exact .inr rfl
  · cases h
    exact .inl rfl
  · obtain ⟨form, -, h⟩ := bind_eq_ok.mp h
    cases h
    exact .inr rfl

def rank : RetCode → ℕ
  | .noRequest => 3
  | .requestLineDone | .againHeader => 2
  | .requestHeaderDone | .againContent => 1
  | .badRequest | .requestContentDone => 0

theorem content_rank {r r' : HttpRequest} (h : r.parseRequestContent = .ok r')
    (ha : (if r'.retCode = .againContent then some RetCode.againContent else none) = none) :
    rank r'.retCode = 0 := by
  cases parseRequestContent_retCode h with
  | inl hc => simp [hc] at ha
  | inr hc => rw [hc, rank]

theorem turn_rank {store : HttpPassStore} {r r' : HttpRequest}
    (h : r.turn store = .ok (r', none)) : rank r'.retCode < rank r.retCode := by
  unfold turn at h
  cases hc : r.retCode with
  | noRequest =>
    simp only [hc] at h
    obtain ⟨r₁, h₁, h⟩ := bind_eq_ok.mp h
    cases h
    cases parseRequestLine_retCode h₁ with
    | inl h => simp [h, rank]
    | inr h => simp [h, rank]
  | requestLineDone | againHeader =>
    simp only [hc] at h
    obtain ⟨r₁, h₁, h⟩ := bind_eq_ok.mp h
    simp only [Except.ok.injEq, Prod.mk.injEq] at h
    obtain ⟨rfl, ha⟩ := h
    rcases headerLoop_retCode h₁ with h | h | h
    · simp [h, rank]
    · simp [h, rank]
    · simp [h] at ha
  | requestHeaderDone =>
    simp only [hc] at h
    obtain ⟨r₁, -, h⟩ := bind_eq_ok.mp h
    split_ifs at h
    · cases h
    · obtain ⟨r₂, -, h⟩ := bind_eq_ok.mp h
      obtain ⟨r₃, -, h⟩ := bind_eq_ok.mp h
      obtain ⟨r₄, -, h⟩ := bind_eq_ok.mp h
      obtain ⟨r₅, h₅, h⟩ := bind_eq_ok.mp h
      simp only [Except.ok.injEq, Prod.mk.injEq] at h
      obtain ⟨rfl, ha⟩ := h
      rw [content_rank h₅ ha]
      decide
  | againContent =>
    simp only [hc] at h
    obtain ⟨r₁, h₁, h⟩ := bind_eq_ok.mp h
    simp only [Except.ok.injEq, Prod.mk.injEq] at h
    obtain ⟨rfl, ha⟩ := h
    rw [content_rank h₁ ha]
    decide
  | badRequest =>
    simp only [hc] at h
    cases h
  | requestContentDone =>
    simp only [hc] at h
    cases h

/-- `parseRequest` turns its `switch` until a turn returns a code. -/
def parseRequest (store : HttpPassStore) (r : HttpRequest) :
    Except Fault (RetCode × HttpRequest) :=
  match _h : r.turn store with
  | .error e => .error e
  | .ok (r', some code) => .ok (code, r')
  | .ok (r', none) => parseRequest store r'
termination_by rank r.retCode
decreasing_by exact turn_rank _h

theorem parseRequest_eq (store : HttpPassStore) (r : HttpRequest) :
    r.parseRequest store =
      match r.turn store with
      | .error e => .error e
      | .ok (r', some code) => .ok (code, r')
      | .ok (r', none) => r'.parseRequest store := by
  rw [parseRequest]
  split <;> simp_all only

end HttpRequest

end Socnet.Http
