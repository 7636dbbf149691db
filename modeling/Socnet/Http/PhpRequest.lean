import Socnet.Http.PhpParams
import Socnet.Modules.Responder

namespace Socnet

open FastCgi

namespace PhpFastCgi

def responder : ℤ := 1

def makeBeginRequestBody (role keepconn : ℤ) : Bytes :=
  [.ofInt ((role >>> (8 : ℕ)) % 256), .ofInt (role % 256), if keepconn ≠ 0 then 1 else 0,
    0, 0, 0, 0, 0]

variable (c : PhpFastCgi)

/-- The bytes that are written, here and by the next. -/
def sendStartRequestRecord : Bytes :=
  (c.makeHeader beginRequest c.requestId 8 0).bytes ++ makeBeginRequestBody responder 0

def sendEndRequestRecord : Bytes := (c.makeHeader params c.requestId 0 0).bytes

def sendAllParams : List (Params × Bytes) → Except Fault Bytes
  | [] => .ok []
  | (param, value) :: ps => do
    let record ← c.sendParams param value
    let rest ← sendAllParams ps
    .ok (record ++ rest)

/-- What `dispatchPhpProcessor` sends to the backend. The writes other than those of the
loop of `sendPost` are taken in one piece. -/
def sendRequest (kernel : ℕ → ℕ → Option ℕ) (path : Bytes) (req : Http.HttpRequest) :
    Except Fault Bytes := do
  let env ← c.sendAllParams (Http.HttpServer.phpParams path req)
  let sent := c.sendStartRequestRecord ++ env
  match req.method with
  | none => .ok sent
  | some .post => do
    let post ← c.sendPost kernel req.postData
    .ok (sent ++ c.sendEndRequestRecord ++ post)
  | some _ => .ok (sent ++ c.sendEndRequestRecord)

/-- How the application is to take a request: the input of one without a body is left open. -/
def taken (path : Bytes) (req : Http.HttpRequest) : Responder :=
  let q : Request := ⟨c.requestId.toNat, 1, false,
    (Http.HttpServer.phpParams path req).map fun p ↦ (p.1.name, p.2), []⟩
  if req.method = some .post then .complete { q with input := req.postData } else .input q

variable {c}

theorem sendParams_of_le {param : Params} {value : Bytes}
    (h : (nameValueText param.name value).length ≤ kBufferSize) :
    c.sendParams param value = .ok (c.paramsRecord _ (h.trans (by decide))).bytes := by
  obtain ⟨body, hmake, htake⟩ := makeNameValueBody_of_le h
  rw [sendParams, hmake]
  change Except.ok _ = Except.ok _
  rw [Int.toNat_natCast, htake]
  simp [paramsRecord, Record.bytes]

theorem le_of_sendParams {param : Params} {value record : Bytes}
    (h : c.sendParams param value = .ok record) :
    (nameValueText param.name value).length ≤ kBufferSize := by
  obtain ⟨⟨body, bodyLen⟩, hmake, -⟩ := bind_eq_ok.mp h
  exact length_le_of_makeNameValueBody hmake

theorem fits_iff (c : PhpFastCgi) {ps : List (Params × Bytes)} :
    (∀ p ∈ ps, p.1.name.length + p.2.length ≤ 2043) ↔
      ∀ p ∈ ps, (nameValueText p.1.name p.2).length ≤ kBufferSize :=
  forall₂_congr fun p _ ↦ (carried_iff c p.1 p.2).symm.trans (carried_iff_length c p.1 p.2)

theorem nameValueText_ne_nil (name value : Bytes) : nameValueText name value ≠ [] := fun h ↦ by
  have hpos := congrArg List.length h
  simp only [nameValueText, List.length_append, length_lengthText, List.length_nil] at hpos
  split_ifs at hpos <;> omega

section Identifier

variable (h0 : 0 ≤ c.requestId) (hc : c.requestId ≤ 0xffff)

include h0 hc

theorem belongs_makeHeader (type : UInt8) (n : ℤ) :
    (c.makeHeader type c.requestId n 0).type = type ∧
      (c.makeHeader type c.requestId n 0).requestId = c.requestId.toNat := by
  have h := requestId_makeHeader h0 hc type c.requestId n 0
  exact ⟨rfl, by omega⟩

/-- Parameters that fit go out as records whose contents are their texts. -/
theorem sendAllParams_of_le {ps : List (Params × Bytes)}
    (h : ∀ p ∈ ps, (nameValueText p.1.name p.2).length ≤ kBufferSize) :
    ∃ rs : List Record, c.sendAllParams ps = .ok (rs.flatMap Record.bytes) ∧
      (∀ r ∈ rs, r.Belongs params c.requestId.toNat) ∧ (∀ r ∈ rs, r.content ≠ []) ∧
      rs.flatMap Record.content = ps.flatMap fun p ↦ nameValueText p.1.name p.2 := by
  induction ps with
  | nil => exact ⟨[], rfl, by simp, by simp, rfl⟩
  | cons p ps ih =>
    obtain ⟨hp, hps⟩ := List.forall_mem_cons.mp h
    obtain ⟨rs, hsend, hbelongs, hne, hcontent⟩ := ih hps
    refine ⟨c.paramsRecord _ (hp.trans (by decide)) :: rs, ?_, ?_, ?_, ?_⟩
    · rw [sendAllParams, sendParams_of_le hp, hsend]
      rfl
    · exact List.forall_mem_cons.mpr ⟨belongs_makeHeader h0 hc params _, hbelongs⟩
    · exact List.forall_mem_cons.mpr ⟨nameValueText_ne_nil _ _, hne⟩
    · rw [List.flatMap_cons, List.flatMap_cons, hcontent]
      rfl

end Identifier

theorem le_of_sendAllParams {ps : List (Params × Bytes)} {env : Bytes}
    (h : c.sendAllParams ps = .ok env) :
    ∀ p ∈ ps, (nameValueText p.1.name p.2).length ≤ kBufferSize := by
  induction ps generalizing env with
  | nil => simp
  | cons p ps ih =>
    obtain ⟨record, hrecord, h⟩ := bind_eq_ok.mp h
    obtain ⟨rest, hrest, -⟩ := bind_eq_ok.mp h
    exact List.forall_mem_cons.mpr ⟨le_of_sendParams hrecord, ih hrest⟩

/-- The texts of the parameters are read back as their names and values. -/
theorem decode_env {ps : List (Params × Bytes)}
    (h : ∀ p ∈ ps, (nameValueText p.1.name p.2).length ≤ kBufferSize) :
    Lib.Framing.decode readNameValue (ps.flatMap fun p ↦ nameValueText p.1.name p.2) =
      some (ps.map fun p ↦ (p.1.name, p.2)) := by
  have hsmall : kBufferSize < 2 ^ 31 := by decide
  have htext : (ps.flatMap fun p ↦ nameValueText p.1.name p.2) =
      (ps.map fun p ↦ (p.1.name, p.2)).flatMap fun p ↦ nameValueText p.1 p.2 := by
    rw [List.flatMap_map]
  rw [htext]
  refine Lib.Framing.decode_flatMap _ (fun p _ ↦ nameValueText_ne_nil _ _) fun p hp rest ↦ ?_
  obtain ⟨q, hq, rfl⟩ := List.mem_map.mp hp
  have hle := h q hq
  have hsum := length_le_nameValueText q.1.name q.2
  have hname : q.1.name.length < 2 ^ 31 := by omega
  have hvalue : q.2.length < 2 ^ 31 := by omega
  exact readNameValue_nameValueText hname hvalue rest

variable (c)

theorem contentLength_beginRequest :
    (c.makeHeader beginRequest c.requestId 8 0).contentLength = 8 :=
  PhpFastCgi.contentLength_makeHeader c beginRequest c.requestId 0 (by decide)

theorem paddingLength_beginRequest :
    0 = (c.makeHeader beginRequest c.requestId 8 0).paddingLength.toNat := rfl

def beginRecord : Record where
  header := c.makeHeader beginRequest c.requestId 8 0
  content := makeBeginRequestBody responder 0
  padding := []
  length_content := (contentLength_beginRequest c).symm
  length_padding := paddingLength_beginRequest c

/-- The request of the application once the parameters have come to their end. -/
def opened (ps : List (Params × Bytes)) : Request :=
  ⟨c.requestId.toNat, 1, false, ps.map fun p ↦ (p.1.name, p.2), []⟩

variable {c}

section Identifier

variable (h0 : 0 ≤ c.requestId) (hc : c.requestId ≤ 0xffff)

include h0 hc

/-- Up to the end of the parameters, a request is a sequence of records that opens it. -/
theorem opens_request {ps : List (Params × Bytes)}
    (h : ∀ p ∈ ps, (nameValueText p.1.name p.2).length ≤ kBufferSize) :
    ∃ (env : Bytes) (rs : List Record), c.sendAllParams ps = .ok env ∧
      c.sendStartRequestRecord ++ env ++ c.sendEndRequestRecord = rs.flatMap Record.bytes ∧
      Responder.takeAll .idle rs = some (.input (c.opened ps)) := by
  obtain ⟨rs, hsend, hbelongs, hne, hcontent⟩ := sendAllParams_of_le h0 hc h
  let last := c.paramsRecord [] (Nat.zero_le _)
  have hlast : last.Belongs params c.requestId.toNat := belongs_makeHeader h0 hc params 0
  have henv := decode_env h
  rw [← hcontent] at henv
  have hbegin : Responder.take .idle c.beginRecord =
      some (.params { c.opened ps with env := [] } []) := by
    have hid := (belongs_makeHeader h0 hc beginRequest 8).2
    simp only [Responder.take, beginRecord, makeBeginRequestBody, responder, hid, opened]
    rfl
  refine ⟨_, c.beginRecord :: (rs ++ [last]), hsend, ?_, ?_⟩
  · simp [sendStartRequestRecord, sendEndRequestRecord, beginRecord, last, paramsRecord,
      Record.bytes]
  · refine Responder.takeAll_cons.mpr ⟨_, hbegin, ?_⟩
    rw [Responder.takeAll_append, Responder.takeAll_params hbelongs hne, Option.bind_some,
      List.nil_append]
    refine Responder.takeAll_cons.mpr ⟨_, Responder.take_params_end hlast rfl henv, ?_⟩
    rfl

/-- One record of input and an end are taken, even if the record is itself an end. -/
theorem takeAll_stdin {q : Request} (hq : q.id = c.requestId.toNat) (hinput : q.input = [])
    {postdata : Bytes} (h : postdata.length ≤ maxLength) :
    Responder.takeAll (.input q) [c.stdinRecord postdata h, c.stdinRecord [] (Nat.zero_le _)] =
      some (.complete { q with input := postdata }) := by
  have hbelongs (content : Bytes) (hlen : content.length ≤ maxLength) :
      (c.stdinRecord content hlen).Belongs stdin q.id := by
    rw [hq]
    exact belongs_makeHeader h0 hc stdin _
  have hend := hbelongs [] (Nat.zero_le _)
  by_cases hnil : postdata = []
  · subst hnil
    have hsame : { q with input := [] } = q := by rw [← hinput]
    rw [hsame]
    refine Responder.takeAll_cons.mpr ⟨_, Responder.take_input_end hend rfl, ?_⟩
    exact Responder.takeAll_cons.mpr ⟨_, Responder.take_complete hend rfl, rfl⟩
  · have hfirst := Responder.take_input (hbelongs postdata h) hnil
    rw [hinput] at hfirst
    refine Responder.takeAll_cons.mpr ⟨_, hfirst, ?_⟩
    exact Responder.takeAll_cons.mpr ⟨_, Responder.take_input_end hend rfl, rfl⟩

end Identifier

/-- What completes a request is the stream of its input. -/
theorem stdinStream_of_takeAll {q : Request} {rs : List Record} {postdata : Bytes}
    (h0 : 0 ≤ c.requestId) (hq : q.id = c.requestId.toNat) (hinput : q.input = [])
    (h : Responder.takeAll (.input q) rs = some (.complete { q with input := postdata })) :
    StdinStream c.requestId postdata rs := by
  obtain ⟨contents, ends, rfl, hends, hbelongs, hne, hnone, hq'⟩ := Responder.takeAll_input h
  have hpost : contents.flatMap Record.content = postdata := by
    rw [hinput, List.nil_append] at hq'
    exact (congrArg Request.input hq').symm
  refine ⟨fun r hr ↦ (hbelongs r hr).1, fun r hr ↦ ?_, ?_, ?_, ?_⟩
  · rw [(hbelongs r hr).2, hq, Int.toNat_of_nonneg h0]
  · have hnil : ends.flatMap Record.content = [] := by
      rw [List.flatMap_eq_nil_iff]
      exact hnone
    rw [List.flatMap_append, hpost, hnil, List.append_nil]
  · refine ⟨ends.getLast hends, ?_, hnone _ (List.getLast_mem hends)⟩
    rw [List.getLast?_append_of_ne_nil _ hends, List.getLast?_eq_some_getLast hends]
  · intro before r after hs hr r' hr'
    rcases List.append_eq_append_iff.mp hs with ⟨x, rfl, hx⟩ | ⟨x, rfl, hx⟩
    · refine absurd (hnone r ?_) hr
      rw [hx]
      exact List.mem_append_right _ List.mem_cons_self
    · exact hne r' (List.mem_append_left _ hr')

open Http.HttpServer

/-- What is written of a request whose parameters fit: records that open it, and the body of
a POST request. -/
theorem sendRequest_of_le (kernel : ℕ → ℕ → Option ℕ) (h0 : 0 ≤ c.requestId)
    (hc : c.requestId ≤ 0xffff) {path : Bytes} {req : Http.HttpRequest} {method : Http.HttpMethod}
    (hm : req.method = some method)
    (hshort : ∀ p ∈ phpParams path req, (nameValueText p.1.name p.2).length ≤ kBufferSize) :
    ∃ rs : List Record,
      Responder.takeAll .idle rs = some (.input (c.opened (phpParams path req))) ∧
      c.sendRequest kernel path req =
        if method = .post then
          (c.sendPost kernel req.postData).map (rs.flatMap Record.bytes ++ ·)
        else .ok (rs.flatMap Record.bytes) := by
  obtain ⟨env, rs, hsend, hbytes, hopen⟩ := opens_request h0 hc hshort
  refine ⟨rs, hopen, ?_⟩
  rw [← hbytes, sendRequest, hsend, hm]
  cases method with
  | get => rfl
  | head => rfl
  | post =>
    rw [if_pos rfl]
    cases c.sendPost kernel req.postData with
    | error e => rfl
    | ok post => rfl

theorem taken_post {path : Bytes} {req : Http.HttpRequest} (hm : req.method = some .post) :
    c.taken path req = .complete { c.opened (phpParams path req) with input := req.postData } :=
  if_pos hm

theorem taken_of_ne {path : Bytes} {req : Http.HttpRequest} (hm : req.method ≠ some .post) :
    c.taken path req = .input (c.opened (phpParams path req)) := if_neg hm

theorem sendRequest_taken {kernel : ℕ → ℕ → Option ℕ} (hk : Accepting kernel)
    (h0 : 0 ≤ c.requestId) (hc : c.requestId ≤ 0xffff) {path : Bytes} {req : Http.HttpRequest}
    {method : Http.HttpMethod} (hm : req.method = some method)
    (hshort : ∀ p ∈ phpParams path req, (nameValueText p.1.name p.2).length ≤ kBufferSize)
    (hpost : method = .post → req.postData.length ≤ maxLength) :
    ∃ out records, c.sendRequest kernel path req = .ok out ∧ decode out = some records ∧
      Responder.takeAll .idle records = some (c.taken path req) := by
  obtain ⟨rs, hopen, hreq⟩ := sendRequest_of_le kernel h0 hc hm hshort
  by_cases hp : method = .post
  · subst hp
    have hlen := hpost rfl
    rw [hreq, if_pos rfl, taken_post hm, c.sendPost_of_le hk hlen]
    refine ⟨_, rs ++ [c.stdinRecord req.postData hlen, c.stdinRecord [] (Nat.zero_le _)], rfl,
      ?_, ?_⟩
    · rw [decode_flatMap_bytes_append, decode_flatMap_bytes]
      rfl
    · rw [Responder.takeAll_append, hopen]
      exact takeAll_stdin h0 hc rfl rfl hlen
  · rw [hreq, if_neg hp, taken_of_ne fun h ↦ hp (Option.some.inj (hm.symm.trans h))]
    exact ⟨_, rs, rfl, decode_flatMap_bytes rs, hopen⟩

/-- The application takes the request as the server means it just when no parameter is too
long for the array it is built in and one record can hold the body. The input of a request
without a body is never closed. -/
theorem sendRequest_taken_iff {kernel : ℕ → ℕ → Option ℕ} (hk : Accepting kernel)
    (h0 : 0 ≤ c.requestId) (hc : c.requestId ≤ 0xffff) (path : Bytes) (req : Http.HttpRequest)
    {method : Http.HttpMethod} (hm : req.method = some method) :
    (∃ out records, c.sendRequest kernel path req = .ok out ∧ decode out = some records ∧
      Responder.takeAll .idle records = some (c.taken path req)) ↔
      (∀ p ∈ phpParams path req, p.1.name.length + p.2.length ≤ 2043) ∧
        (method = .post → req.postData.length ≤ maxLength) := by
  rw [fits_iff c]
  constructor
  · rintro ⟨out, records, hout, hdec, htake⟩
    have hshort : ∀ p ∈ phpParams path req,
        (nameValueText p.1.name p.2).length ≤ kBufferSize := by
      obtain ⟨env, henv, -⟩ := bind_eq_ok.mp hout
      exact le_of_sendAllParams henv
    refine ⟨hshort, fun hp ↦ ?_⟩
    subst hp
    obtain ⟨rs, hopen, hreq⟩ := sendRequest_of_le kernel h0 hc hm hshort
    rw [hreq, if_pos rfl] at hout
    rw [taken_post hm] at htake
    cases hsent : c.sendPost kernel req.postData with
    | error e =>
      rw [hsent] at hout
      cases hout
    | ok post =>
      rw [hsent] at hout
      cases hout
      rw [decode_flatMap_bytes_append] at hdec
      obtain ⟨records', hdec', rfl⟩ := Option.map_eq_some_iff.mp hdec
      rw [Responder.takeAll_append, hopen] at htake
      exact length_le_of_stdinStream hsent hdec' (stdinStream_of_takeAll h0 rfl rfl htake)
  · rintro ⟨hshort, hpost⟩
    exact sendRequest_taken hk h0 hc hm hshort hpost

def formRequest : Http.HttpRequest :=
  { Http.HttpRequest.init (.init 4) with method := some .post, postData := ascii "a=b" }

theorem sendRequest_taken_iff_form :
    ∃ out records, sendRequest ⟨1⟩ twoAtATime (ascii "/srv/www/a.php") formRequest = .ok out ∧
      decode out = some records ∧
      Responder.takeAll .idle records = some (taken ⟨1⟩ (ascii "/srv/www/a.php") formRequest) :=
  (sendRequest_taken_iff (c := ⟨1⟩) accepting_twoAtATime (by decide) (by decide) _ _ rfl).mpr
    ⟨by decide, fun _ ↦ by decide⟩

end PhpFastCgi

end Socnet
