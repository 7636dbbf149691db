import Socnet.Http.HttpRequest

namespace Socnet.Http

open Lib Sequence Net Utility.EncodeUtil

/-- A header line `name: value`. -/
structure Field where
  name : Bytes
  value : Bytes
  colon_notMem : ':'.toUInt8 ∉ name
  cr_notMem : CR ∉ name
  not_crlf : ¬ CRLF <:+: value

def Field.text (f : Field) : Bytes := f.name ++ ascii ": " ++ f.value

/-- A well-formed request head. -/
structure RequestHead where
  method : HttpMethod
  target : Bytes
  version : HttpVersion
  fields : List Field
  space_notMem : SP ∉ target

namespace RequestHead

def startLine (q : RequestHead) : Bytes :=
  q.method.text ++ SP :: (q.target ++ SP :: (q.version.text ++ CRLF))

def fieldLines (fields : List Field) : Bytes := fields.flatMap fun f ↦ f.text ++ CRLF

def text (q : RequestHead) : Bytes := q.startLine ++ (fieldLines q.fields ++ CRLF)

def pairs (q : RequestHead) : List (Bytes × Bytes) := q.fields.map fun f ↦ (f.name, f.value)

def storeFields (h : HttpHeader) (fields : List Field) : HttpHeader :=
  fields.foldl (fun h f ↦ HttpHeader.add h f.name f.value) h

theorem values_storeFields (q : RequestHead) (k : Bytes) :
    (storeFields Multimap.empty q.fields).values k = HttpHeader.stored q.pairs k := by
  rw [← HttpHeader.values_foldl_add, pairs, List.foldl_map]
  rfl

end RequestHead

theorem Field.text_crlf (f : Field) : ¬ CRLF <:+: f.text := by
  have hname : CR ∉ f.name ++ ascii ": " := by
    rw [List.mem_append, not_or]
    exact ⟨f.cr_notMem, by decide⟩
  exact fun h ↦ f.not_crlf (infix_of_infix_append hname h)

namespace HttpRequest

open RequestHead

theorem startMethod_text (m : HttpMethod) (l : Bytes) :
    startMethod (m.text ++ l) = some (m, m.text.length + 1) := by
  cases m <;> simp [startMethod, HttpMethod.text, ascii]

theorem startVersion_text (v : HttpVersion) (l : Bytes) :
    startVersion (v.text ++ l) = some v := by
  cases v <;> simp [startVersion, HttpVersion.text, ascii]

theorem version_length (v : HttpVersion) : v.text.length = 8 := by cases v <;> rfl

theorem length_startLine (q : RequestHead) :
    q.startLine.length = q.method.text.length + 1 + (q.target.length + 1) + 10 := by
  have hver := version_length q.version
  simp only [startLine, List.length_append, List.length_cons, hver, CRLF, List.length_nil]
  omega

theorem startMethod_eq_some {line : Bytes} {m : HttpMethod} {i : ℕ}
    (h : startMethod line = some (m, i)) : m.text <+: line ∧ i = m.text.length + 1 := by
  unfold startMethod at h
  split_ifs at h with h₁ h₂ h₃
  · cases h
    exact ⟨h₁, rfl⟩
  · cases h
    exact ⟨h₂, rfl⟩
  · cases h
    exact ⟨h₃, rfl⟩

theorem startVersion_eq_some {line : Bytes} {v : HttpVersion} (h : startVersion line = some v) :
    v.text <+: line := by
  unfold startVersion at h
  split_ifs at h with h₁ h₂ h₃
  · cases h
    exact h₁
  · cases h
    exact h₂
  · cases h
    exact h₃

theorem parseRequestLine_startLine (r : HttpRequest) (q : RequestHead) (rest : Bytes)
    (hr : r.recver.peek = q.startLine ++ rest) :
    r.parseRequestLine = .ok { r with
      method := some q.method
      reqUrl := q.target
      version := some q.version
      recver := r.recver.retired q.startLine.length
      retCode := .requestLineDone } := by
  have hpeek : r.recver.peek =
      q.method.text ++ SP :: (q.target ++ SP :: (q.version.text ++ (CRLF ++ rest))) := by
    rw [hr, startLine]
    simp
  have hver := version_length q.version
  have hlen := length_startLine q
  unfold parseRequestLine
  rw [hpeek, startMethod_text]
  dsimp only
  rw [removePrefix_of_le (by simp)]
  have hd : (q.method.text ++ SP :: (q.target ++ SP :: (q.version.text ++ (CRLF ++ rest)))).drop
      (q.method.text.length + 1) = q.target ++ SP :: (q.version.text ++ (CRLF ++ rest)) := by
    simp [← List.drop_drop]
  have hd' : (q.target ++ SP :: (q.version.text ++ (CRLF ++ rest))).drop (q.target.length + 1) =
      q.version.text ++ (CRLF ++ rest) := by
    simp [← List.drop_drop]
  simp only [hd, bind, Except.bind]
  rw [find_singleton q.space_notMem]
  dsimp only
  rw [removePrefix_of_le (by simp)]
  simp only [hd', startVersion_text]
  rw [removePrefix_of_le (by simp [hver, CRLF]; omega)]
  simp [hlen]

/-- The header loop over plain text: the code, the headers and the text left. -/
def scanLines (text : Bytes) (h : HttpHeader) : Except Fault (RetCode × HttpHeader × Bytes) :=
  match _h : headerTurn text with
  | .blank => .ok (.requestHeaderDone, h, text.drop 2)
  | .incomplete => .ok (.againHeader, h, text)
  | .noColon => .ok (.badRequest, h, text)
  | .raise e => .error e
  | .line key value len => scanLines (text.drop len) (h.add key value)
termination_by text.length
decreasing_by
  have := headerTurn_len _h
  rw [List.length_drop]
  omega

theorem scanLines_eq (text : Bytes) (h : HttpHeader) :
    scanLines text h =
      match headerTurn text with
      | .blank => .ok (.requestHeaderDone, h, text.drop 2)
      | .incomplete => .ok (.againHeader, h, text)
      | .noColon => .ok (.badRequest, h, text)
      | .raise e => .error e
      | .line key value len => scanLines (text.drop len) (h.add key value) := by
  rw [scanLines]
  split <;> simp_all only

/-- What a call of `parseRequestHeader` leaves to see. -/
def outcome (r : HttpRequest) : RetCode × HttpHeader × Bytes := (r.retCode, r.header, r.recver.peek)

theorem headerLoop_outcome {header : Bytes} {r : HttpRequest} (hr : r.recver.peek = header) :
    (headerLoop header r).map outcome = scanLines header r.header := by
  fun_induction headerLoop header r with
  | case1 header r ht => simp [scanLines_eq, ht, Except.map, outcome, hr]
  | case2 header r ht => simp [scanLines_eq, ht, Except.map, outcome, hr]
  | case3 header r ht => simp [scanLines_eq, ht, Except.map, outcome, hr]
  | case4 header r e ht => simp [scanLines_eq, ht, Except.map]
  | case5 header r key value len ht ih =>
    rw [scanLines_eq, ht]
    exact ih (by simp [hr])

theorem headerLoop_frame {header : Bytes} {r r' : HttpRequest} (h : headerLoop header r = .ok r') :
    r' = { r with header := r'.header, recver := r'.recver, retCode := r'.retCode } := by
  fun_induction headerLoop header r with
  | case1 => cases h; rfl
  | case2 => cases h; rfl
  | case3 => cases h; rfl
  | case4 => cases h
  | case5 _ _ _ _ _ _ ih => exact ih h

theorem outcome_parseRequestHeader (r : HttpRequest) :
    r.parseRequestHeader.map outcome = scanLines r.recver.peek r.header := headerLoop_outcome rfl

theorem headerTurn_append {a : Bytes} (b : Bytes) (h : headerTurn a ≠ .incomplete) :
    headerTurn (a ++ b) = headerTurn a := by
  unfold headerTurn at h ⊢
  by_cases hc : CRLF <+: a
  · rw [if_pos hc, if_pos (hc.trans (List.prefix_append a b))]
  · rw [if_neg hc] at h ⊢
    cases hpos : find CRLF a with
    | none => simp [hpos] at h
    | some pos =>
      have hle : pos + 2 ≤ a.length := find_length hpos
      have hc' : ¬ CRLF <+: a ++ b := fun hp ↦
        hc (List.prefix_of_prefix_length_le hp (List.prefix_append a b) (by simp [CRLF]; omega))
      rw [if_neg hc', find_append hpos]
      simp only [List.take_append_of_le_length (show pos ≤ a.length by omega)]

theorem headerTurn_blank {text : Bytes} (h : headerTurn text = .blank) : 2 ≤ text.length := by
  unfold headerTurn at h
  split_ifs at h with hc
  · exact hc.length_le
  · split at h
    · cases h
    · dsimp only at h
      split at h
      · cases h
      · split at h <;> cases h

theorem scanLines_append (a b : Bytes) (h : HttpHeader) :
    scanLines (a ++ b) h =
      match scanLines a h with
      | .error e => .error e
      | .ok (.againHeader, h', rest) => scanLines (rest ++ b) h'
      | .ok (code, h', rest) => .ok (code, h', rest ++ b) := by
  fun_induction scanLines a h with
  | case1 a h ht =>
    rw [scanLines_eq, headerTurn_append b (by simp [ht]), ht]
    simp [List.drop_append_of_le_length (headerTurn_blank ht)]
  | case2 a h ht => rfl
  | case3 a h ht => rw [scanLines_eq, headerTurn_append b (by simp [ht]), ht]
  | case4 a h e ht => rw [scanLines_eq, headerTurn_append b (by simp [ht]), ht]
  | case5 a h key value len ht ih =>
    rw [scanLines_eq, headerTurn_append b (by simp [ht]), ht]
    dsimp only
    rw [List.drop_append_of_le_length (headerTurn_len ht).2]
    exact ih

theorem headerTurn_field (f : Field) (rest : Bytes) :
    headerTurn (f.text ++ (CRLF ++ rest)) = .line f.name f.value (f.text.length + 2) := by
  have hlen : f.text.length = f.name.length + 2 + f.value.length := by
    simp [Field.text, ascii]
    omega
  have hblank : ¬ CRLF <+: f.text ++ (CRLF ++ rest) := fun hp ↦
    f.text_crlf (List.prefix_of_prefix_length_le hp (List.prefix_append _ _)
      (by simp [CRLF]; omega)).isInfix
  have hpos : find CRLF (f.text ++ (CRLF ++ rest)) = some f.text.length :=
    find_pair CR_ne_LF f.text_crlf rest
  have hcolon : find (ascii ":") f.text = some f.name.length := by
    have htext : f.text = f.name ++ ':'.toUInt8 :: SP :: f.value := by
      rw [Field.text, List.append_assoc]
      rfl
    rw [htext]
    exact find_singleton f.colon_notMem (SP :: f.value)
  have hvalue : substr f.text (f.name.length + 2) (f.text.length - f.name.length - 2) =
      .ok f.value := by
    have hd : f.text.drop (f.name.length + 2) = f.value := by
      rw [Field.text, List.drop_left' (by simp [ascii])]
    rw [substr_of_le (by omega), hd, List.take_of_length_le (by omega)]
  have hname : f.text.take f.name.length = f.name := by
    rw [Field.text, List.append_assoc, List.take_left']
    rfl
  unfold headerTurn
  rw [if_neg hblank, hpos]
  dsimp only
  rw [List.take_left' rfl, hcolon]
  dsimp only
  rw [hvalue, hname]

theorem scanLines_fields (fields : List Field) (h : HttpHeader) (t : Bytes) :
    scanLines (fieldLines fields ++ (CRLF ++ t)) h =
      .ok (.requestHeaderDone, storeFields h fields, t) := by
  induction fields generalizing h with
  | nil =>
    have hblank : headerTurn (CRLF ++ t) = .blank := if_pos (List.prefix_append _ _)
    change scanLines (CRLF ++ t) h = _
    rw [scanLines_eq, hblank]
    rfl
  | cons f fields ih =>
    have hsplit : fieldLines (f :: fields) ++ (CRLF ++ t) =
        f.text ++ (CRLF ++ (fieldLines fields ++ (CRLF ++ t))) := by
      simp [fieldLines]
    have hdrop : (f.text ++ (CRLF ++ (fieldLines fields ++ (CRLF ++ t)))).drop
        (f.text.length + 2) = fieldLines fields ++ (CRLF ++ t) := by
      rw [← List.append_assoc, List.drop_left' (by simp [CRLF])]
    rw [hsplit, scanLines_eq, headerTurn_field]
    dsimp only
    rw [hdrop, ih]
    rfl

/-- A parsed head: the line, the header fields and the text behind it are all
recovered, byte for byte. -/
theorem parse_head (q : RequestHead) (t : Bytes) (b : Buffer) (hb : b.peek = q.text ++ t) :
    ∃ r₁ r₂, (init b).parseRequestLine = .ok r₁ ∧ r₁.retCode = .requestLineDone ∧
      r₁.parseRequestHeader = .ok r₂ ∧ r₂.retCode = .requestHeaderDone ∧
      r₂.method = some q.method ∧ r₂.reqUrl = q.target ∧ r₂.version = some q.version ∧
      r₂.header = storeFields Multimap.empty q.fields ∧
      (∀ k, r₂.header.values k = HttpHeader.stored q.pairs k) ∧ r₂.recver.peek = t := by
  have hb' : b.peek = q.startLine ++ (fieldLines q.fields ++ (CRLF ++ t)) := by
    rw [hb, text]
    simp
  have hline := parseRequestLine_startLine (init b) q _ hb'
  obtain ⟨r₁, hr₁⟩ : ∃ r₁ : HttpRequest, r₁ = { init b with
      method := some q.method
      reqUrl := q.target
      version := some q.version
      recver := b.retired q.startLine.length
      retCode := .requestLineDone } := ⟨_, rfl⟩
  have hpeek : r₁.recver.peek = fieldLines q.fields ++ (CRLF ++ t) := by
    rw [hr₁, Buffer.peek_retired, hb', List.drop_left' rfl]
  have hout := outcome_parseRequestHeader r₁
  have hempty : r₁.header = Multimap.empty := by rw [hr₁]; rfl
  rw [hpeek, hempty, scanLines_fields] at hout
  cases hparse : r₁.parseRequestHeader with
  | error e => simp [hparse, Except.map] at hout
  | ok r₂ =>
    rw [hparse] at hout
    simp only [Except.map, outcome, Except.ok.injEq, Prod.mk.injEq] at hout
    obtain ⟨hcode, hheader, hrest⟩ := hout
    have hframe := headerLoop_frame hparse
    refine ⟨r₁, r₂, hr₁ ▸ hline, by rw [hr₁], hparse, hcode, ?_, ?_, ?_, hheader, ?_, hrest⟩
    · rw [hframe, hr₁]
    · rw [hframe, hr₁]
    · rw [hframe, hr₁]
    · intro k
      rw [hheader, values_storeFields]

theorem parse_head_host : ∃ r₁ r₂,
    (init (Buffer.init.append (ascii "GET / HTTP/1.1\r\nHost: a\r\n\r\nxyz"))).parseRequestLine =
      .ok r₁ ∧ r₁.parseRequestHeader = .ok r₂ ∧ r₂.method = some .get ∧ r₂.reqUrl = ascii "/" ∧
      r₂.version = some .http11 ∧ r₂.header.values (ascii "host") = [ascii "a"] ∧
      r₂.recver.peek = ascii "xyz" := by
  obtain ⟨r₁, r₂, h₁, -, h₂, -, hm, hu, hv, -, hh, ht⟩ := parse_head
    ⟨.get, ascii "/", .http11, [⟨ascii "Host", ascii "a", by decide, by decide, by decide⟩],
      by decide⟩ (ascii "xyz") (Buffer.init.append (ascii "GET / HTTP/1.1\r\nHost: a\r\n\r\nxyz"))
    (by rw [Buffer.peek_append, Buffer.peek_init]; decide)
  exact ⟨r₁, r₂, h₁, h₂, hm, hu, hv, hh (ascii "host"), ht⟩

/-- A request whose buffer has received more bytes. -/
def received (r : HttpRequest) (b : Bytes) : HttpRequest := { r with recver := r.recver.append b }

/-- Header parsing over a sequence of reads: each read is added to the buffer
while the parser asks for more, and the rest of them once it has a verdict. -/
def parseHeaderChunks (r : HttpRequest) : List Bytes → Except Fault HttpRequest
  | [] => r.parseRequestHeader
  | b :: chunks => do
    let r' ← r.parseRequestHeader
    if r'.retCode = .againHeader then parseHeaderChunks (r'.received b) chunks
    else .ok (r'.received (b ++ chunks.flatten))

theorem outcome_received (r : HttpRequest) (b : Bytes) :
    outcome (r.received b) = (r.retCode, r.header, r.recver.peek ++ b) := by
  simp [outcome, received]

theorem parseRequestHeader_received (r : HttpRequest) (b : Bytes) :
    (r.received b).parseRequestHeader.map outcome =
      match r.parseRequestHeader with
      | .error e => .error e
      | .ok r' =>
        if r'.retCode = .againHeader then (r'.received b).parseRequestHeader.map outcome
        else .ok (outcome (r'.received b)) := by
  have hout := outcome_parseRequestHeader r
  have hpeek : (r.received b).recver.peek = r.recver.peek ++ b := by simp [received]
  rw [outcome_parseRequestHeader (r.received b), hpeek]
  change scanLines (r.recver.peek ++ b) r.header = _
  rw [scanLines_append, ← hout]
  cases hp : r.parseRequestHeader with
  | error e => rfl
  | ok r' =>
    have hcode := headerLoop_retCode hp
    have hpeek' : (r'.received b).recver.peek = r'.recver.peek ++ b := by simp [received]
    dsimp only
    rw [outcome_received, outcome_parseRequestHeader (r'.received b), hpeek']
    simp only [Except.map, outcome]
    rcases hcode with hc | hc | hc
    · simp [hc]
    · simp [hc]
    · simp only [hc, if_true]
      rfl

/-- Header parsing does not see where the reads were cut: resuming on more
bytes gives what one call on all of them gives, and a verdict once reached
only has the later bytes put behind what it left. -/
theorem parseRequestHeader_chunks (r : HttpRequest) :
    (∀ b, (r.received b).parseRequestHeader.map outcome =
      match r.parseRequestHeader with
      | .error e => .error e
      | .ok r' =>
        if r'.retCode = .againHeader then (r'.received b).parseRequestHeader.map outcome
        else .ok (r'.retCode, r'.header, r'.recver.peek ++ b)) ∧
    ∀ chunks, (parseHeaderChunks r chunks).map outcome =
      (r.received chunks.flatten).parseRequestHeader.map outcome := by
  refine ⟨fun b ↦ ?_, fun chunks ↦ ?_⟩
  · rw [parseRequestHeader_received]
    simp only [outcome_received]
  · induction chunks generalizing r with
    | nil =>
      rw [outcome_parseRequestHeader]
      simp [parseHeaderChunks, received, outcome_parseRequestHeader]
    | cons b chunks ih =>
      rw [List.flatten_cons, parseRequestHeader_received, parseHeaderChunks]
      cases hp : r.parseRequestHeader with
      | error e => rfl
      | ok r' =>
        simp only [bind, Except.bind]
        split_ifs with hc
        · rw [ih, outcome_parseRequestHeader, outcome_parseRequestHeader]
          simp [received]
        · rfl

end HttpRequest

end Socnet.Http
