import Socnet.Http.BackendStatus
import Socnet.Http.BodyFraming
import Socnet.Http.HeaderNormalForm

namespace Socnet.Http

open Lib Sequence Net Utility.EncodeUtil

/-- A response as a client takes it from the stream. -/
structure Received where
  version : HttpVersion
  code : ℕ
  message : Bytes
  header : HttpHeader
  body : Bytes
  persistent : Bool

namespace Received

def readStatusLine (line : Bytes) : Option (HttpVersion × ℕ × Bytes) := do
  let version ← HttpRequest.startVersion line
  let rest := line.drop (version.text.length + 1)
  let pos ← find (ascii " ") rest
  let code ← decimal (rest.take pos)
  some (version, code, rest.drop (pos + 1))

/-- Whether the connection stays, as the version and the header tell. -/
def keepsAlive (version : HttpVersion) (header : HttpHeader) : Bool :=
  match header.get (ascii "Connection") with
  | none => version ≠ .http10
  | some c => if version = .http10 then toLowers c = ascii "keep-alive" else toLowers c ≠ ascii "close"

/-- The body, and what follows it. Without a length it goes on until the close. -/
def readBody (method : HttpMethod) (header : HttpHeader) (persistent : Bool) (s : Bytes) :
    Option (Bytes × Bytes) :=
  if method = .head then some ([], s)
  else
    match header.get (ascii "Content-Length") with
    | some v => do
      let n ← decimal v
      if n ≤ s.length then some (s.take n, s.drop n) else none
    | none => if persistent then none else some (s, [])

def read (method : HttpMethod) (s : Bytes) : Option (Received × Bytes) := do
  let pos ← find CRLF s
  let (version, code, message) ← readStatusLine (s.take pos)
  match HttpHeader.parse Multimap.empty (s.drop (pos + 2)) with
  | .error _ => none
  | .ok (index, header) =>
    let persistent := keepsAlive version header
    let (body, rest) ← readBody method header persistent (s.drop (pos + 2 + index.toNat))
    some (⟨version, code, message, header, body, persistent⟩, rest)

/-- The responses to requests of these methods, up to the one that closes the connection. -/
def readAll : List HttpMethod → Bytes → Option (List Received)
  | [], s => if s = [] then some [] else none
  | method :: methods, s => do
    let (r, rest) ← read method s
    if r.persistent then (readAll methods rest).map (r :: ·)
    else if rest = [] then some [r] else none

theorem read_eq {method : HttpMethod} {line text s body rest message : Bytes} {code : ℕ}
    {version : HttpVersion} {header : HttpHeader} (hline : ¬ CRLF <:+: line)
    (hstatus : readStatusLine line = some (version, code, message))
    (hparse : HttpHeader.parse Multimap.empty (text ++ (CRLF ++ s)) =
      .ok (((text ++ CRLF).length : ℕ), header))
    (hbody : readBody method header (keepsAlive version header) s = some (body, rest)) :
    read method (line ++ (CRLF ++ (text ++ (CRLF ++ s)))) =
      some (⟨version, code, message, header, body, keepsAlive version header⟩, rest) := by
  have hfind : find CRLF (line ++ (CRLF ++ (text ++ (CRLF ++ s)))) = some line.length :=
    find_pair CR_ne_LF hline _
  have hhead : (line ++ (CRLF ++ (text ++ (CRLF ++ s)))).drop (line.length + 2) =
      text ++ (CRLF ++ s) := by
    rw [← List.append_assoc]
    exact List.drop_left' List.length_append
  have hrest : (line ++ (CRLF ++ (text ++ (CRLF ++ s)))).drop
      (line.length + 2 + (text ++ CRLF).length) = s := by
    rw [← List.drop_drop, hhead, ← List.append_assoc]
    exact List.drop_left' rfl
  rw [read, hfind]
  simp only [Option.bind_eq_bind, Option.bind_some, List.take_left', hstatus, hhead, hparse,
    Int.toNat_natCast, hrest, hbody]

end Received

/-- A text of digits is read as the number it writes. -/
theorem decimal_digits {cs : List Char} (hne : cs ≠ [])
    (hd : ∀ c ∈ cs, 48 ≤ c.toNat ∧ c.toNat ≤ 57) :
    decimal (cs.map fun c ↦ c.toNat.toUInt8) = some (Nat.ofDigitChars 10 cs 0) := by
  have hbyte : ∀ c ∈ cs, c.toNat.toUInt8.toNat = c.toNat := fun c hc ↦ by
    have h := hd c hc
    rw [Nat.toUInt8, UInt8.toNat_ofNat']
    omega
  have hall : (cs.map fun c ↦ c.toNat.toUInt8).all (between '0' '9') = true := by
    rw [List.all_map, List.all_eq_true]
    intro c hc
    have h := hd c hc
    simp only [Function.comp, between, Bool.and_eq_true, decide_eq_true_eq, UInt8.le_iff_toNat_le,
      hbyte c hc]
    exact h
  have hfold (n : ℕ) : (cs.map fun c ↦ c.toNat.toUInt8).foldl
      (fun n c ↦ 10 * n + (c - '0'.toUInt8).toNat) n = Nat.ofDigitChars 10 cs n := by
    rw [List.foldl_map, Nat.ofDigitChars]
    refine List.foldl_ext _ _ _ fun m c hc ↦ ?_
    have h := hd c hc
    have hle : '0'.toUInt8 ≤ c.toNat.toUInt8 := by
      rw [UInt8.le_iff_toNat_le, hbyte c hc]
      exact h.1
    rw [UInt8.toNat_sub_of_le _ _ hle, hbyte c hc]
    rfl
  rw [decimal, if_pos ⟨by simpa using hne, hall⟩, hfold]

theorem toDecimal_eq (n : ℕ) : toDecimal n = (Nat.toDigits 10 n).map fun c ↦ c.toNat.toUInt8 := by
  rw [toDecimal, ascii, Nat.toString_eq_ofList_toDigits, String.toList_ofList]

theorem digit_toDigits {n : ℕ} {c : Char} (hc : c ∈ Nat.toDigits 10 n) :
    48 ≤ c.toNat ∧ c.toNat ≤ 57 := by
  have h := Nat.isDigit_of_mem_toDigits (by decide) le_rfl hc
  rw [Char.isDigit, Bool.and_eq_true, decide_eq_true_eq, decide_eq_true_eq] at h
  exact h

theorem decimal_toDecimal (n : ℕ) : decimal (toDecimal n) = some n := by
  rw [toDecimal_eq, decimal_digits Nat.toDigits_ne_nil fun c ↦ digit_toDigits,
    Nat.ofDigitChars_ten_toDigits]

theorem mem_toDecimal {n : ℕ} {c : UInt8} (h : c ∈ toDecimal n) : 48 ≤ c ∧ c ≤ 57 := by
  rw [toDecimal_eq, List.mem_map] at h
  obtain ⟨d, hd, rfl⟩ := h
  have h := digit_toDigits hd
  rw [UInt8.le_iff_toNat_le, UInt8.le_iff_toNat_le, Nat.toUInt8, UInt8.toNat_ofNat']
  change 48 ≤ _ ∧ _ ≤ 57
  omega

/-- A header of printable fields is parsed back in front of whatever follows it. -/
theorem HttpHeader.parse_text {h : HttpHeader} (hw : h.WellFormed)
    (hp : ∀ e ∈ h.entries, Printable e) (hlen : (h.text ++ CRLF).length < 2 ^ 31) (t : Bytes) :
    parse Multimap.empty (h.text ++ (CRLF ++ t)) = .ok (((h.text ++ CRLF).length : ℕ), h) := by
  obtain ⟨ls, hls, hstore⟩ := exists_printed hp
  have htext : h.text = HeaderLine.lines ls := hls.symm
  have hback : h = storeLines Multimap.empty ls := hw.addHeader_empty.symm.trans (hstore _).symm
  rw [htext] at hlen ⊢
  exact parse_lines_iff.mpr ⟨hlen, hback⟩

namespace HttpResponseBuilder

variable {gzip : Bytes → Bytes} {files : Bytes → File} {b : HttpResponseBuilder} {o : Outgoing}

/-- The answers that go out on a connection, each on the channel that the one before has
left, up to the first that does not keep it alive. -/
def respondAll (gzip : Bytes → Bytes) (files : Bytes → File) (o : Outgoing) :
    List HttpResponseBuilder → Except Fault (List (HttpResponseBuilder × Built))
  | [] => .ok []
  | b :: bs => do
    let built ← b.build gzip files o.reset
    let rest ← if b.keepalive then respondAll gzip files built.channel bs else .ok []
    .ok ((b, built) :: rest)

def stream (answers : List (HttpResponseBuilder × Built)) : Bytes :=
  answers.flatMap fun a ↦ a.2.channel.stream

/-- What the client is to take for an answer. -/
def received (gzip : Bytes → Bytes) (files : Bytes → File) (a : HttpResponseBuilder × Built) :
    Received where
  version := a.1.version
  code := a.1.code.toInt.toNat
  message := (statusMessage a.1.code).getD []
  header := a.2.header
  body :=
    if a.1.method = .head then []
    else if a.2.gzipped then gzip (a.1.body files) else a.1.body files
  persistent := a.1.keepalive

/-- An answer that is framed and whose fields fit on their lines, and for which the service
has not set the fields that `makeHeaderPart` leaves to it. -/
structure Readable (gzip : Bytes → Bytes) (files : Bytes → File) (support : Bool)
    (b : HttpResponseBuilder) : Prop where
  known : Known b.code.toInt
  head : b.method = .head → b.respFile = true → b.body files ≠ [] →
    support = false ∧ (b.body files).length ≤ M
  gzips : b.method ≠ .head → (gzip (b.body files)).length < 2 ^ 31
  wellFormed : b.header.WellFormed
  printable : ∀ e ∈ b.header.entries, HttpHeader.Printable e
  mtime : b.respFile = true →
    ¬ CRLF <:+: (files b.fileName).mtime ∧ (files b.fileName).mtime.head? ≠ some SP
  connection : b.keepalive = true → b.version ≠ .http10 → b.header.get (ascii "Connection") = none
  contentLength : b.keepalive = false → b.header.get (ascii "Content-Length") = none
  short : ∀ o : Outgoing, o.supportSendFile = support →
    ((b.finalHeader gzip (b.source files o.reset)).text ++ CRLF).length < 2 ^ 31

theorem supportSendFile_source :
    (b.source files o).channel.supportSendFile = o.supportSendFile := by
  rw [source]
  dsimp only
  split_ifs
  · rw [Outgoing.createSendFileObject]
    split_ifs
    cases o.sfileObj with
    | none => rfl
    | some f => rfl
  · rfl
  · rw [Outgoing.createMMapObject]
    cases o.mmapObj with
    | none => rfl
    | some m => rfl
  · rfl

/-- What each way to build an answer leaves the same. -/
theorem build_frame {built : Built} (h : b.build gzip files o = .ok built) :
    built.header = b.finalHeader gzip (b.source files o) ∧
      built.gzipped = (b.source files o).gzipped ∧
      built.channel.supportSendFile = o.supportSendFile := by
  have hsource := @supportSendFile_source files b o
  obtain ⟨sender, -, h⟩ := bind_eq_ok.mp h
  dsimp only at h
  split_ifs at h
  · cases h
    exact ⟨rfl, rfl, hsource⟩
  · obtain ⟨sender', -, h⟩ := bind_eq_ok.mp h
    cases h
    exact ⟨rfl, rfl, hsource⟩
  · cases h
    exact ⟨rfl, rfl, hsource⟩
  · cases h
    exact ⟨rfl, rfl, hsource⟩

/-- The fields that `build` adds to those of the service. -/
inductive Added (files : Bytes → File) (b : HttpResponseBuilder) : Bytes → Bytes → Prop
  | lastModified : b.respFile = true → Added files b (ascii "Last-Modified") (files b.fileName).mtime
  | contentEncoding : Added files b (ascii "Content-Encoding") (ascii "gzip")
  | connection (keepalive : Bool) : (b.keepalive = true → b.version = .http10) →
    Added files b (ascii "Connection") (ascii (if keepalive then "keep-alive" else "close"))
  | contentLength (n : ℕ) : b.keepalive = true → Added files b (ascii "Content-Length") (toDecimal n)

theorem get_connection (header : HttpHeader) (n : ℕ)
    (hset : b.keepalive = true → b.version = .http10) :
    (b.makeHeaderPart header n).get (ascii "Connection") =
      some (ascii (if b.keepalive then "keep-alive" else "close")) := by
  rw [makeHeaderPart]
  cases hk : b.keepalive with
  | true =>
    rw [if_pos rfl, if_pos (hset hk)]
    refine (HttpHeader.get_add_other _ _ (by decide)).trans ?_
    exact HttpHeader.get_add_same _ _ (by decide)
  | false =>
    rw [if_neg Bool.false_ne_true]
    by_cases hversion : b.version = .http10
    · rw [if_pos hversion]
      exact HttpHeader.get_add_same _ _ (by decide)
    · rw [if_neg hversion, if_pos Bool.false_ne_true]
      exact HttpHeader.get_add_same _ _ (by decide)

section Fields

variable {P : HttpHeader → Prop}
  (hadd : ∀ h key value, b.Added files key value → P h → P (h.add key value))

include hadd

theorem makeHeaderPart_of_added {header : HttpHeader} (h : P header) (n : ℕ) :
    P (b.makeHeaderPart header n) := by
  have hconnection : P (if b.version = .http10 then
      header.add (ascii "Connection") (ascii (if b.keepalive then "keep-alive" else "close"))
      else if ¬ b.keepalive then header.add (ascii "Connection") (ascii "close") else header) := by
    by_cases hversion : b.version = .http10
    · rw [if_pos hversion]
      exact hadd _ _ _ (.connection b.keepalive fun _ ↦ hversion) h
    · rw [if_neg hversion]
      by_cases hkeep : b.keepalive = true
      · rw [if_neg (not_not.mpr hkeep)]
        exact h
      · rw [if_pos hkeep]
        exact hadd _ _ _ (.connection false fun hk ↦ absurd hk hkeep) h
  rw [makeHeaderPart]
  by_cases hkeep : b.keepalive = true
  · rw [if_pos hkeep]
    exact hadd _ _ _ (.contentLength n hkeep) hconnection
  · rw [if_neg hkeep]
    exact hconnection

theorem finalHeader_of_added (h : P b.header) : P (b.finalHeader gzip (b.source files o)) := by
  have hsource : P (b.source files o).header := by
    rw [source]
    dsimp only
    split_ifs with hf
    · exact hadd _ _ _ (.lastModified hf) h
    · exact hadd _ _ _ (.lastModified hf) h
    · exact hadd _ _ _ (.lastModified hf) h
    · exact h
  rw [finalHeader]
  split_ifs
  · exact makeHeaderPart_of_added hadd (hadd _ _ _ .contentEncoding hsource) _
  · exact makeHeaderPart_of_added hadd hsource _

end Fields

namespace Readable

variable {support : Bool} (h : b.Readable gzip files support)

include h

theorem wellFormed_finalHeader : (b.finalHeader gzip (b.source files o)).WellFormed :=
  finalHeader_of_added (fun _ key value _ hw ↦ hw.add key value) h.wellFormed

theorem printable_finalHeader :
    ∀ e ∈ (b.finalHeader gzip (b.source files o)).entries, HttpHeader.Printable e := by
  refine finalHeader_of_added (P := fun header ↦ ∀ e ∈ header.entries, HttpHeader.Printable e)
    (fun header key value hadded hp e he ↦ ?_) h.printable
  rcases HttpHeader.mem_add he with rfl | he
  · cases hadded with
    | lastModified hf =>
      have hname : ':'.toUInt8 ∉ toLowers (ascii "Last-Modified") ∧
        ¬ CRLF <:+: toLowers (ascii "Last-Modified") := by decide
      exact ⟨hname.1, hname.2, (h.mtime hf).1, (h.mtime hf).2⟩
    | contentEncoding => exact ⟨by decide, by decide, by decide, by decide⟩
    | connection keepalive =>
      cases keepalive with
      | true => exact ⟨by decide, by decide, by decide, by decide⟩
      | false => exact ⟨by decide, by decide, by decide, by decide⟩
    | contentLength n =>
      have hname : ':'.toUInt8 ∉ toLowers (ascii "Content-Length") ∧
        ¬ CRLF <:+: toLowers (ascii "Content-Length") := by decide
      refine ⟨hname.1, hname.2, fun hcrlf ↦ ?_, fun hsp ↦ ?_⟩
      · have hcr : CR ∈ toDecimal n := hcrlf.subset List.mem_cons_self
        exact absurd (mem_toDecimal hcr) (by decide)
      · have hmem : SP ∈ toDecimal n := List.mem_of_head? hsp
        exact absurd (mem_toDecimal hmem) (by decide)
  · exact hp e he

/-- The client sees from the head whether the connection stays. -/
theorem keepsAlive_finalHeader :
    Received.keepsAlive b.version (b.finalHeader gzip (b.source files o)) = b.keepalive := by
  by_cases hset : b.keepalive = true → b.version = .http10
  · have hget : (b.finalHeader gzip (b.source files o)).get (ascii "Connection") =
        some (ascii (if b.keepalive then "keep-alive" else "close")) := by
      by_cases hgzipped : (b.source files o).gzipped = true
      · rw [finalHeader, if_pos hgzipped]
        exact get_connection _ _ hset
      · rw [finalHeader, if_neg hgzipped]
        exact get_connection _ _ hset
    rw [Received.keepsAlive, hget]
    cases hk : b.keepalive with
    | true =>
      rw [hset hk]
      decide
    | false =>
      cases b.version
      all_goals decide
  · obtain ⟨hk, hversion⟩ := Classical.not_imp.mp hset
    have hget : (b.finalHeader gzip (b.source files o)).get (ascii "Connection") = none := by
      refine finalHeader_of_added (P := fun header ↦ header.get (ascii "Connection") = none)
        (fun header key value hadded hp ↦ ?_) (h.connection hk hversion)
      refine (header.get_add_other value ?_).trans hp
      cases hadded with
      | lastModified hf => decide
      | contentEncoding => decide
      | connection keepalive hten => exact absurd (hten hk) hversion
      | contentLength n hkeep => decide
    rw [Received.keepsAlive, hget, hk]
    simpa using hversion

theorem contentLength_finalHeader (hk : b.keepalive = false) :
    (b.finalHeader gzip (b.source files o)).get (ascii "Content-Length") = none := by
  refine finalHeader_of_added (P := fun header ↦ header.get (ascii "Content-Length") = none)
    (fun header key value hadded hp ↦ ?_) (h.contentLength hk)
  refine (header.get_add_other value ?_).trans hp
  cases hadded with
  | lastModified hf => decide
  | contentEncoding => decide
  | connection keepalive => decide
  | contentLength n hkeep =>
    rw [hk] at hkeep
    cases hkeep

theorem statusMessage_isSome : (statusMessage b.code).isSome := by
  have hbounds := known_bounds h.known
  have hcode : Int32.ofInt b.code.toInt = b.code := Int32.ofInt_toInt b.code
  rw [← hcode]
  exact (statusMessage_iff hbounds.1 hbounds.2).mpr h.known

theorem not_inChannel (hsupport : o.supportSendFile = support) (hm : b.method = .head) :
    ¬ b.InChannel files o := by
  rintro ⟨hf, hne, hchannel⟩
  obtain ⟨hno, hle⟩ := h.head hm hf hne
  rcases hchannel with hs | hlarge
  · rw [hsupport, hno] at hs
    cases hs
  · exact absurd hlarge (not_lt.mpr hle)

theorem framed (hsupport : o.supportSendFile = support) : b.Framed gzip files o.reset := by
  obtain ⟨message, hmsg⟩ := Option.isSome_iff_exists.mp h.statusMessage_isSome
  have hs := b.source_sourced files o
  obtain ⟨sender, hprep, hpeek⟩ := prepareHeader_some
    (b.finalHeader gzip (b.source files o.reset)) hmsg hs.sender
  by_cases hm : b.method = .head
  · exact (framed_head hs rfl hmsg hprep hpeek hm).mpr (h.not_inChannel hsupport hm)
  · cases hc : (b.source files o.reset).compressed with
    | true => exact (framed_compressed hs rfl hmsg hprep hpeek hm hc).mpr fun _ ↦ h.gzips hm
    | false => exact framed_plain hs rfl hmsg hprep hpeek hm hc

end Readable

theorem cr_notMem_message {code : Int32} {message : Bytes} (h : statusMessage code = some message) :
    CR ∉ message := by
  have htable : ∀ e ∈ statusCode, CR ∉ ascii e.2 := by decide
  obtain ⟨e, he, rfl⟩ := Option.map_eq_some_iff.mp h
  exact htable e (List.mem_of_find?_eq_some he)

def statusLine (version : HttpVersion) (code : ℕ) (message : Bytes) : Bytes :=
  version.text ++ SP :: (toDecimal code ++ SP :: message)

theorem readStatusLine_statusLine (version : HttpVersion) (code : ℕ) (message : Bytes) :
    Received.readStatusLine (statusLine version code message) = some (version, code, message) := by
  have hdrop : (statusLine version code message).drop (version.text.length + 1) =
      toDecimal code ++ SP :: message := by
    simp [statusLine, ← List.drop_drop]
  have hblank : SP ∉ toDecimal code := fun h ↦ absurd (mem_toDecimal h) (by decide)
  have hfind : find (ascii " ") (toDecimal code ++ SP :: message) = some (toDecimal code).length :=
    find_singleton hblank message
  rw [Received.readStatusLine, statusLine, HttpRequest.startVersion_text, Option.bind_eq_bind,
    Option.bind_some, ← statusLine]
  simp only [hdrop, hfind, List.take_left', decimal_toDecimal, Option.bind_eq_bind,
    Option.bind_some, ← List.drop_drop, List.drop_left', List.drop_succ_cons, List.drop_zero]

theorem crlf_statusLine {version : HttpVersion} {code : ℕ} {message : Bytes}
    (h : CR ∉ message) : ¬ CRLF <:+: statusLine version code message := fun hcrlf ↦ by
  have hmem : CR ∈ statusLine version code message := hcrlf.subset List.mem_cons_self
  simp only [statusLine, List.mem_append, List.mem_cons] at hmem
  rcases hmem with hmem | hmem | hmem | hmem | hmem
  · cases version
    all_goals exact absurd hmem (by decide)
  · exact absurd hmem (by decide)
  · exact absurd (mem_toDecimal hmem) (by decide)
  · exact absurd hmem (by decide)
  · exact h hmem

theorem headText_eq (hknown : Known b.code.toInt) (header : HttpHeader) (message : Bytes) :
    b.headText header message =
      statusLine b.version b.code.toInt.toNat message ++ (CRLF ++ (header.text ++ CRLF)) := by
  obtain ⟨n, hn⟩ := Int.eq_ofNat_of_zero_le (show 0 ≤ b.code.toInt by
    have := known_bounds hknown
    omega)
  have hdecimal : ascii (toString b.code.toInt) = toDecimal b.code.toInt.toNat := by
    rw [hn]
    rfl
  have hblank : ascii " " = [SP] := rfl
  rw [headText, hdecimal, hblank, statusLine]
  simp only [List.append_assoc, List.cons_append, List.nil_append]

namespace Readable

variable {support : Bool} (h : b.Readable gzip files support)

include h

/-- The client takes the answer from the stream, and finds there what follows it. -/
theorem read_stream (hsupport : o.supportSendFile = support) :
    ∃ built, b.build gzip files o.reset = .ok built ∧
      built.channel.supportSendFile = support ∧ built.channel.sender.peek ≠ [] ∧
      ∀ rest, (b.keepalive = false → rest = []) →
        Received.read b.method (built.channel.stream ++ rest) =
          some (received gzip files (b, built), rest) := by
  obtain ⟨built, message, sent, hbuild, hmsg, hstream, -, hhead, hbody, hlength⟩ :=
    h.framed hsupport
  obtain ⟨hheader, -, hchannel⟩ := build_frame hbuild
  have hbegins := (build_some hmsg).2 built hbuild
  have hsender : built.channel.sender.peek ≠ [] := fun hnil ↦ by
    have hblank : SP ∈ statusText b.version b.code.toInt := by simp [statusText, ascii, SP]
    rw [hnil, List.prefix_nil] at hbegins
    rw [hbegins] at hblank
    cases hblank
  refine ⟨built, hbuild, hchannel.trans hsupport, hsender, fun rest hrest ↦ ?_⟩
  have hcr : ¬ CRLF <:+: statusLine b.version b.code.toInt.toNat message :=
    crlf_statusLine (cr_notMem_message hmsg)
  have htext : built.channel.stream ++ rest =
      statusLine b.version b.code.toInt.toNat message ++
        (CRLF ++ (built.header.text ++ (CRLF ++ (sent ++ rest)))) := by
    rw [hstream, headText_eq h.known]
    simp only [List.append_assoc]
  have hparse : HttpHeader.parse Multimap.empty (built.header.text ++ (CRLF ++ (sent ++ rest))) =
      .ok (((built.header.text ++ CRLF).length : ℕ), built.header) := by
    rw [hheader]
    exact HttpHeader.parse_text h.wellFormed_finalHeader h.printable_finalHeader
      (h.short o hsupport) _
  have hkeeps : Received.keepsAlive b.version built.header = b.keepalive :=
    hheader ▸ h.keepsAlive_finalHeader
  have hread : Received.readBody b.method built.header b.keepalive (sent ++ rest) =
      some (sent, rest) := by
    by_cases hm : b.method = .head
    · rw [Received.readBody, if_pos hm, hhead hm, List.nil_append]
    · cases hk : b.keepalive with
      | true =>
        rw [Received.readBody, if_neg hm, hlength hm hk]
        simp [decimal_toDecimal]
      | false =>
        have hnone : built.header.get (ascii "Content-Length") = none :=
          hheader ▸ h.contentLength_finalHeader hk
        rw [Received.readBody, if_neg hm, hnone, hrest hk, List.append_nil]
        rfl
  have hsent : sent = if b.method = .head then []
      else if built.gzipped then gzip (b.body files) else b.body files := by
    by_cases hm : b.method = .head
    · rw [if_pos hm, hhead hm]
    · rw [if_neg hm, hbody hm]
  rw [htext, received, hmsg, Option.getD_some, ← hsent]
  refine (Received.read_eq hcr (readStatusLine_statusLine _ _ _) hparse (hkeeps ▸ hread)).trans ?_
  rw [hkeeps]

end Readable

/-- The kernel takes these bytes from a channel until the flag is raised. -/
def Takes (type : ChannelType) (o : Outgoing) (bytes : Bytes) : Prop :=
  ∃ kernel d, Lib.Run.Throughout (Delivery.step type)
      (fun d k ↦ d.Admissible type k ∧ ∀ n ∈ k, n < 2 ^ 31) (Delivery.start o) kernel ∧
    kernel.foldlM (Delivery.step type) (Delivery.start o) = .ok d ∧ d.cflag = true ∧
    d.accepted = bytes

theorem takes_stream {type : ChannelType} {built : Built} {bytes : Bytes}
    (hb : b.build gzip files o.reset = .ok built)
    (hssl : type = .ssl → o.supportSendFile = false) (hS : built.channel.sender.peek ≠ [])
    (h : Takes type built.channel bytes) : bytes = built.channel.stream := by
  obtain ⟨kernel, d, hk, hrun, hflag, rfl⟩ := h
  obtain ⟨d', hrun', hiff⟩ := build_delivered hb hssl hS kernel hk
  rw [hrun] at hrun'
  cases hrun'
  exact hiff.mp hflag

/-- On a connection that answers one request after the other, the client reads back the
answers, one for each request up to the first answer that closes the connection, however
the kernel takes them from the channel. -/
theorem readAll_respondAll (type : ChannelType) (bs : List HttpResponseBuilder)
    (hssl : type = .ssl → o.supportSendFile = false)
    (hreadable : ∀ b ∈ bs, b.Readable gzip files o.supportSendFile) :
    ∃ answers, respondAll gzip files o bs = .ok answers ∧ answers.map Prod.fst <+: bs ∧
      Received.readAll (bs.map method) (stream answers) =
        some (answers.map (received gzip files)) ∧
      ∀ chunks, List.Forall₂ (fun a chunk ↦ Takes type a.2.channel chunk) answers chunks →
        chunks.flatten = stream answers := by
  induction bs generalizing o with
  | nil =>
    refine ⟨[], rfl, List.nil_prefix, rfl, fun chunks htakes ↦ ?_⟩
    cases htakes
    rfl
  | cons b bs ih =>
    obtain ⟨hb, hbs⟩ := List.forall_mem_cons.mp hreadable
    obtain ⟨built, hbuild, hsupport, hsender, hread⟩ := hb.read_stream rfl
    have hstream {chunk : Bytes} (htakes : Takes type built.channel chunk) :
        chunk = built.channel.stream := takes_stream hbuild hssl hsender htakes
    cases hk : b.keepalive with
    | false =>
      have hnext := hread [] fun _ ↦ rfl
      rw [List.append_nil] at hnext
      refine ⟨[(b, built)], ?_, ?_, ?_, fun chunks htakes ↦ ?_⟩
      · simp [respondAll, hbuild, hk, bind, Except.bind]
      · exact List.cons_prefix_cons.mpr ⟨rfl, List.nil_prefix⟩
      · rw [stream, List.flatMap_singleton, List.map_cons, Received.readAll, hnext]
        simp [received, hk]
      · obtain ⟨chunk, rest, hchunk, hrest, rfl⟩ := List.forall₂_cons_left_iff.mp htakes
        cases hrest
        simp [stream, hstream hchunk]
    | true =>
      obtain ⟨answers, hall, hprefix, hreads, hchunks⟩ := ih (o := built.channel)
        (fun ht ↦ hsupport.trans (hssl ht)) (hsupport ▸ hbs)
      have hnext := hread (stream answers) fun hno ↦ by
        rw [hk] at hno
        cases hno
      refine ⟨(b, built) :: answers, ?_, ?_, ?_, fun chunks htakes ↦ ?_⟩
      · simp [respondAll, hbuild, hk, hall, bind, Except.bind]
      · exact List.cons_prefix_cons.mpr ⟨rfl, hprefix⟩
      · rw [stream, List.flatMap_cons, ← stream, List.map_cons, Received.readAll, hnext]
        simp [received, hk, hreads]
      · obtain ⟨chunk, rest, hchunk, hrest, rfl⟩ := List.forall₂_cons_left_iff.mp htakes
        rw [List.flatten_cons, hstream hchunk, hchunks rest hrest]
        rfl

def greeting (version : HttpVersion) (method : HttpMethod) (keepalive : Bool) :
    HttpResponseBuilder :=
  { response.setBody (ascii "hello") with version, method, keepalive }

theorem readable_greeting (version : HttpVersion) (method : HttpMethod) (keepalive support : Bool) :
    (greeting version method keepalive).Readable id (fun _ ↦ ⟨[], []⟩) support where
  known := show Known (200 : Int32).toInt by decide
  head _ hf := by cases hf
  gzips _ := show ((Buffer.init 8).reset.append (ascii "hello")).peek.length < 2 ^ 31 by decide
  wellFormed := HttpHeader.WellFormed.empty.add (ascii "Content-Type")
    (ascii "application/octet-stream")
  printable e he := by
    rcases HttpHeader.mem_add he with rfl | he
    · exact ⟨by decide, by decide, by decide, by decide⟩
    · cases he
  mtime hf := by cases hf
  connection _ _ := show response.header.get (ascii "Connection") = none by decide
  contentLength _ := show response.header.get (ascii "Content-Length") = none by decide
  short o _ := by
    have hlen : ∀ version keepalive, (((greeting version .get keepalive).makeHeaderPart
        response.header 5).text ++ CRLF).length < 2 ^ 31 := by
      intro version keepalive
      cases version
      all_goals cases keepalive
      all_goals decide
    exact hlen version keepalive

theorem readAll_respondAll_three :
    ∃ answers, respondAll id (fun _ ↦ ⟨[], []⟩) channel
        [greeting .http11 .get true, greeting .http11 .head true, greeting .http10 .get false,
          greeting .http11 .get true] = .ok answers ∧
      answers.length = 3 ∧
      Received.readAll [.get, .head, .get, .get] (stream answers) =
        some (answers.map (received id fun _ ↦ ⟨[], []⟩)) := by
  have hreadable : ∀ b ∈ [greeting .http11 .get true, greeting .http11 .head true,
      greeting .http10 .get false, greeting .http11 .get true],
      b.Readable id (fun _ ↦ ⟨[], []⟩) channel.supportSendFile := fun b hb ↦ by
    simp only [List.mem_cons, List.not_mem_nil, or_false] at hb
    rcases hb with rfl | rfl | rfl | rfl
    all_goals exact readable_greeting _ _ _ _
  have hssl : ChannelType.raw = .ssl → channel.supportSendFile = false := fun ht ↦ by cases ht
  obtain ⟨answers, hall, -, hreads, -⟩ := readAll_respondAll .raw _ hssl hreadable
  have hlen : (respondAll id (fun _ ↦ ⟨[], []⟩) channel
      [greeting .http11 .get true, greeting .http11 .head true, greeting .http10 .get false,
        greeting .http11 .get true]).map List.length = .ok 3 := rfl
  rw [hall] at hlen
  exact ⟨answers, hall, Except.ok.inj hlen, hreads⟩

end HttpResponseBuilder

end Socnet.Http
