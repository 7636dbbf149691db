import Socnet.Http.HttpResponse
import Socnet.Net.Delivery

namespace Socnet.Http.HttpResponseBuilder

open Net

variable {gzip : Bytes → Bytes} {files : Bytes → File} {b : HttpResponseBuilder} {o : Outgoing}

def body (b : HttpResponseBuilder) (files : Bytes → File) : Bytes :=
  if b.respFile then (files b.fileName).content else b.tmpBuffer.peek

/-- The status line, the header fields and the blank line. -/
def headText (b : HttpResponseBuilder) (header : HttpHeader) (message : Bytes) : Bytes :=
  b.version.text ++ ascii " " ++ (ascii (toString b.code.toInt) ++ ascii " ") ++ message ++ CRLF ++
    header.text ++ CRLF

/-- What the channel sends behind the blank line is nothing for `HEAD`, and otherwise
the body or its gzip image, with its length in the header if the connection stays. -/
def Framed (gzip : Bytes → Bytes) (files : Bytes → File) (b : HttpResponseBuilder)
    (o : Outgoing) : Prop :=
  ∃ built message sent, b.build gzip files o = .ok built ∧ statusMessage b.code = some message ∧
    built.channel.stream = b.headText built.header message ++ sent ∧
    (built.gzipped = true → built.header.get (ascii "Content-Encoding") = some (ascii "gzip")) ∧
    (b.method = .head → sent = []) ∧
    (b.method ≠ .head → sent = if built.gzipped then gzip (b.body files) else b.body files) ∧
    (b.method ≠ .head → b.keepalive = true →
      built.header.get (ascii "Content-Length") = some (toDecimal sent.length))

/-- The body is a file that is left to the channel, by `sendfile` or mapped. -/
def InChannel (b : HttpResponseBuilder) (files : Bytes → File) (o : Outgoing) : Prop :=
  b.respFile = true ∧ b.body files ≠ [] ∧ (o.supportSendFile = true ∨ M < (b.body files).length)

/-- The body is compressed. -/
def Gzips (b : HttpResponseBuilder) (files : Bytes → File) (o : Outgoing) : Prop :=
  b.compressed = true ∧ compressible (b.header.get (ascii "Content-Type")) = true ∧
    b.body files ≠ [] ∧ ¬ (b.respFile = true ∧ o.supportSendFile = true)

instance decidableInChannel : Decidable (b.InChannel files o) :=
  inferInstanceAs (Decidable (_ ∧ _ ∧ _))

instance decidableGzips : Decidable (b.Gzips files o) :=
  inferInstanceAs (Decidable (_ ∧ _ ∧ _ ∧ _))

/-- What `source` makes of a channel that has been reset. -/
structure Sourced (b : HttpResponseBuilder) (files : Bytes → File) (o : Outgoing)
    (src : Source) : Prop where
  size : src.size = (b.body files).length
  view : src.compressed = true ∨ src.putintoBuf = true → src.view = b.body files
  gzips : (src.compressed && src.size ≠ 0) = true ↔ b.Gzips files o
  sender : src.channel.sender.peek = []
  file : src.channel.file = if b.InChannel files o then b.body files else []
  putinto : src.putintoBuf = true → ¬ b.InChannel files o
  left : src.compressed = false → src.putintoBuf = false → src.channel.file = b.body files
  removed : src.compressed = true → src.channel.sfileObj = none

theorem file_map {content : Bytes} (h : content ≠ []) :
    (MMap.map content content.length).address = some content := by
  have hlen : content.length ≠ 0 := fun h0 ↦ h (List.eq_nil_of_length_eq_zero h0)
  rw [MMap.map, if_neg hlen, List.take_length]

theorem gzips_iff (b : HttpResponseBuilder) (files : Bytes → File) (o : Outgoing)
    (hfile : ¬ (b.respFile = true ∧ o.supportSendFile = true)) :
    (b.compressed && compressible (b.header.get (ascii "Content-Type")) &&
      (b.body files).length ≠ 0) = true ↔ b.Gzips files o := by
  simp only [Gzips, hfile, not_false_eq_true, and_true, Bool.and_eq_true, decide_eq_true_eq, ne_eq,
    List.length_eq_zero_iff, and_assoc]

theorem source_memory (hf : b.respFile = false) : Sourced b files o (b.source files o.reset) := by
  have hbody : b.body files = b.tmpBuffer.peek := by simp [body, hf]
  have hin : ¬ b.InChannel files o := by simp [InChannel, hf]
  have hsrc : b.source files o.reset = ⟨b.header, o.reset,
      b.compressed && compressible (b.header.get (ascii "Content-Type")), true,
      b.body files, (b.body files).length⟩ := by
    rw [source, hf, if_neg (by simp), hbody, Buffer.peek_length]
  rw [hsrc]
  refine ⟨rfl, fun _ ↦ rfl, b.gzips_iff files o (by simp [hf]), Buffer.peek_retiredAll _, ?_,
    fun _ ↦ hin, by simp, fun _ ↦ rfl⟩
  rw [if_neg hin]
  rfl

section RespFile

variable (hf : b.respFile = true)

include hf in
theorem body_respFile (files : Bytes → File) : b.body files = (files b.fileName).content := by
  rw [body, if_pos hf]

include hf in
theorem source_sendFile (hs : o.supportSendFile = true) :
    Sourced b files o (b.source files o.reset) := by
  have hbody := body_respFile hf files
  have hsrc : b.source files o.reset = ⟨b.header.add (ascii "Last-Modified") (files b.fileName).mtime,
      { o.reset with sfileObj := some ⟨(b.body files).length, b.body files⟩ }, false, false, [],
      (b.body files).length⟩ := by
    rw [source, hbody]
    dsimp only
    rw [if_pos hf, if_pos (by exact hs), Outgoing.createSendFileObject, if_pos (by exact hs)]
    rfl
  have hin : b.InChannel files o ↔ b.body files ≠ [] := by simp [InChannel, hf, hs]
  have hfile : ({ o.reset with sfileObj := some ⟨(b.body files).length, b.body files⟩ } :
      Outgoing).file = b.body files := by
    by_cases hnil : b.body files = []
    · rw [hnil]
      rfl
    · have hsend : ({ o.reset with sfileObj := some ⟨(b.body files).length, b.body files⟩ } :
          Outgoing).sending = some ⟨(b.body files).length, b.body files⟩ := by
        simp [Outgoing.sending, hnil]
      rw [Outgoing.file, hsend]
      exact List.take_length
  rw [hsrc]
  refine ⟨rfl, by simp, ?_, Buffer.peek_retiredAll _, ?_, by simp, fun _ _ ↦ hfile, by simp⟩
  · simp [Gzips, hf, hs]
  · rw [hfile]
    split_ifs with h
    · rfl
    · rw [hin, not_not] at h
      exact h

include hf in
theorem source_read (hs : o.supportSendFile = false) (hM : (b.body files).length ≤ M) :
    Sourced b files o (b.source files o.reset) := by
  have hbody := body_respFile hf files
  have hin : ¬ b.InChannel files o := by
    simp only [InChannel, hs]
    intro h
    rcases h.2.2 with h | h
    · cases h
    · omega
  have hpeek : (b.tmpBuffer.append (b.body files)).peek = b.body files := by
    rw [Buffer.peek_append, b.tmp_nil hf, List.nil_append]
  have hsrc : b.source files o.reset = ⟨b.header.add (ascii "Last-Modified") (files b.fileName).mtime,
      o.reset, b.compressed && compressible (b.header.get (ascii "Content-Type")), true,
      b.body files, (b.body files).length⟩ := by
    rw [source]
    dsimp only
    rw [← hbody, if_pos hf, if_neg (by change ¬ o.supportSendFile = true; simp [hs]), if_pos hM,
      ← Buffer.peek_length, hpeek]
  rw [hsrc]
  refine ⟨rfl, fun _ ↦ rfl, b.gzips_iff files o (by simp [hs]), Buffer.peek_retiredAll _, ?_,
    fun _ ↦ hin, by simp, fun _ ↦ rfl⟩
  rw [if_neg hin]
  rfl

include hf in
theorem source_mmap (hs : o.supportSendFile = false) (hM : M < (b.body files).length) :
    Sourced b files o (b.source files o.reset) := by
  have hbody := body_respFile hf files
  have hne : b.body files ≠ [] := fun hnil ↦ by
    rw [hnil] at hM
    cases hM
  have hin : b.InChannel files o := ⟨hf, hne, .inr hM⟩
  have hmap := file_map hne
  have hsrc : b.source files o.reset = ⟨b.header.add (ascii "Last-Modified") (files b.fileName).mtime,
      { o.reset with mmapObj := some (.map (b.body files) (b.body files).length) },
      b.compressed && compressible (b.header.get (ascii "Content-Type")), false,
      b.body files, (b.body files).length⟩ := by
    have hview : ({ o.reset with mmapObj := some (.map (b.body files) (b.body files).length) } :
        Outgoing).mapped.getD [] = b.body files := by
      rw [Outgoing.mapped]
      dsimp only [Option.bind_some]
      rw [hmap]
      rfl
    rw [source]
    dsimp only
    rw [← hbody, if_pos hf, if_neg (by change ¬ o.supportSendFile = true; simp [hs]),
      if_neg (not_le.mpr hM)]
    exact congrArg (Source.mk _ _ _ _ · _) hview
  have hfile : ({ o.reset with mmapObj := some (.map (b.body files) (b.body files).length) } :
      Outgoing).file = b.body files := by
    rw [Outgoing.file, Outgoing.mapped]
    dsimp only [Option.bind_some]
    rw [hmap]
  rw [hsrc]
  refine ⟨rfl, fun _ ↦ rfl, b.gzips_iff files o (by simp [hs]), Buffer.peek_retiredAll _, ?_,
    by simp, fun _ _ ↦ hfile, fun _ ↦ rfl⟩
  rw [if_pos hin, hfile]

end RespFile

theorem source_sourced (b : HttpResponseBuilder) (files : Bytes → File) (o : Outgoing) :
    Sourced b files o (b.source files o.reset) := by
  cases hf : b.respFile with
  | false => exact source_memory hf
  | true =>
    cases hs : o.supportSendFile with
    | true => exact source_sendFile hf hs
    | false =>
      rcases le_or_gt (b.body files).length M with hM | hM
      · exact source_read hf hs hM
      · exact source_mmap hf hs hM

theorem prepareHeader_some (header : HttpHeader) {sender : Buffer} {message : Bytes}
    (h : statusMessage b.code = some message) (hnil : sender.peek = []) :
    ∃ sender', b.prepareHeader header sender = .ok sender' ∧
      sender'.peek = b.headText header message := by
  rw [prepareHeader, h]
  refine ⟨_, rfl, ?_⟩
  rw [Buffer.peek_append, Buffer.peek_foldl_append, Buffer.peek_append, Buffer.peek_append,
    Buffer.peek_append, Buffer.peek_append, hnil, List.nil_append]
  rfl

theorem get_contentLength (b : HttpResponseBuilder) (header : HttpHeader) (n : ℕ)
    (hk : b.keepalive = true) :
    (b.makeHeaderPart header n).get (ascii "Content-Length") = some (toDecimal n) := by
  rw [makeHeaderPart, if_pos hk]
  exact HttpHeader.get_add_same _ _ (by decide)

theorem get_contentEncoding (b : HttpResponseBuilder) (header : HttpHeader) (n : ℕ) :
    (b.makeHeaderPart header n).get (ascii "Content-Encoding") =
      header.get (ascii "Content-Encoding") := by
  rw [makeHeaderPart]
  split_ifs
  all_goals simp only [HttpHeader.get_add_other _ _ (show Utility.EncodeUtil.toLowers
    (ascii "Content-Length") ≠ Utility.EncodeUtil.toLowers (ascii "Content-Encoding") by decide),
    HttpHeader.get_add_other _ _ (show Utility.EncodeUtil.toLowers (ascii "Connection") ≠
    Utility.EncodeUtil.toLowers (ascii "Content-Encoding") by decide)]

theorem get_finalHeader {src : Source} (hg : src.gzipped = true) :
    (b.finalHeader gzip src).get (ascii "Content-Encoding") = some (ascii "gzip") := by
  rw [finalHeader, if_pos hg, get_contentEncoding]
  exact HttpHeader.get_add_same _ _ (by decide)

theorem get_finalHeader_length {src : Source} (hk : b.keepalive = true) :
    (b.finalHeader gzip src).get (ascii "Content-Length") =
      some (toDecimal (if src.gzipped then (src.out gzip).length else src.size)) := by
  rw [finalHeader]
  split_ifs
  · exact get_contentLength b _ _ hk
  · exact get_contentLength b _ _ hk

section Build

variable {src : Source} {sender : Buffer} (hsrc : b.source files o = src)
  (hprep : b.prepareHeader (b.finalHeader gzip src) src.channel.sender = .ok sender)

include hsrc hprep in
theorem build_head (hm : b.method = .head) : b.build gzip files o =
    .ok ⟨b.finalHeader gzip src, { src.channel with sender }, src.gzipped⟩ := by
  rw [build, hsrc]
  simp only [hprep, bind, Except.bind, if_pos hm]

include hsrc hprep in
theorem build_compressed (hm : b.method ≠ .head) (hc : src.compressed = true) :
    b.build gzip files o = (sender.appendRange (src.out gzip)).map fun sender ↦
      ⟨b.finalHeader gzip src, { src.channel with sender, mmapObj := none }, src.gzipped⟩ := by
  rw [build, hsrc]
  simp only [hprep, bind, Except.bind, if_neg hm, if_pos hc]
  cases sender.appendRange (src.out gzip) with
  | error e => rfl
  | ok sender => rfl

include hsrc hprep in
theorem build_plain (hm : b.method ≠ .head) (hc : src.compressed = false) :
    b.build gzip files o = .ok ⟨b.finalHeader gzip src, { src.channel with
      sender := if src.putintoBuf then sender.append src.view else sender }, src.gzipped⟩ := by
  rw [build, hsrc]
  simp only [hprep, bind, Except.bind, if_neg hm, hc, Bool.false_eq_true, if_false]
  split_ifs
  · rfl
  · rfl

end Build

section Framing

variable {src : Source} {sender : Buffer} {message : Bytes} (hs : Sourced b files o src)
  (hsrc : b.source files o.reset = src) (hmsg : statusMessage b.code = some message)
  (hprep : b.prepareHeader (b.finalHeader gzip src) src.channel.sender = .ok sender)
  (hpeek : sender.peek = b.headText (b.finalHeader gzip src) message)

include hs in
theorem Sourced.gzips_iff : src.gzipped = true ↔ b.Gzips files o := hs.gzips

include hs hsrc hmsg hprep hpeek in
theorem framed_head (hm : b.method = .head) :
    b.Framed gzip files o.reset ↔ ¬ b.InChannel files o := by
  have hbuild := build_head hsrc hprep hm
  have hstream : ({ src.channel with sender } : Outgoing).stream =
      b.headText (b.finalHeader gzip src) message ++ src.channel.file := by
    rw [Outgoing.stream, hpeek]
    rfl
  constructor
  · intro hf hin
    obtain ⟨built, message', sent, hb, hmsg', hsent, -, hhead, -⟩ := hf
    rw [hbuild] at hb
    cases hb
    rw [hmsg] at hmsg'
    cases hmsg'
    rw [hstream, hhead hm, hs.file, if_pos hin, List.append_cancel_left_eq] at hsent
    exact hin.2.1 hsent
  · intro hin
    refine ⟨_, message, [], hbuild, hmsg, ?_, fun hg ↦ get_finalHeader hg, fun _ ↦ rfl,
      fun hne ↦ absurd hm hne, fun hne ↦ absurd hm hne⟩
    rw [hstream, hs.file, if_neg hin]

include hs in
/-- What is to be sent for a request that is not `HEAD`. -/
theorem Sourced.sent_eq (hc : src.compressed = true) :
    src.out gzip = if src.gzipped then gzip (b.body files) else b.body files := by
  rw [Source.out, hs.view (.inl hc)]
  split_ifs with hg
  · rfl
  · rw [Source.gzipped, hc, Bool.true_and, decide_eq_true_iff, not_not, hs.size] at hg
    exact (List.eq_nil_of_length_eq_zero hg).symm

include hs hsrc hmsg hprep hpeek in
theorem framed_compressed (hm : b.method ≠ .head) (hc : src.compressed = true) :
    b.Framed gzip files o.reset ↔ (b.Gzips files o → (gzip (b.body files)).length < 2 ^ 31) := by
  have hbuild := build_compressed hsrc hprep hm hc
  have hfile (sender : Buffer) : ({ src.channel with sender, mmapObj := none } : Outgoing).stream =
      sender.peek := by
    rw [Outgoing.stream, Outgoing.file]
    have hsend : ({ src.channel with sender, mmapObj := none } : Outgoing).sending = none := by
      rw [Outgoing.sending, hs.removed hc]
      rfl
    rw [hsend]
    exact List.append_nil _
  have hout : b.Gzips files o → src.out gzip = gzip (b.body files) := by
    intro hg
    rw [hs.sent_eq hc, if_pos (hs.gzips_iff.mpr hg)]
  constructor
  · intro hf hg
    obtain ⟨built, message', sent, hb, hmsg', hsent, -, -, hbody, -⟩ := hf
    rw [hbuild] at hb
    cases ha : sender.appendRange (src.out gzip) with
    | error e =>
      rw [ha] at hb
      cases hb
    | ok sender' =>
      rw [ha] at hb
      cases hb
      rw [hmsg] at hmsg'
      cases hmsg'
      by_contra hlong
      have hlt := sender.peek_appendRange_of_le (by rw [hout hg]; omega) ha
      rw [hfile, hbody hm, if_pos (hs.gzips_iff.mpr hg)] at hsent
      rw [hsent, hpeek, hout hg, List.length_append] at hlt
      exact hlt.false
  · intro hshort
    have hlen : (src.out gzip).length < 2 ^ 31 := by
      by_cases hg : b.Gzips files o
      · rw [hout hg]
        exact hshort hg
      · rw [Source.out, if_neg (mt hs.gzips_iff.mp hg), List.length_nil]
        omega
    rw [sender.appendRange_of_lt hlen] at hbuild
    refine ⟨_, message, src.out gzip, hbuild, hmsg, ?_, fun hg ↦ get_finalHeader hg,
      fun hh ↦ absurd hh hm, fun _ ↦ hs.sent_eq hc, fun _ hk ↦ ?_⟩
    · rw [hfile, Buffer.peek_append, hpeek]
    · rw [get_finalHeader_length hk]
      split_ifs with hg
      · rfl
      · rw [hs.sent_eq hc, if_neg hg, hs.size]

include hs hsrc hmsg hprep hpeek in
theorem framed_plain (hm : b.method ≠ .head) (hc : src.compressed = false) :
    b.Framed gzip files o.reset := by
  have hbuild := build_plain hsrc hprep hm hc
  have hg : ¬ src.gzipped = true := by simp [Source.gzipped, hc]
  refine ⟨_, message, b.body files, hbuild, hmsg, ?_, fun h ↦ absurd h hg,
    fun hh ↦ absurd hh hm, fun _ ↦ by rw [if_neg hg], fun _ hk ↦ ?_⟩
  · rw [Outgoing.stream]
    change Buffer.peek (if src.putintoBuf then sender.append src.view else sender) ++
      src.channel.file = _
    cases hp : src.putintoBuf with
    | true =>
      rw [if_pos rfl, Buffer.peek_append, hpeek, hs.view (.inr hp), hs.file,
        if_neg (hs.putinto hp), List.append_nil]
    | false => rw [if_neg (by simp), hpeek, hs.left hc hp]
  · rw [get_finalHeader_length hk, if_neg hg, hs.size]

end Framing

/-- The response is framed as it should be just when its status is known, a `HEAD`
request leaves no file to the channel, and what is compressed can be counted in an
`int`. -/
theorem framed_iff (gzip : Bytes → Bytes) (files : Bytes → File) (b : HttpResponseBuilder)
    (o : Outgoing) : b.Framed gzip files o.reset ↔
      (statusMessage b.code).isSome ∧ (b.method = .head → ¬ b.InChannel files o) ∧
      (b.method ≠ .head → b.Gzips files o → (gzip (b.body files)).length < 2 ^ 31) := by
  have hs := b.source_sourced files o
  cases hmsg : statusMessage b.code with
  | none =>
    refine iff_of_false (fun hf ↦ ?_) (by simp)
    obtain ⟨built, message, sent, -, hmsg', -⟩ := hf
    rw [hmsg] at hmsg'
    cases hmsg'
  | some message =>
    obtain ⟨sender, hprep, hpeek⟩ := prepareHeader_some
      (b.finalHeader gzip (b.source files o.reset)) hmsg hs.sender
    by_cases hm : b.method = .head
    · rw [framed_head hs rfl hmsg hprep hpeek hm]
      simp [hm]
    · cases hc : (b.source files o.reset).compressed with
      | true =>
        rw [framed_compressed hs rfl hmsg hprep hpeek hm hc]
        simp [hm]
      | false =>
        have hg : ¬ b.Gzips files o := by
          rw [← hs.gzips_iff, Source.gzipped, hc]
          simp
        refine iff_of_true (framed_plain hs rfl hmsg hprep hpeek hm hc) ?_
        simp [hm, hg]

def headOfFile : HttpResponseBuilder where
  version := .http11
  method := .head
  header := Lib.Multimap.empty
  code := 200
  keepalive := true
  compressed := false
  respFile := true
  fileName := ascii "index.html"
  tmpBuffer := .init 4
  tmp_nil _ := Buffer.peek_init 4

/-- The body of a `HEAD` response is sent all the same when it is a file that the
channel sends by itself. -/
theorem not_framed_head : ¬ ∀ (gzip : Bytes → Bytes) (files : Bytes → File)
    (b : HttpResponseBuilder) (o : Outgoing), b.Framed gzip files o.reset := by
  intro hall
  have hs := headOfFile.source_sourced (fun _ ↦ ⟨ascii "text", []⟩)
    ⟨true, .init 4, none, none, 0, 0, 0⟩
  obtain ⟨sender, hprep, hpeek⟩ := prepareHeader_some (headOfFile.finalHeader id _)
    (show statusMessage headOfFile.code = some (ascii "OK") by decide) hs.sender
  exact (framed_head hs rfl (by decide) hprep hpeek rfl).mp (hall id _ _ _) (by decide)

section Delivered

variable {type : ChannelType}

/-- What the channel is left with once a file has been found. -/
structure Filled (o : Outgoing) (support : Bool) : Prop where
  counters : o.sendBytes = 0 ∧ o.remainBytes = 0 ∧ o.wsendBytes = 0
  mapped : ∀ data, o.mapped = some data → data ≠ []
  file : ∀ f, o.sfileObj = some f → f.rest.length = f.size
  support : support = false → o.sfileObj = none

theorem source_filled (b : HttpResponseBuilder) (files : Bytes → File) (o : Outgoing) :
    Filled (b.source files o.reset).channel o.supportSendFile := by
  have hreset : Filled o.reset o.supportSendFile :=
    ⟨⟨rfl, rfl, rfl⟩, by simp [Outgoing.reset, Outgoing.mapped], by simp [Outgoing.reset],
      fun _ ↦ rfl⟩
  rw [source]
  dsimp only
  split_ifs with hf hs hM
  · rw [Outgoing.createSendFileObject, if_pos hs]
    refine ⟨⟨rfl, rfl, rfl⟩, by simp [Outgoing.reset, Outgoing.mapped], fun f hobj ↦ ?_,
      fun hn ↦ ?_⟩
    · cases hobj
      rfl
    · change o.supportSendFile = true at hs
      rw [hn] at hs
      cases hs
  · exact hreset
  · refine ⟨⟨rfl, rfl, rfl⟩, fun data hdata hnil ↦ hM ?_, by simp [Outgoing.createMMapObject,
      Outgoing.reset], fun _ ↦ rfl⟩
    rw [hnil] at hdata
    simp only [Outgoing.createMMapObject, Outgoing.reset, Outgoing.mapped, Option.bind_some,
      MMap.map, List.take_length] at hdata
    split_ifs at hdata
    rw [Option.some.inj hdata]
    exact Nat.zero_le _
  · exact hreset

theorem Filled.sender {support : Bool} (hf : Filled o support) (sender : Buffer) :
    Filled { o with sender } support := ⟨hf.counters, hf.mapped, hf.file, hf.support⟩

theorem build_filled {built : Built} (hb : b.build gzip files o.reset = .ok built) :
    Filled built.channel o.supportSendFile := by
  have hf := b.source_filled files o
  obtain ⟨sender, -, hb⟩ := bind_eq_ok.mp hb
  dsimp only at hb
  split_ifs at hb
  · cases hb
    exact hf.sender sender
  · obtain ⟨sender', -, hb⟩ := bind_eq_ok.mp hb
    cases hb
    exact ⟨hf.counters, by simp [Outgoing.removeMMapObject, Outgoing.mapped], hf.file, hf.support⟩
  · cases hb
    exact hf.sender _
  · cases hb
    exact hf.sender sender

/-- What the kernel has taken when the flag is raised is the stream of the response, on
a channel of either kind; one with TLS does not support `sendfile`. -/
theorem build_delivered {built : Built} (hb : b.build gzip files o.reset = .ok built)
    (hssl : type = .ssl → o.supportSendFile = false) (hS : built.channel.sender.peek ≠ [])
    (kernel : List (Option ℕ)) (hk : Lib.Run.Throughout (Delivery.step type)
      (fun d k ↦ d.Admissible type k ∧ ∀ n ∈ k, n < 2 ^ 31) (Delivery.start built.channel) kernel) :
    ∃ d, kernel.foldlM (Delivery.step type) (Delivery.start built.channel) = .ok d ∧
      (d.cflag = true ↔ d.accepted = built.channel.stream) := by
  have hf := build_filled hb
  have hfresh := Delivery.fresh_stream hf.counters hf.mapped hf.file fun ht ↦ hf.support (hssl ht)
  obtain ⟨d, hrun, -, hflag⟩ := Delivery.stream_delivered hfresh hS kernel hk
  exact ⟨d, hrun, hflag⟩

end Delivered

end Socnet.Http.HttpResponseBuilder
