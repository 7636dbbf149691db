import Socnet.Http.HeaderAgreement
import Socnet.Http.HttpService
import Socnet.Http.ResponseFraming

namespace Socnet.Http

open Lib Sequence Net Utility.EncodeUtil

def isspace (c : UInt8) : Bool := c = SP || (9 ≤ c && c ≤ 13)
def isdigit (c : UInt8) : Bool := between '0' '9' c

/-- The number that the digits in front of a text make. -/
def leadingDigits (s : Bytes) : ℤ :=
  (s.takeWhile isdigit).foldl (fun n c ↦ 10 * n + (c - '0'.toUInt8).toNat) 0

/-- The integer in front of a C string, as `strtol` finds it. -/
def strtol (s : Bytes) : ℤ :=
  let s := (s.takeWhile (· ≠ 0)).dropWhile isspace
  if ascii "-" <+: s then - leadingDigits (s.drop 1)
  else if ascii "+" <+: s then leadingDigits (s.drop 1)
  else leadingDigits s

/-- `std::atoi`, which is undefined when the integer is out of range. -/
def atoi (s : Bytes) : Except Fault Int32 :=
  let n := strtol s
  if -2 ^ 31 ≤ n ∧ n < 2 ^ 31 then .ok (.ofInt n) else .error .overflow

/-- The text in front of the first blank. -/
def firstWord (s : Bytes) : Bytes :=
  match find (ascii " ") s with
  | none => s
  | some pos => s.take pos

namespace HttpResponseBuilder

def setCode (b : HttpResponseBuilder) (code : Int32) : HttpResponseBuilder := { b with code }

def setHeader (b : HttpResponseBuilder) (key value : Bytes) : HttpResponseBuilder :=
  { b with header := b.header.add key value }

/-- `setHeader` of all the entries of a header. -/
def setHeaders (b : HttpResponseBuilder) (header : HttpHeader) : HttpResponseBuilder :=
  { b with header := b.header.addHeader header }

def setStatus (b : HttpResponseBuilder) (header : HttpHeader) : Except Fault HttpResponseBuilder :=
  match header.get (ascii "Status") with
  | none => .ok b
  | some status => (atoi (firstWord status)).map b.setCode

/-- The count is an `int` that `remove_prefix` takes as a `size_t`. -/
def setRest (b : HttpResponseBuilder) (first : Bool) (index : ℤ) (sv : Bytes) :
    Except Fault HttpResponseBuilder :=
  if ¬ first ∧ b.code ≠ 200 then .ok b
  else (removePrefix (index % 2 ^ 64).toNat sv).map b.setBody

/-- `dispatchPhpProcessor` from where `readPhpFpm` has returned: `first` is the status
of its pair, and `sv` what it has read. -/
def dispatchPhpProcessor (b : HttpResponseBuilder) (first : Bool) (sv : Bytes) :
    Except Fault HttpResponseBuilder := do
  let (index, header) ← HttpHeader.parse Multimap.empty sv
  let b ← (b.setHeaders header).setStatus header
  b.setRest first index sv

/-- The default error service, which `onMessage` calls for the codes of errors. -/
def serveError (b : HttpResponseBuilder) : Except Fault HttpResponseBuilder :=
  if 400 ≤ b.code.toInt ∧ b.code.toInt < 600 then do
    let page ← HttpErrorService.baseErrorPage b.code.toInt.toNat
    .ok ((b.setHeader (ascii "Content-Type") (ascii "text/html")).setBody page)
  else .ok b

def respond (b : HttpResponseBuilder) (first : Bool) (sv : Bytes) :
    Except Fault HttpResponseBuilder := do
  let b ← b.dispatchPhpProcessor first sv
  b.serveError

/-- The code that the `Status` header of the backend names. -/
def named (header : HttpHeader) : ℤ :=
  match header.get (ascii "Status") with
  | none => 200
  | some status => strtol (firstWord status)

/-- `build` puts a text in front of what is sent. Nothing goes wrong but for a gzip
image too long to be counted. -/
def Begins (gzip : Bytes → Bytes) (files : Bytes → File) (o : Outgoing) (text : Bytes)
    (b : HttpResponseBuilder) : Prop :=
  (∀ e, b.build gzip files o = .error e → e = .overflow ∧ 2 ^ 32 ≤ (gzip (b.body files)).length) ∧
  ∀ built, b.build gzip files o = .ok built → text <+: built.channel.sender.peek

/-- The version and the code in front of a status line. -/
def statusText (version : HttpVersion) (code : ℤ) : Bytes :=
  version.text ++ ascii " " ++ (ascii (toString code) ++ ascii " ")

/-- The output of the backend is answered with a status line that carries the code it
names, which has three digits. -/
def Answers (gzip : Bytes → Bytes) (files : Bytes → File) (o : Outgoing) (b : HttpResponseBuilder)
    (first : Bool) (sv : Bytes) : Prop :=
  ∃ index header, HttpHeader.parse Multimap.empty sv = .ok (index, header) ∧
    100 ≤ named header ∧ named header < 1000 ∧
    ∃ b', b.respond first sv = .ok b' ∧
      b'.Begins gzip files o.reset (statusText b.version (named header))

/-- The codes of `Status_Code`. -/
def Known (n : ℤ) : Prop := ∃ e ∈ statusCode, e.1.toInt = n

instance decidableKnown : DecidablePred Known := fun n ↦
  inferInstanceAs (Decidable (∃ e ∈ statusCode, e.1.toInt = n))

/-- A code that a `short` holds keeps its value as a key of the table. -/
theorem statusMessage_iff {n : ℤ} (h0 : 100 ≤ n) (h : n < 1000) :
    (statusMessage (.ofInt n)).isSome ↔ Known n := by
  have hkey (c : Int16) : c = (Int32.ofInt n).toInt16 ↔ c.toInt = n := by
    rw [← Int16.toInt_inj, Int32.toInt16_ofInt, Int16.toInt_ofInt_of_le (by omega) (by omega)]
  rw [statusMessage, Option.isSome_map, List.find?_isSome]
  simp only [decide_eq_true_eq, hkey]
  rfl

theorem known_bounds {n : ℤ} (h : Known n) : 100 ≤ n ∧ n < 1000 := by
  obtain ⟨e, he, rfl⟩ := h
  revert e
  decide +kernel

section Outcome

variable {gzip : Bytes → Bytes} {files : Bytes → File} {b : HttpResponseBuilder} {o : Outgoing}

theorem build_none (h : statusMessage b.code = none) :
    b.build gzip files o = .error .outOfRange := by
  rw [build, prepareHeader, h]
  rfl

theorem Begins.of_ok {text : Bytes} {built : Built} (hbuild : b.build gzip files o = .ok built)
    (ht : text <+: built.channel.sender.peek) : b.Begins gzip files o text := by
  constructor
  · intro e he
    rw [hbuild] at he
    cases he
  · intro built' hb
    rw [hbuild] at hb
    cases hb
    exact ht

theorem Begins.of_overflow (text : Bytes) (hbuild : b.build gzip files o = .error .overflow)
    (hlong : 2 ^ 32 ≤ (gzip (b.body files)).length) : b.Begins gzip files o text := by
  constructor
  · intro e he
    rw [hbuild] at he
    cases he
    exact ⟨rfl, hlong⟩
  · intro built hb
    rw [hbuild] at hb
    cases hb

/-- A known code gets its status line, whatever becomes of the body. -/
theorem build_some {message : Bytes} (h : statusMessage b.code = some message) :
    b.Begins gzip files o.reset (statusText b.version b.code.toInt) := by
  have hs := b.source_sourced files o
  obtain ⟨sender, hprep, hpeek⟩ := prepareHeader_some
    (b.finalHeader gzip (b.source files o.reset)) h hs.sender
  have hhead : statusText b.version b.code.toInt <+: sender.peek := by
    rw [hpeek, headText, List.append_assoc, List.append_assoc, List.append_assoc]
    exact List.prefix_append _ _
  by_cases hm : b.method = .head
  · exact .of_ok (build_head rfl hprep hm) hhead
  · cases hc : (b.source files o.reset).compressed with
    | true =>
      have hbuild := build_compressed rfl hprep hm hc
      rcases sender.appendRange_cases ((b.source files o.reset).out gzip) with
        ⟨sender', ha, hprefix⟩ | ⟨ha, hlong⟩
      · rw [ha] at hbuild
        exact .of_ok hbuild (hhead.trans hprefix)
      · rw [ha] at hbuild
        apply Begins.of_overflow _ hbuild
        by_cases hg : (b.source files o.reset).gzipped = true
        · rw [hs.sent_eq hc, if_pos hg] at hlong
          exact hlong
        · rw [Source.out, if_neg hg] at hlong
          cases hlong
    | false =>
      apply Begins.of_ok (build_plain rfl hprep hm hc)
      apply hhead.trans
      change _ <+: Buffer.peek (if _ then _ else _)
      split_ifs
      · rw [Buffer.peek_append]
        exact List.prefix_append _ _
      · exact List.prefix_rfl

theorem begins_iff : b.Begins gzip files o.reset (statusText b.version b.code.toInt) ↔
    (statusMessage b.code).isSome := by
  cases hmsg : statusMessage b.code with
  | none =>
    refine iff_of_false (fun hb ↦ ?_) (by simp)
    exact absurd (hb.1 _ (build_none hmsg)).1 (by decide)
  | some message => exact iff_of_true (build_some hmsg) rfl

theorem code_setStatus (hb : b.code = 200) {header : HttpHeader} (h0 : 100 ≤ named header)
    (h : named header < 1000) :
    b.setStatus header = .ok (b.setCode (.ofInt (named header))) := by
  rw [setStatus]
  rw [named] at *
  cases hget : header.get (ascii "Status") with
  | none =>
    rw [← show b.setCode 200 = b by rw [setCode, ← hb]]
    rfl
  | some status =>
    rw [hget] at h0 h
    dsimp only at h0 h ⊢
    rw [atoi, if_pos (by omega)]
    rfl

/-- The two ends of `setRest`, of which the first keeps the version and the code. -/
theorem setRest_cases (b : HttpResponseBuilder) (first : Bool) (index : ℤ) (sv : Bytes) :
    ((first = true ∨ b.code = 200 → (index % 2 ^ 64).toNat ≤ sv.length) ∧
      ∃ b', b.setRest first index sv = .ok b' ∧ b'.version = b.version ∧ b'.code = b.code) ∨
    ¬ (first = true ∨ b.code = 200 → (index % 2 ^ 64).toNat ≤ sv.length) ∧
      b.setRest first index sv = .error .pastEnd := by
  rw [setRest]
  by_cases hc : first = true ∨ b.code = 200
  · rw [if_neg (by tauto)]
    by_cases hle : (index % 2 ^ 64).toNat ≤ sv.length
    · rw [removePrefix_of_le hle]
      exact .inl ⟨fun _ ↦ hle, _, rfl, rfl, rfl⟩
    · rw [removePrefix_of_lt (not_le.mp hle)]
      exact .inr ⟨fun h ↦ hle (h hc), rfl⟩
  · rw [if_pos (not_or.mp hc)]
    exact .inl ⟨fun h ↦ absurd h hc, b, rfl, rfl, rfl⟩

theorem serveError_cases (b : HttpResponseBuilder) :
    (∃ b', b.serveError = .ok b' ∧ b'.version = b.version ∧ b'.code = b.code) ∨
      statusMessage b.code = none ∧ b.serveError = .error .outOfRange := by
  rw [serveError]
  split_ifs with hc
  · have hcode : Int32.ofNat b.code.toInt.toNat = b.code := by
      rw [← Int32.ofInt_eq_ofNat, Int.toNat_of_nonneg (by omega), Int32.ofInt_toInt]
    rw [HttpErrorService.baseErrorPage, hcode]
    cases hmsg : statusMessage b.code with
    | none => exact .inr ⟨rfl, rfl⟩
    | some message => exact .inl ⟨_, rfl, rfl, rfl⟩
  · exact .inl ⟨b, rfl, rfl, rfl⟩

end Outcome

section Header

open HeaderLine HttpHeader

/-- The header ends in front of this text: at a blank line, or where `parse` finds no
further line. -/
def Ends (t : Bytes) : Prop := CRLF <+: t ∨ parseTurn t = .ok .stop

/-- What `parse` counts of a header block, which an `int` may not hold. -/
def counted (ls : List HeaderLine) (t : Bytes) : ℤ :=
  Int.bmod (lines ls).length (2 ^ 32) + if CRLF <+: t then 2 else 0

theorem parse_counted {ls : List HeaderLine} {t : Bytes} (ht : Ends t) :
    HttpHeader.parse Multimap.empty (lines ls ++ t) =
      if counted ls t < 2 ^ 31 then .ok (counted ls t, storeLines Multimap.empty ls)
      else .error .overflow := by
  rcases ht with hb | hstop
  · obtain ⟨t', rfl⟩ := hb
    have hcount : counted ls (CRLF ++ t') = Int.bmod (lines ls).length (2 ^ 32) + 2 :=
      congrArg (_ + ·) (if_pos (List.prefix_append _ _))
    simp only [hcount, parse_lines]
  · have hb : ¬ CRLF <+: t := fun hb ↦ by
      rw [parseTurn, if_pos hb] at hstop
      cases hstop
    have hcount : counted ls t = Int.bmod (lines ls).length (2 ^ 32) :=
      (congrArg (_ + ·) (if_neg hb)).trans (Int.add_zero _)
    have hlt : Int.bmod (lines ls).length (2 ^ 32) < 2 ^ 31 := by
      rw [Int.bmod_def]
      omega
    have hparse := parseLoop_lines ls t Int.zero_bmod Multimap.empty
    rw [Int.zero_add, parseLoop_eq t, hstop] at hparse
    rw [hcount, if_pos hlt]
    exact hparse

variable (gzip : Bytes → Bytes) (files : Bytes → File) (o : Outgoing) {b : HttpResponseBuilder}
  (first : Bool)

theorem code_eq_ok {n : ℤ} (h0 : 100 ≤ n) (h : n < 1000) : Int32.ofInt n = 200 ↔ n = 200 := by
  constructor
  · intro he
    rw [← Int32.toInt_ofInt_of_le (n := n) (by omega) (by omega), he]
    rfl
  · rintro rfl
    rfl

theorem respond_eq (hb : b.code = 200) {sv : Bytes} {index : ℤ} {header : HttpHeader}
    (hparse : HttpHeader.parse Multimap.empty sv = .ok (index, header))
    (h0 : 100 ≤ named header) (h : named header < 1000) :
    b.respond first sv =
      (((b.setHeaders header).setCode (.ofInt (named header))).setRest first index sv >>=
        serveError) := by
  have hset := code_setStatus (b := b.setHeaders header) hb h0 h
  simp only [respond, dispatchPhpProcessor, hparse, hset, bind, Except.bind]

/-- The answer to an output whose code has three digits. -/
theorem respond_begins_iff (hb : b.code = 200) {sv : Bytes} {index : ℤ} {header : HttpHeader}
    (hparse : HttpHeader.parse Multimap.empty sv = .ok (index, header))
    (h0 : 100 ≤ named header) (h : named header < 1000) :
    (∃ b', b.respond first sv = .ok b' ∧
      b'.Begins gzip files o.reset (statusText b.version (named header))) ↔
      Known (named header) ∧
        (first = true ∨ named header = 200 → (index % 2 ^ 64).toNat ≤ sv.length) := by
  have hcode : (Int32.ofInt (named header)).toInt = named header :=
    Int32.toInt_ofInt_of_le (by omega) (by omega)
  rw [respond_eq first hb hparse h0 h, ← statusMessage_iff h0 h, ← code_eq_ok h0 h]
  rcases setRest_cases ((b.setHeaders header).setCode (.ofInt (named header))) first index sv with
    ⟨hle, b₁, hrest, hversion₁, hcode₁⟩ | ⟨hle, hrest⟩
  · rw [hrest]
    change (∃ b', b₁.serveError = .ok b' ∧ _) ↔ _
    change b₁.version = b.version at hversion₁
    change b₁.code = .ofInt (named header) at hcode₁
    rcases b₁.serveError_cases with ⟨b', hserve, hversion, hcode'⟩ | ⟨hmsg, hserve⟩
    · have hbegins := @begins_iff gzip files b' o
      rw [hversion, hversion₁, hcode', hcode₁, hcode] at hbegins
      rw [hserve, ← hbegins]
      constructor
      · rintro ⟨_, h', hb'⟩
        cases h'
        exact ⟨hb', hle⟩
      · intro hb'
        exact ⟨b', rfl, hb'.1⟩
    · rw [hcode₁] at hmsg
      rw [hserve, hmsg]
      simp
  · rw [hrest]
    refine iff_of_false ?_ fun hk ↦ hle hk.2
    rintro ⟨b', hb', -⟩
    cases hb'

/-- Every output is made of header lines and a text in front of which they end, and it
is answered just when its code is one of `Status_Code` and its header can be counted. -/
theorem answers_iff (hb : b.code = 200) :
    (∀ sv, ∃ ls t, sv = lines ls ++ t ∧ Ends t) ∧
    ∀ ls t, Ends t → (b.Answers gzip files o first (lines ls ++ t) ↔
      let n := named (storeLines Multimap.empty ls)
      Known n ∧ counted ls t < 2 ^ 31 ∧
        (first = true ∨ n = 200 → (counted ls t % 2 ^ 64).toNat ≤ (lines ls ++ t).length)) := by
  refine ⟨exists_lines, fun ls t ht ↦ ?_⟩
  have hparse := @parse_counted ls t ht
  dsimp only
  constructor
  · rintro ⟨index, header, hp, h0, h, hbegins⟩
    have hiff := respond_begins_iff gzip files o first hb hp h0 h
    rw [hparse] at hp
    split_ifs at hp with hlt
    simp only [Except.ok.injEq, Prod.mk.injEq] at hp
    obtain ⟨rfl, rfl⟩ := hp
    obtain ⟨hknown, hle⟩ := hiff.mp hbegins
    exact ⟨hknown, hlt, hle⟩
  · rintro ⟨hknown, hlt, hle⟩
    obtain ⟨h0, h⟩ := known_bounds hknown
    rw [if_pos hlt] at hparse
    exact ⟨_, _, hparse, h0, h,
      (respond_begins_iff gzip files o first hb hparse h0 h).mpr ⟨hknown, hle⟩⟩

def response : HttpResponseBuilder where
  version := .http11
  method := .get
  header := HttpHeader.add Multimap.empty (ascii "Content-Type") (ascii "application/octet-stream")
  code := 200
  keepalive := true
  compressed := false
  respFile := false
  fileName := []
  tmpBuffer := .init 8
  tmp_nil := nofun

def channel : Outgoing := ⟨true, .init 4, none, none, 0, 0, 0⟩

def notFound : HeaderLine :=
  ⟨ascii "Status", ascii " 404 Not Found", by decide, by decide, by decide⟩

theorem answers_notFound :
    response.Answers id (fun _ ↦ ⟨[], []⟩) channel true (lines [notFound] ++ (CRLF ++ ascii "x")) := by
  apply ((answers_iff id _ channel true rfl).2 [notFound] _ (.inl (List.prefix_append _ _))).mpr
  exact ⟨by decide, by decide, fun _ ↦ by decide⟩

def created : HeaderLine := ⟨ascii "Status", ascii " 201 Created", by decide, by decide, by decide⟩

theorem not_answers_created :
    ¬ response.Answers id (fun _ ↦ ⟨[], []⟩) channel true (lines [created] ++ (CRLF ++ ascii "x")) := by
  rintro ⟨index, header, hp, h0, h, hbegins⟩
  have hknown := ((respond_begins_iff id _ channel true rfl hp h0 h).mp hbegins).1
  rw [parse_counted (.inl (List.prefix_append _ _)), if_pos (by decide)] at hp
  simp only [Except.ok.injEq, Prod.mk.injEq] at hp
  rw [← hp.2] at hknown
  revert hknown
  decide

end Header

end HttpResponseBuilder

end Socnet.Http
