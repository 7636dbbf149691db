import Socnet.Http.BackendStatus
import Socnet.Http.PhpRequest
import Socnet.Modules.StdoutStream

namespace Socnet.Http

open Lib HeaderLine HttpHeader

/-- What an application has to say on its standard output: the lines of a header and,
behind a blank line, a body. -/
structure Page where
  headerLines : List HeaderLine
  body : Bytes
  counted : (lines headerLines).length + 2 < 2 ^ 31

namespace Page

variable (page : Page)

def text : Bytes := lines page.headerLines ++ (CRLF ++ page.body)

def header : HttpHeader := storeLines Multimap.empty page.headerLines

theorem parse_text : parse Multimap.empty page.text =
    .ok (((lines page.headerLines).length : ℤ) + 2, page.header) := by
  have hlt := page.counted
  have hmod : Int.bmod (lines page.headerLines).length (2 ^ 32) =
      (lines page.headerLines).length := Int.bmod_eq_of_le (by omega) (by omega)
  have hle : ((lines page.headerLines).length : ℤ) + 2 < 2 ^ 31 := by omega
  rw [text, parse_lines]
  simp only [hmod, hle, if_true]
  rfl

theorem removePrefix_text :
    removePrefix ((((lines page.headerLines).length : ℤ) + 2) % 2 ^ 64).toNat page.text =
      .ok page.body := by
  have hlt := page.counted
  have hindex : ((((lines page.headerLines).length : ℤ) + 2) % 2 ^ 64).toNat =
      (lines page.headerLines ++ CRLF).length := by
    rw [List.length_append, Int.emod_eq_of_lt (by omega) (by omega)]
    change _ = (lines page.headerLines).length + 2
    omega
  rw [hindex, text, ← List.append_assoc, removePrefix_of_le (by simp), List.drop_left]

end Page

namespace HttpResponseBuilder

/-- The response that carries a page, but for the errors of an application that names
another code than 200 as well: then it has no body. -/
structure Carries (b b' : HttpResponseBuilder) (page : Page) (errors : Prop) : Prop where
  code : b'.code.toInt = named page.header
  header : b'.header = b.header.addHeader page.header
  body : ¬ errors ∨ named page.header = 200 → b'.respFile = false ∧ b'.tmpBuffer.peek = page.body
  kept : errors ∧ named page.header ≠ 200 → b'.tmpBuffer = b.tmpBuffer

theorem dispatchPhpProcessor_text {b : HttpResponseBuilder} (hb : b.code = 200) (first : Bool)
    {page : Page} (h0 : 100 ≤ named page.header) (h : named page.header < 1000) :
    ∃ b', b.dispatchPhpProcessor first page.text = .ok b' ∧ b.Carries b' page (first = false) := by
  have hset := code_setStatus (b := b.setHeaders page.header) hb h0 h
  have hcode : (Int32.ofInt (named page.header)).toInt = named page.header :=
    Int32.toInt_ofInt_of_le (by omega) (by omega)
  have hok := code_eq_ok h0 h
  simp only [dispatchPhpProcessor, page.parse_text, hset, bind, Except.bind, setRest]
  by_cases hkept : ¬ first ∧ ((b.setHeaders page.header).setCode
      (.ofInt (named page.header))).code ≠ 200
  · rw [if_pos hkept]
    obtain ⟨hfirst, hne⟩ := hkept
    have hfalse : first = false := by simpa using hfirst
    have hnamed : named page.header ≠ 200 := fun heq ↦ hne (hok.mpr heq)
    refine ⟨_, rfl, hcode, rfl, fun hbody ↦ ?_, fun _ ↦ rfl⟩
    rcases hbody with hno | heq
    · exact absurd hfalse hno
    · exact absurd heq hnamed
  · rw [if_neg hkept, page.removePrefix_text]
    refine ⟨_, rfl, hcode, rfl, fun _ ↦ ⟨rfl, ?_⟩, fun hno ↦ absurd ?_ hkept⟩
    · simp [setBody, Net.Buffer.peek_append, Net.Buffer.reset]
    · exact ⟨by simp [hno.1], fun heq ↦ hno.2 (hok.mp heq)⟩

end HttpResponseBuilder

end Socnet.Http

namespace Socnet.PhpFastCgi

open FastCgi Http HttpServer HttpResponseBuilder Lib.Feed

/-- What an application writes that has been sent these bytes. It needs the parameters of a
request, and takes what it then has of the input. -/
def reply (app : Request → List Record) (sent : Bytes) : List Record :=
  match (decode sent).bind (Responder.takeAll .idle) with
  | some (.input q) => app q
  | some (.complete q) => app q
  | _ => []

variable (c : PhpFastCgi)

/-- The request that an application is to see. -/
def request (path : Bytes) (req : HttpRequest) : Request :=
  { c.opened (phpParams path req) with
    input := if req.method = some .post then req.postData else [] }

/-- `dispatchPhpProcessor` from where the backend is connected: `memory` is what the header
of a record holds before the first `read`. -/
def exchange (kernel : ℕ → ℕ → Option ℕ) (take : ℕ → ℕ → ℕ) (memory : Header)
    (app : Request → List Record) (path : Bytes) (req : HttpRequest) (b : HttpResponseBuilder) :
    Except Fault HttpResponseBuilder := do
  let sent ← c.sendRequest kernel path req
  let ((first, _), buffer) ←
    readPhpFpm take memory (.init 4096) ((reply app sent).flatMap Record.bytes)
  b.dispatchPhpProcessor first buffer.peek

/-- The records of an application that bring a page, and that each `read` gives in full. -/
structure Brings (take : ℕ → ℕ → ℕ) (records : List Record) (page : Page) : Prop where
  response : ∀ r ∈ records, ResponseRecord r
  held : ∀ r ∈ records, Held r
  whole : Whole take 0 (records.flatMap readCounts)
  output : output records = page.text
  code_le : 100 ≤ named page.header
  code_lt : named page.header < 1000

variable {c}

theorem reply_of_taken (app : Request → List Record) {path sent : Bytes} {req : HttpRequest}
    {records : List Record} (hdec : decode sent = some records)
    (htake : Responder.takeAll .idle records = some (c.taken path req)) :
    reply app sent = app (c.request path req) := by
  rw [reply, hdec, Option.bind_some, htake]
  by_cases hm : req.method = some .post
  · rw [taken_post hm, request, if_pos hm]
  · rw [taken_of_ne hm, request, if_neg hm]
    rfl

def formPage : Page where
  headerLines := [⟨ascii "X-Form", ascii " b", by decide, by decide, by decide⟩]
  body := ascii "taken"
  counted := by decide

def formRecord : Record where
  header := ⟨1, stdout, 0, 1, 0, 18, 0, 0⟩
  content := formPage.text
  padding := []
  length_content := by decide
  length_padding := by decide

/-- It looks at what has been sent to it. -/
def formApplication (q : Request) : List Record := if q.input = ascii "a=b" then [formRecord] else []

end Socnet.PhpFastCgi
