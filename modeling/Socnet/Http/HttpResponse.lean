import Socnet.Http.HttpRequest
import Socnet.Net.Outgoing

namespace Socnet.Http

open Net

/-- `Status_Code`, whose keys are of type `short`. -/
def statusCode : List (Int16 × String) :=
  [(100, "Continue"), (200, "OK"), (206, "Partial Content"), (301, "Moved Permanently"),
    (302, "Found"), (304, "Not Modified"), (307, "Temporary Redirect"), (400, "Bad Request"),
    (401, "Unauthorized"), (403, "Forbidden"), (404, "Not Found"), (405, "Method Not Allowed"),
    (416, "Range Not Satisfiable"), (500, "Internal Server Error"), (503, "Service Unavailable"),
    (505, "HTTP Version Not Suppported")]

def statusMessage (code : Int32) : Option Bytes :=
  (statusCode.find? (·.1 = code.toInt16)).map (ascii ·.2)

/-- `std::to_string` of a size. -/
def toDecimal (n : ℕ) : Bytes := ascii (toString n)

/-- `HttpHeader::store`, as the text that it appends. -/
def HttpHeader.text (h : HttpHeader) : Bytes :=
  h.entries.flatMap fun e ↦ e.1 ++ ascii ": " ++ e.2 ++ CRLF

/-- A file as it is opened: what it holds, and the time of its last change as
`strftime` writes it. -/
structure File where
  content : Bytes
  mtime : Bytes

/-- The methods that set a file as the body empty `tmp_buffer_`, and those that add to
it make it the body. -/
structure HttpResponseBuilder where
  version : HttpVersion
  method : HttpMethod
  header : HttpHeader
  code : Int32
  keepalive : Bool
  compressed : Bool
  respFile : Bool
  fileName : Bytes
  tmpBuffer : Buffer
  tmp_nil : respFile = true → tmpBuffer.peek = []

namespace HttpResponseBuilder

def appendBody (b : HttpResponseBuilder) (body : Bytes) : HttpResponseBuilder :=
  { b with tmpBuffer := b.tmpBuffer.append body, respFile := false, tmp_nil := nofun }

def setBody (b : HttpResponseBuilder) (body : Bytes) : HttpResponseBuilder :=
  { b with tmpBuffer := b.tmpBuffer.reset.append body, respFile := false, tmp_nil := nofun }

def setBodyFile (b : HttpResponseBuilder) (filename : Bytes) : HttpResponseBuilder :=
  { b with
    tmpBuffer := b.tmpBuffer.reset
    fileName := filename
    respFile := true
    tmp_nil := fun _ ↦ b.tmpBuffer.peek_retiredAll }

def compressible (type : Option Bytes) : Bool :=
  match type with
  | none => false
  | some type => ascii "text" <+: type ∨ ascii "xml" <:+ type ∨ ascii "javascript" <:+ type ∨
      ascii "json" <:+ type

/-- Where the body lies: `view` and `size` are the two parts of `sv`, whose pointer is
null for `sendfile`. -/
structure Source where
  header : HttpHeader
  channel : Outgoing
  compressed : Bool
  putintoBuf : Bool
  view : Bytes
  size : ℕ

def M : ℕ := 4 * 1024 * 1024

def source (b : HttpResponseBuilder) (files : Bytes → File) (o : Outgoing) : Source :=
  let compressed := b.compressed && compressible (b.header.get (ascii "Content-Type"))
  if b.respFile then
    let file := files b.fileName
    let size := file.content.length
    let header := b.header.add (ascii "Last-Modified") file.mtime
    if o.supportSendFile then
      ⟨header, o.createSendFileObject file.content size, false, false, [], size⟩
    else if size ≤ M then
      let tmpBuffer := b.tmpBuffer.append file.content
      ⟨header, o, compressed, true, tmpBuffer.peek, tmpBuffer.readable⟩
    else
      let o := o.createMMapObject file.content size
      ⟨header, o, compressed, false, o.mapped.getD [], size⟩
  else ⟨b.header, o, compressed, true, b.tmpBuffer.peek, b.tmpBuffer.readable⟩

def makeHeaderPart (b : HttpResponseBuilder) (header : HttpHeader) (contentLength : ℕ) :
    HttpHeader :=
  let header :=
    if b.version = .http10 then
      header.add (ascii "Connection") (ascii (if b.keepalive then "keep-alive" else "close"))
    else if ¬ b.keepalive then header.add (ascii "Connection") (ascii "close")
    else header
  if b.keepalive then header.add (ascii "Content-Length") (toDecimal contentLength) else header

def prepareHeader (b : HttpResponseBuilder) (header : HttpHeader) (sender : Buffer) :
    Except Fault Buffer :=
  let sender := sender.append (b.version.text ++ ascii " ")
  let sender := sender.append (ascii (toString b.code.toInt) ++ ascii " ")
  match statusMessage b.code with
  | none => .error .outOfRange
  | some message =>
    let sender := (sender.append message).append CRLF
    let sender := header.entries.foldl
      (fun sender e ↦ sender.append (e.1 ++ ascii ": " ++ e.2 ++ CRLF)) sender
    .ok (sender.append CRLF)

/-- `gzipped` says whether the `Content-Encoding` has been added. -/
structure Built where
  header : HttpHeader
  channel : Outgoing
  gzipped : Bool

/-- The test for the compression. -/
def Source.gzipped (src : Source) : Bool := src.compressed && src.size ≠ 0

/-- The vector `out`, with `gzipCompress` as a function of its input. -/
def Source.out (gzip : Bytes → Bytes) (src : Source) : Bytes :=
  if src.gzipped then gzip src.view else []

def finalHeader (gzip : Bytes → Bytes) (b : HttpResponseBuilder) (src : Source) : HttpHeader :=
  if src.gzipped then
    b.makeHeaderPart (src.header.add (ascii "Content-Encoding") (ascii "gzip"))
      (src.out gzip).length
  else b.makeHeaderPart src.header src.size

def build (gzip : Bytes → Bytes) (files : Bytes → File) (b : HttpResponseBuilder) (o : Outgoing) :
    Except Fault Built := do
  let src := b.source files o
  let header := b.finalHeader gzip src
  let sender ← b.prepareHeader header src.channel.sender
  let o := { src.channel with sender }
  if b.method = .head then .ok ⟨header, o, src.gzipped⟩
  else if src.compressed then do
    let sender ← sender.appendRange (src.out gzip)
    .ok ⟨header, { o with sender }.removeMMapObject, src.gzipped⟩
  else if src.putintoBuf then
    .ok ⟨header, { o with sender := sender.append src.view }, src.gzipped⟩
  else .ok ⟨header, o, src.gzipped⟩

end HttpResponseBuilder

end Socnet.Http
