import Socnet.Http.HttpRequest
import Socnet.Lib.Path

namespace Socnet.Http

def SLASH : UInt8 := '/'.toUInt8
def DOT : Bytes := ascii "."
def DOTDOT : Bytes := ascii ".."

def segments : Bytes → List Bytes := Lib.Path.segments SLASH

/-- The place of a path with its dot segments resolved as they stand. -/
def resolve (path : Bytes) : List Bytes := Lib.Path.resolve DOT DOTDOT [] (segments path)

/-- A path as `std::filesystem::canonical` returns it. -/
structure CanonicalPath where
  path : Bytes
  absolute : path.head? = some SLASH
  plain : ∀ s ∈ segments path, s ≠ DOT ∧ s ≠ DOTDOT

structure HttpResponse where
  code : ℕ
  header : HttpHeader
  tmpBuffer : Bytes
  fileName : Bytes
  respFile : Bool

namespace HttpResponse

def init : HttpResponse := ⟨HttpStatus.OK, Lib.Multimap.empty, [], [], false⟩

def setCode (resp : HttpResponse) (code : ℕ) : HttpResponse := { resp with code }

def setHeader (resp : HttpResponse) (key value : Bytes) : HttpResponse :=
  { resp with header := resp.header.add key value }

def setBodyFile (resp : HttpResponse) (filename : Bytes) : HttpResponse :=
  { resp with tmpBuffer := [], fileName := filename, respFile := true }

end HttpResponse

/-- A key of `mount_dir_` ends in a slash, and its value is a canonical path with a
slash behind it. -/
def Mounted (url dir : Bytes) : Prop :=
  url.getLast? = some SLASH ∧ ∃ base : CanonicalPath, dir = base.path ++ [SLASH]

structure HttpServer where
  mountDir : HttpMap Bytes Bytes
  mounted : ∀ e ∈ mountDir.entries, Mounted e.1 e.2
  defaultPages : List Bytes
  enablePhp : Bool

namespace HttpServer

def init (defaultPages : List Bytes) (enablePhp : Bool) : HttpServer :=
  ⟨∅, nofun, defaultPages, enablePhp⟩

/-- `base` is the canonical form of the directory. The last byte of an empty `url`
is read all the same. -/
def addMountDir (s : HttpServer) (url : Bytes) (base : CanonicalPath) : Except Fault HttpServer :=
  if url = [] then .error .badRead
  else
    let u := if url.getLast? = some SLASH then url else url ++ [SLASH]
    .ok { s with
      mountDir := s.mountDir.add u (base.path ++ [SLASH])
      mounted := by
        intro e he
        rcases List.mem_cons.mp he with rfl | he
        · refine ⟨?_, base, rfl⟩
          dsimp only [u]
          split_ifs with h
          · exact h
          · exact List.getLast?_concat
        · exact s.mounted e ((List.kerase_sublist u s.mountDir.entries).subset he) }

inductive Call
  | exist (path : Bytes)
  | setBodyFile (path : Bytes)
  | dispatchPhpProcessor (path : Bytes)

def Call.path : Call → Bytes
  | .exist path => path
  | .setBodyFile path => path
  | .dispatchPhpProcessor path => path

section Dispatch

/- `isRegular` tells which names are those of regular files, and `php` is what
`dispatchPhpProcessor` makes of the response. -/
variable (isRegular : Bytes → Bool) (php : Bytes → HttpRequest → HttpResponse → HttpResponse)
  (s : HttpServer) (req : HttpRequest)

/-- `FileUtil::exist`: the path goes to `stat` as a C string. -/
def exist (path : Bytes) : Bool := isRegular (path.takeWhile (· ≠ 0))

def getIndexPageFileName (dir : Bytes) : List Bytes → Option Bytes × List Call
  | [] => (none, [])
  | page :: pages =>
    if exist isRegular (dir ++ page) then (some (dir ++ page), [.exist (dir ++ page)])
    else
      let (found, calls) := getIndexPageFileName dir pages
      (found, .exist (dir ++ page) :: calls)

/-- The end of `dispatchFile`, for a path that exists. -/
def dispatchFound (path : Bytes) (resp : HttpResponse) : HttpResponse × List Call :=
  if ascii ".php" <:+ path then
    if s.enablePhp then (php path req resp, [.dispatchPhpProcessor path])
    else (resp.setCode HttpStatus.FORBIDDEN, [])
  else
    ((resp.setHeader (ascii "Content-Type") (mappingMimeType path)).setBodyFile path,
      [.setBodyFile path])

def dispatchFile (pfx reqUrl path : Bytes) (resp : HttpResponse) : Bool × HttpResponse × List Call :=
  let path := path ++ reqUrl.drop pfx.length
  if path.getLast? = some SLASH then
    match getIndexPageFileName isRegular path s.defaultPages with
    | (none, calls) => (true, resp.setCode HttpStatus.FORBIDDEN, calls)
    | (some path, calls) =>
      let (resp, more) := s.dispatchFound php req path resp
      (true, resp, calls ++ more)
  else if exist isRegular path then
    let (resp, more) := s.dispatchFound php req path resp
    (true, resp, .exist path :: more)
  else (false, resp, [.exist path])

/-- The loop of `dispatchMountDir`. Each call is kept with the directory it is made
for. -/
def dispatchEach (resp : HttpResponse) :
    List ((_ : Bytes) × Bytes) → Bool × HttpResponse × List (Bytes × Call)
  | [] => (false, resp, [])
  | ⟨pfx, dir⟩ :: mounts =>
    if pfx <+: req.url then
      match s.dispatchFile isRegular php req pfx req.url dir resp with
      | (true, resp, calls) => (true, resp, calls.map (dir, ·))
      | (false, resp, calls) =>
        let (status, resp, more) := dispatchEach resp mounts
        (status, resp, calls.map (dir, ·) ++ more)
    else dispatchEach resp mounts

def dispatchMountDir (resp : HttpResponse) : Bool × HttpResponse × List (Bytes × Call) :=
  if s.mountDir.entries = [] then (false, resp, [])
  else
    let (status, resp, calls) := s.dispatchEach isRegular php req resp s.mountDir.entries
    (status, if status then resp else resp.setCode HttpStatus.NOT_FOUND, calls)

end Dispatch

end HttpServer

end Socnet.Http
