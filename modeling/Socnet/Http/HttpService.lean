import Socnet.Http.HttpResponse
import Socnet.Http.HttpServer
import Socnet.Http.HttpSession

namespace Socnet.Http

def HttpStatus.BAD_REQUEST : ℕ := 400
def HttpStatus.METHOD_NOT_ALLOWED : ℕ := 405

namespace HttpResponse

def setBody (resp : HttpResponse) (body : Bytes) : HttpResponse :=
  { resp with tmpBuffer := body, respFile := false }

def start (date : Bytes) : HttpResponse :=
  ((init.setHeader (ascii "Server") (ascii "socnet")).setHeader (ascii "Content-Type")
    (ascii "application/octet-stream")).setHeader (ascii "Date") date

end HttpResponse

abbrev MatchGroup := List Bytes

/-- The methods of a service, as what they make of the response. The groups are those
of the pattern that has led to the service. -/
structure HttpService where
  doGet : HttpRequest → MatchGroup → HttpResponse → HttpResponse :=
    fun _ _ resp ↦ resp.setCode HttpStatus.METHOD_NOT_ALLOWED
  doHead : HttpRequest → MatchGroup → HttpResponse → HttpResponse := doGet
  doPost : HttpRequest → MatchGroup → HttpResponse → HttpResponse :=
    fun _ _ resp ↦ resp.setCode HttpStatus.METHOD_NOT_ALLOWED

/-- `service0`, and `service` where the groups are empty. -/
def HttpService.service (s : HttpService) (req : HttpRequest) (groups : MatchGroup)
    (resp : HttpResponse) : HttpResponse :=
  match req.method with
  | some .head => s.doHead req groups resp
  | some .get => s.doGet req groups resp
  | some .post => s.doPost req groups resp
  | none => resp

/-- `doError` tells whether it has handled the code. -/
structure HttpErrorService where
  doError : ℕ → HttpRequest → HttpResponse → Bool × HttpResponse

def defaultErrorService : HttpErrorService where
  doError _ _ resp := (false, resp)

namespace HttpErrorService

def baseErrorPage (code : ℕ) : Except Fault Bytes :=
  match statusMessage (.ofNat code) with
  | none => .error .outOfRange
  | some message =>
    let text := toDecimal code ++ ascii " " ++ message
    .ok (ascii "<html><head><title>" ++ text ++
      ascii "</title></head><body><center><h1>" ++ text ++
      ascii "</h1></center><hr><center>socnet</center></body></html>")

def service (s : HttpErrorService) (req : HttpRequest) (resp : HttpResponse) :
    Except Fault HttpResponse :=
  let code := resp.code
  match s.doError code req resp with
  | (true, resp) => .ok resp
  | (false, resp) => do
    let page ← baseErrorPage code
    .ok ((resp.setHeader (ascii "Content-Type") (ascii "text/html")).setBody page)

end HttpErrorService

inductive BaseService
  | service (s : HttpService)
  | errorService (s : HttpErrorService)

/-- A service as it is invoked: with its groups, or with the code of the response. -/
inductive Invocation
  | service (s : HttpService) (groups : MatchGroup)
  | errorService (s : HttpErrorService) (code : ℕ)

/-- The services that have been invoked, and the response they leave. -/
abbrev Answer := List Invocation × Except Fault HttpResponse

def BaseService.answer (req : HttpRequest) (resp : HttpResponse) : BaseService → Answer
  | .service s => ([.service s []], .ok (s.service req [] resp))
  | .errorService s => ([.errorService s resp.code], s.service req resp)

/-- What `std::regex` makes of a pattern, which its constructor may reject: the groups of
the first match in a text, of which the whole match comes first. -/
abbrev Regex := Bytes → Option (Bytes → Option MatchGroup)

/-- `HttpServer` with its tables of services. -/
structure HttpRouter extends HttpServer where
  services : HttpMap Bytes BaseService
  urlpServices : HttpMap Bytes HttpService

namespace HttpRouter

/-- The key of the error service. -/
def errorKey : Bytes := ascii "#"

def setErrorService (s : HttpRouter) (service : HttpErrorService) : HttpRouter :=
  { s with services := s.services.add errorKey (.errorService service) }

def init (defaultPages : List Bytes) (enablePhp : Bool) : HttpRouter :=
  setErrorService ⟨HttpServer.init defaultPages enablePhp, ∅, ∅⟩ defaultErrorService

inductive Registration
  | addService (url : Bytes) (service : HttpService)
  | addUrlPatternService (urlPattern : Bytes) (service : HttpService)
  | addMountDir (url : Bytes) (base : CanonicalPath)
  | setErrorService (service : HttpErrorService)

def register (s : HttpRouter) : Registration → Except Fault HttpRouter
  | .addService url service => .ok { s with services := s.services.add url (.service service) }
  | .addUrlPatternService urlPattern service =>
    .ok { s with urlpServices := s.urlpServices.add urlPattern service }
  | .addMountDir url base => do
    let server ← s.toHttpServer.addMountDir url base
    .ok { s with toHttpServer := server }
  | .setErrorService service => .ok (s.setErrorService service)

/- `session` is the session that the services have asked for. -/
variable (regex : Regex) (isRegular : Bytes → Bool)
  (php : Bytes → HttpRequest → HttpResponse → HttpResponse) (session : Option HttpSession)
  (s : HttpRouter) (req : HttpRequest)

/-- The loop of `dispatchUrlPattern`. -/
def searchEach (resp : HttpResponse) : List ((_ : Bytes) × HttpService) → Bool × Answer
  | [] => (false, [], .ok resp)
  | ⟨urlp, service⟩ :: services =>
    match regex urlp with
    | none => (false, [], .error .exception)
    | some search =>
      match search req.url with
      | some m => (true, [.service service m.tail], .ok (service.service req m.tail resp))
      | none => searchEach resp services

def dispatchUrlPattern (resp : HttpResponse) : Bool × Answer :=
  match s.services.get req.url with
  | some service => (true, service.answer req resp)
  | none => searchEach regex req resp s.urlpServices.entries

/-- The two attempts of `onMessage` to dispatch a request. -/
def dispatch (resp : HttpResponse) : Answer :=
  match s.dispatchUrlPattern regex req resp with
  | (false, calls, .ok resp) => (calls, .ok (s.dispatchMountDir isRegular php req resp).2.1)
  | (_, answer) => answer

def associateRequestSession (resp : HttpResponse) : HttpResponse :=
  match session with
  | some session =>
    if session.status = .new then
      resp.setHeader (ascii "Set-Cookie") (ascii "SESSIONID=" ++ session.id ++ ascii "; Path=/")
    else resp
  | none => resp

/-- `getErrorService()->service`, behind the services invoked before. -/
def serveError (calls : List Invocation) (resp : HttpResponse) : Answer :=
  match s.services.get errorKey with
  | none => (calls, .error .badOptionalAccess)
  | some service =>
    let (more, resp) := service.answer req resp
    (calls ++ more, resp)

/-- What `onMessage` does once the request has been dispatched. -/
def finish (calls : List Invocation) (resp : HttpResponse) : Answer :=
  let resp := associateRequestSession session resp
  if 400 ≤ resp.code ∧ resp.code < 600 then s.serveError req calls resp else (calls, .ok resp)

/-- The answer to a request on which the parser has returned `code`. -/
def onMessage (date : Bytes) (code : RetCode) : Option Answer :=
  let resp := HttpResponse.start date
  if code = .badRequest then
    let resp := resp.setCode HttpStatus.BAD_REQUEST
    some (s.serveError req [] (resp.setHeader (ascii "Connection") (ascii "close")))
  else if code ≠ .requestContentDone then none
  else
    match s.dispatch regex isRegular php req resp with
    | (calls, .ok resp) => some (s.finish session req calls resp)
    | answer => some answer

end HttpRouter

end Socnet.Http
