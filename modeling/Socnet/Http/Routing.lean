import Socnet.Http.HttpService
import Socnet.Http.MountOrder

namespace Socnet.Http

open Lib

namespace HttpServer

variable (isRegular : Bytes → Bool) (php : Bytes → HttpRequest → HttpResponse → HttpResponse)
  (s : HttpServer) (req : HttpRequest) (resp : HttpResponse)

/-- The file that a URL is resolved to under a mount: the index page of a directory, or
what exists under the name. -/
def fileUnder (pfx dir : Bytes) : Option Bytes :=
  let path := dir ++ req.url.drop pfx.length
  if path.getLast? = some SLASH then (getIndexPageFileName isRegular path s.defaultPages).1
  else if exist isRegular path then some path else none

def fileAnswer (pfx dir : Bytes) : Option HttpResponse :=
  (s.fileUnder isRegular req pfx dir).map fun path ↦ (s.dispatchFound php req path resp).1

/-- The answer of a mount: the file, or 403 for a directory without index page. -/
def mountAnswer (pfx dir : Bytes) : Option HttpResponse :=
  (s.fileAnswer isRegular php req resp pfx dir).or
    (if (dir ++ req.url.drop pfx.length).getLast? = some SLASH then
      some (resp.setCode HttpStatus.FORBIDDEN)
    else none)

theorem respond_eq (mount : (_ : Bytes) × Bytes) :
    s.respond isRegular php req resp mount =
      if mount.1 <+: req.url then s.mountAnswer isRegular php req resp mount.1 mount.2
      else none := by
  unfold respond mountAnswer fileAnswer fileUnder dispatchFile
  by_cases hp : mount.1 <+: req.url
  · simp only [if_pos hp]
    by_cases hdir : (mount.2 ++ req.url.drop mount.1.length).getLast? = some SLASH
    · simp only [if_pos hdir]
      cases hpage : getIndexPageFileName isRegular (mount.2 ++ req.url.drop mount.1.length)
        s.defaultPages with
      | mk found calls =>
        cases found with
        | none => rfl
        | some path => rfl
    · simp only [if_neg hdir]
      split_ifs <;> rfl
  · rw [if_neg hp, if_neg hp]

end HttpServer

namespace HttpRouter

/-- Routers that differ in the enumeration order of their tables alone. -/
structure Reordered (s s' : HttpRouter) : Prop where
  server : HttpServer.Reordered s.toHttpServer s'.toHttpServer
  services : s'.services.entries.Perm s.services.entries
  urlpServices : s'.urlpServices.entries.Perm s.urlpServices.entries

namespace Registration

def service (url : Bytes) : Registration → Option HttpService
  | .addService u service => if u = url then some service else none
  | _ => none

def urlPatternService (urlp : Bytes) : Registration → Option HttpService
  | .addUrlPatternService u service => if u = urlp then some service else none
  | _ => none

def mountDir (pfx : Bytes) : Registration → Option Bytes
  | .addMountDir url base =>
    if (if url.getLast? = some SLASH then url else url ++ [SLASH]) = pfx then
      some (base.path ++ [SLASH])
    else none
  | _ => none

end Registration

section Registered

variable (regs : List Registration)

/-- The service that was added last for a URL. -/
def serviceOf (url : Bytes) : Option HttpService :=
  regs.reverse.findSome? (Registration.service url)

def urlPatternServiceOf (urlp : Bytes) : Option HttpService :=
  regs.reverse.findSome? (Registration.urlPatternService urlp)

def mountDirOf (pfx : Bytes) : Option Bytes :=
  regs.reverse.findSome? (Registration.mountDir pfx)

/-- A router with the given registrations, made one after the other, and with its tables
in any order. -/
def Registered (defaultPages : List Bytes) (enablePhp : Bool) (s : HttpRouter) : Prop :=
  ∃ s₀, regs.foldlM register (init defaultPages enablePhp) = .ok s₀ ∧ Reordered s₀ s

end Registered

section Tables

variable {defaultPages : List Bytes} {enablePhp : Bool} {regs : List Registration}
  {s s' : HttpRouter} {r : Registration}

theorem register_services (h : s.register r = .ok s') {url : Bytes} (hurl : url ≠ errorKey) :
    s'.services.get url = ((r.service url).map .service).or (s.services.get url) := by
  cases r with
  | addService u service =>
    cases h
    by_cases hu : u = url
    · subst hu
      simp [Registration.service]
    · rw [Registration.service, if_neg hu]
      exact HttpMap.get_add_of_ne _ _ (Ne.symm hu)
  | addUrlPatternService urlp service =>
    cases h
    rfl
  | addMountDir u base =>
    obtain ⟨server, -, h⟩ := bind_eq_ok.mp h
    cases h
    rfl
  | setErrorService service =>
    cases h
    exact HttpMap.get_add_of_ne _ _ hurl

theorem register_urlpServices (h : s.register r = .ok s') (urlp : Bytes) :
    s'.urlpServices.get urlp = (r.urlPatternService urlp).or (s.urlpServices.get urlp) := by
  cases r with
  | addService u service =>
    cases h
    rfl
  | addUrlPatternService u service =>
    cases h
    by_cases hu : u = urlp
    · subst hu
      simp [Registration.urlPatternService]
    · rw [Registration.urlPatternService, if_neg hu]
      exact HttpMap.get_add_of_ne _ _ (Ne.symm hu)
  | addMountDir u base =>
    obtain ⟨server, -, h⟩ := bind_eq_ok.mp h
    cases h
    rfl
  | setErrorService service =>
    cases h
    rfl

theorem register_mountDir (h : s.register r = .ok s') (pfx : Bytes) :
    s'.mountDir.get pfx = (r.mountDir pfx).or (s.mountDir.get pfx) := by
  cases r with
  | addService u service =>
    cases h
    rfl
  | addUrlPatternService u service =>
    cases h
    rfl
  | addMountDir u base =>
    obtain ⟨server, hserver, h⟩ := bind_eq_ok.mp h
    cases h
    rw [HttpServer.addMountDir] at hserver
    by_cases hnil : u = []
    · rw [if_pos hnil] at hserver
      cases hserver
    rw [if_neg hnil] at hserver
    cases hserver
    dsimp only [Registration.mountDir]
    by_cases hu : (if u.getLast? = some SLASH then u else u ++ [SLASH]) = pfx
    · subst hu
      simp
    · rw [if_neg hu]
      exact HttpMap.get_add_of_ne _ _ (Ne.symm hu)
  | setErrorService service =>
    cases h
    rfl

theorem Registered.get_services (h : Registered regs defaultPages enablePhp s) {url : Bytes}
    (hurl : url ≠ errorKey) : s.services.get url = (serviceOf regs url).map .service := by
  obtain ⟨s₀, hrun, hperm⟩ := h
  have hstep (s : HttpRouter) (r : Registration) (s' : HttpRouter) (hs : s.register r = .ok s') :
      s'.services.get url = ((r.service url).map .service).or (s.services.get url) :=
    register_services hs hurl
  have hinit : (init defaultPages enablePhp).services.get url = none :=
    HttpMap.get_add_of_ne _ _ hurl
  rw [HttpMap.get, AList.perm_lookup hperm.services]
  change s₀.services.get url = _
  rw [Run.get_foldlM hstep hrun, hinit, Option.or_none, serviceOf, List.map_findSome?]
  rfl

theorem Registered.get_urlpServices (h : Registered regs defaultPages enablePhp s)
    (urlp : Bytes) : s.urlpServices.get urlp = urlPatternServiceOf regs urlp := by
  obtain ⟨s₀, hrun, hperm⟩ := h
  have hstep (s : HttpRouter) (r : Registration) (s' : HttpRouter) (hs : s.register r = .ok s') :
      s'.urlpServices.get urlp = (r.urlPatternService urlp).or (s.urlpServices.get urlp) :=
    register_urlpServices hs urlp
  rw [HttpMap.get, AList.perm_lookup hperm.urlpServices]
  change s₀.urlpServices.get urlp = _
  rw [Run.get_foldlM hstep hrun]
  exact Option.or_none

theorem Registered.get_mountDir (h : Registered regs defaultPages enablePhp s) (pfx : Bytes) :
    s.mountDir.get pfx = mountDirOf regs pfx := by
  obtain ⟨s₀, hrun, hperm⟩ := h
  have hstep (s : HttpRouter) (r : Registration) (s' : HttpRouter) (hs : s.register r = .ok s') :
      s'.mountDir.get pfx = (r.mountDir pfx).or (s.mountDir.get pfx) :=
    register_mountDir hs pfx
  rw [HttpMap.get, AList.perm_lookup hperm.server.mountDir]
  change s₀.mountDir.get pfx = _
  rw [Run.get_foldlM hstep hrun]
  exact Option.or_none

end Tables

section Dispatch

variable (regex : Regex) (isRegular : Bytes → Bool)
  (php : Bytes → HttpRequest → HttpResponse → HttpResponse) (session : Option HttpSession)
  (s : HttpRouter) (req : HttpRequest) (resp : HttpResponse)

/-- `regex_search` for a pattern that has been accepted. -/
def regexSearch (urlp url : Bytes) : Option MatchGroup := (regex urlp).bind fun search ↦ search url

/-- Where a request goes by the registrations: to the service of its URL, else to a service
whose pattern matches, else to the answer of a mount. `unfound` is what the response is
for a request that goes nowhere. -/
inductive Routed (regs : List Registration) (answer : Bytes → Bytes → Option HttpResponse)
    (unfound : HttpResponse → Prop) : List Invocation → HttpResponse → Prop
  | service {service : HttpService} :
      serviceOf regs req.url = some service →
      Routed regs answer unfound [.service service []] (service.service req [] resp)
  | urlPattern {urlp : Bytes} {service : HttpService} {m : MatchGroup} :
      serviceOf regs req.url = none → urlPatternServiceOf regs urlp = some service →
      regexSearch regex urlp req.url = some m →
      Routed regs answer unfound [.service service m.tail] (service.service req m.tail resp)
  | mountDir {pfx dir : Bytes} {resp' : HttpResponse} :
      serviceOf regs req.url = none →
      (∀ urlp service, urlPatternServiceOf regs urlp = some service →
        regexSearch regex urlp req.url = none) →
      mountDirOf regs pfx = some dir → pfx <+: req.url → answer pfx dir = some resp' →
      Routed regs answer unfound [] resp'
  | unfound {resp' : HttpResponse} :
      serviceOf regs req.url = none →
      (∀ urlp service, urlPatternServiceOf regs urlp = some service →
        regexSearch regex urlp req.url = none) →
      (∀ pfx dir, mountDirOf regs pfx = some dir → pfx <+: req.url → answer pfx dir = none) →
      unfound resp' → Routed regs answer unfound [] resp'

/-- Either a pattern of the table matches, or none does. -/
theorem searchEach_cases {services : List ((_ : Bytes) × HttpService)}
    (hregex : ∀ e ∈ services, (regex e.1).isSome) :
    (∃ e ∈ services, ∃ m, regexSearch regex e.1 req.url = some m ∧
      searchEach regex req resp services =
        (true, [.service e.2 m.tail], .ok (e.2.service req m.tail resp))) ∨
    ((∀ e ∈ services, regexSearch regex e.1 req.url = none) ∧
      searchEach regex req resp services = (false, [], .ok resp)) := by
  induction services with
  | nil =>
    right
    exact ⟨by simp, rfl⟩
  | cons e services ih =>
    obtain ⟨urlp, service⟩ := e
    obtain ⟨search, hsearch⟩ := Option.isSome_iff_exists.mp (hregex _ List.mem_cons_self)
    have heq : regexSearch regex urlp req.url = search req.url := by
      rw [regexSearch, hsearch, Option.bind_some]
    cases hm : search req.url with
    | some m =>
      left
      refine ⟨_, List.mem_cons_self, m, heq.trans hm, ?_⟩
      rw [searchEach, hsearch]
      dsimp only
      rw [hm]
    | none =>
      have hnext : searchEach regex req resp (⟨urlp, service⟩ :: services) =
          searchEach regex req resp services := by
        rw [searchEach, hsearch]
        dsimp only
        rw [hm]
      rw [hnext]
      rcases ih fun e he ↦ hregex e (List.mem_cons_of_mem _ he) with
        ⟨e, he, m, hs, hrun⟩ | ⟨hnone, hrun⟩
      · exact .inl ⟨e, List.mem_cons_of_mem _ he, m, hs, hrun⟩
      · refine .inr ⟨fun e he ↦ ?_, hrun⟩
        rcases List.mem_cons.mp he with rfl | he
        · exact heq.trans hm
        · exact hnone e he

variable {regs : List Registration} {defaultPages : List Bytes} {enablePhp : Bool}
  {s : HttpRouter}

theorem Registered.mem_mountDir (h : Registered regs defaultPages enablePhp s) {pfx dir : Bytes} :
    ⟨pfx, dir⟩ ∈ s.mountDir.entries ↔ mountDirOf regs pfx = some dir := by
  rw [← h.get_mountDir pfx]
  exact AList.mem_lookup_iff.symm

theorem Registered.mem_urlpServices (h : Registered regs defaultPages enablePhp s)
    {urlp : Bytes} {service : HttpService} :
    ⟨urlp, service⟩ ∈ s.urlpServices.entries ↔ urlPatternServiceOf regs urlp = some service := by
  rw [← h.get_urlpServices urlp]
  exact AList.mem_lookup_iff.symm

/-- The code is 404 wherever some directory is mounted. -/
def Unfound (regs : List Registration) (resp : HttpResponse) : Prop :=
  (∃ pfx dir, mountDirOf regs pfx = some dir) → resp.code = HttpStatus.NOT_FOUND

theorem dispatchMountDir_routed (h : Registered regs defaultPages enablePhp s)
    (hs : serviceOf regs req.url = none)
    (hp : ∀ urlp service, urlPatternServiceOf regs urlp = some service →
      regexSearch regex urlp req.url = none) :
    Routed regex req resp regs (s.mountAnswer isRegular php req resp) (Unfound regs) []
      (s.dispatchMountDir isRegular php req resp).2.1 := by
  by_cases hne : s.mountDir.entries = []
  · have hnone (pfx dir : Bytes) : mountDirOf regs pfx ≠ some dir := by
      intro hm
      have hmem := h.mem_mountDir.mpr hm
      rw [hne] at hmem
      cases hmem
    refine .unfound hs hp (fun pfx dir hm ↦ absurd hm (hnone pfx dir)) fun hm ↦ ?_
    obtain ⟨pfx, dir, hm⟩ := hm
    exact absurd hm (hnone pfx dir)
  · rw [HttpServer.dispatchMountDir_eq _ _ _ _ _ hne]
    cases hf : s.mountDir.entries.findSome? (s.respond isRegular php req resp) with
    | some resp' =>
      obtain ⟨⟨pfx, dir⟩, hmem, hr⟩ := List.exists_of_findSome?_eq_some hf
      rw [HttpServer.respond_eq] at hr
      split_ifs at hr with hpfx
      exact .mountDir hs hp (h.mem_mountDir.mp hmem) hpfx hr
    | none =>
      refine .unfound hs hp (fun pfx dir hm hpfx ↦ ?_) fun _ ↦ rfl
      have hr := List.findSome?_eq_none_iff.mp hf _ (h.mem_mountDir.mpr hm)
      rwa [HttpServer.respond_eq, if_pos hpfx] at hr

/-- A request is dispatched as the registrations say. -/
theorem dispatch_routed (h : Registered regs defaultPages enablePhp s)
    (hregex : ∀ urlp service, urlPatternServiceOf regs urlp = some service → (regex urlp).isSome)
    (hurl : req.url ≠ errorKey) :
    ∃ calls resp', s.dispatch regex isRegular php req resp = (calls, .ok resp') ∧
      Routed regex req resp regs (s.mountAnswer isRegular php req resp) (Unfound regs)
        calls resp' := by
  have hget := h.get_services hurl
  cases hs : serviceOf regs req.url with
  | some service =>
    refine ⟨_, _, ?_, .service hs⟩
    rw [hs] at hget
    rw [dispatch, dispatchUrlPattern, hget]
    rfl
  | none =>
    rw [hs] at hget
    have hr (e : (_ : Bytes) × HttpService) (he : e ∈ s.urlpServices.entries) :
        (regex e.1).isSome := hregex _ _ (h.mem_urlpServices.mp he)
    rw [dispatch, dispatchUrlPattern, hget]
    rcases searchEach_cases regex req resp hr with ⟨e, he, m, hm, hrun⟩ | ⟨hnone, hrun⟩
    · refine ⟨_, _, ?_, .urlPattern hs (h.mem_urlpServices.mp he) hm⟩
      simp only [Option.map_none, hrun]
    · refine ⟨[], _, ?_, dispatchMountDir_routed regex isRegular php req resp h hs ?_⟩
      · simp only [Option.map_none, hrun]
      · exact fun urlp service hp ↦ hnone _ (h.mem_urlpServices.mpr hp)

theorem Routed.not_errorService {answer : Bytes → Bytes → Option HttpResponse}
    {unfound : HttpResponse → Prop} {calls : List Invocation} {resp' : HttpResponse}
    (h : Routed regex req resp regs answer unfound calls resp') (service : HttpErrorService)
    (code : ℕ) : .errorService service code ∉ calls := by
  cases h <;> simp

/-- The error service is handed the code of the response. -/
theorem serveError_code {calls : List Invocation} {service : HttpErrorService} {code : ℕ}
    (h : .errorService service code ∈ (s.serveError req calls resp).1) :
    .errorService service code ∈ calls ∨ code = resp.code := by
  rw [serveError] at h
  split at h
  · exact .inl h
  · rename_i base _
    rcases List.mem_append.mp h with h | h
    · exact .inl h
    · right
      cases base with
      | service service => simp [BaseService.answer] at h
      | errorService service =>
        obtain ⟨rfl, rfl⟩ := Invocation.errorService.inj (List.mem_singleton.mp h)
        rfl

end Dispatch

/-- A directory without files, for all URLs. -/
def rootMount : Registration := .addMountDir (ascii "/") ⟨ascii "/a", by decide, by decide⟩

def rootRouter : HttpRouter where
  mountDir := ⟨[⟨ascii "/", ascii "/a/"⟩], by
    unfold List.NodupKeys
    decide⟩
  mounted := by
    intro e he
    obtain rfl := List.mem_singleton.mp he
    exact ⟨by decide, ⟨ascii "/a", by decide, by decide⟩, rfl⟩
  defaultPages := [ascii "index.html"]
  enablePhp := false
  services := ⟨[⟨errorKey, .errorService defaultErrorService⟩], List.nodupKeys_singleton _⟩
  urlpServices := ∅

theorem rootRouter_registered : Registered [rootMount] [ascii "index.html"] false rootRouter :=
  ⟨rootRouter, rfl, ⟨.refl _, rfl, rfl⟩, .refl _, .refl _⟩

def getRequest (url : Bytes) : HttpRequest :=
  { HttpRequest.init .init with url, method := some .get }

/-- The patterns are plain texts, which match where they occur. -/
def plainRegex : Regex := fun urlp ↦ some fun url ↦ if urlp <:+: url then some [urlp] else none

def fullRegistrations : List Registration :=
  [.addService (ascii "/s") {}, .addUrlPatternService (ascii "p") {}, rootMount,
    .setErrorService defaultErrorService]

def fullRouter : HttpRouter :=
  { rootRouter with
    services := ⟨[⟨errorKey, .errorService defaultErrorService⟩, ⟨ascii "/s", .service {}⟩], by
      unfold List.NodupKeys
      decide⟩
    urlpServices := ⟨[⟨ascii "p", {}⟩], List.nodupKeys_singleton _⟩ }

theorem fileAnswer_none (s : HttpServer) (req : HttpRequest) (resp : HttpResponse)
    (php : Bytes → HttpRequest → HttpResponse → HttpResponse) (pfx dir : Bytes) :
    s.fileAnswer (fun _ ↦ false) php req resp pfx dir = none := by
  have hpages (path : Bytes) (pages : List Bytes) :
      (HttpServer.getIndexPageFileName (fun _ ↦ false) path pages).1 = none := by
    induction pages with
    | nil => rfl
    | cons page pages ih => exact ih
  rw [HttpServer.fileAnswer, HttpServer.fileUnder]
  simp [hpages, HttpServer.exist]

end HttpRouter

end Socnet.Http
