import Socnet.Http.HttpCookie
import Socnet.Http.KeyValueRoundTrip
import Socnet.Http.RequestSession

namespace Socnet.Http

open Net Utility.EncodeUtil Lib.Sequence

/-- Clients that each keep the `SESSIONID` of their last `Set-Cookie`, and the sessions of
the server. `visits` has who has been given which session; no code reads it. -/
structure Browsing (ι : Type) where
  sessions : Sessions
  jar : ι → Option Bytes
  visits : List (ι × ℕ)

namespace Browsing

variable {ι : Type} [DecidableEq ι]

/-- A client asks for a page with its cookies, those of other names around that of the
session, and the service asks for the session; `resp` is what the service has made of the
response. All that befalls the server otherwise is an event of it. -/
inductive Action (ι : Type)
  | visit (client : ι) (before after : List (Bytes × Bytes)) (random : RandomStr 16)
      (clock : TimeStamp.Clock) (resp : HttpResponse)
  | server (event : Sessions.Event)

def init (lifetime : Int32) : Browsing ι := ⟨.init lifetime, fun _ ↦ none, []⟩

def cookieTexts (before : List (Bytes × Bytes)) (jar : Option Bytes)
    (after : List (Bytes × Bytes)) : List Bytes :=
  before.map HttpRequest.pairText ++ jar.toList.map (ascii "SESSIONID=" ++ ·) ++
    after.map HttpRequest.pairText

/-- The head of a request with these cookies. -/
def cookieRequest (texts : List Bytes) : HttpRequest :=
  if texts = [] then .init Buffer.init
  else { HttpRequest.init Buffer.init with
    header := HttpHeader.add Lib.Multimap.empty (ascii "Cookie")
      ((ascii "; ").intercalate texts) }

/-- The session that a client keeps of a response. -/
def stored (resp : HttpResponse) : Option Bytes :=
  HttpMap.lastValue ((resp.header.values HttpHeader.setCookie).filterMap HttpCookie.clientPair)
    (ascii "SESSIONID")

def step (w : Browsing ι) : Action ι → Except Fault (Browsing ι)
  | .visit client before after random clock resp => do
    let req ← (cookieRequest (cookieTexts before (w.jar client) after)).parseCookie
    let (s, i) ← w.sessions.associateSession req.cookies random clock
    let resp := HttpRouter.associateRequestSession s.objects[i]? resp
    .ok ⟨{ s with given := s.given ++ [i] },
      Function.update w.jar client ((stored resp).or (w.jar client)), w.visits ++ [(client, i)]⟩
  | .server event => do
    let s ← w.sessions.step event
    .ok { w with sessions := s }

/-- Ids are drawn that no session has had, only the server names a `SESSIONID` to a
client, and who is not a client knows the id of no session. -/
def Careful (w : Browsing ι) : Action ι → Prop
  | .visit _ before after random _ resp =>
    (∀ p ∈ before ++ after, p.1 ≠ ascii "SESSIONID") ∧ stored resp = none ∧
      ∀ o ∈ w.sessions.objects, o.id ≠ Sessions.sessionId random
  | .server (.associate cookies random _) =>
    w.sessions.findSession cookies = none ∧
      ∀ o ∈ w.sessions.objects, o.id ≠ Sessions.sessionId random
  | .server _ => True

instance decidableCareful (w : Browsing ι) : DecidablePred w.Careful
  | .visit _ _ _ _ _ _ => inferInstanceAs (Decidable (_ ∧ _ ∧ _))
  | .server (.associate cookies _ _) =>
    have : Decidable (w.sessions.findSession cookies = none) :=
      decidable_of_iff _ Option.isNone_iff_eq_none
    inferInstanceAs (Decidable (_ ∧ _))
  | .server (.invalidate _) => inferInstanceAs (Decidable True)
  | .server (.timeout _) => inferInstanceAs (Decidable True)
  | .server (.tick _) => inferInstanceAs (Decidable True)

theorem urlEncode_sessionId (random : RandomStr 16) :
    urlEncode (Sessions.sessionId random) = Sessions.sessionId random := by
  have hplain : ∀ c ∈ ascii "SESSIONID_" ++ alpha, urlEncodeByte c = [c] := by decide +kernel
  have hall : ∀ s : Bytes, (∀ c ∈ s, c ∈ ascii "SESSIONID_" ++ alpha) → urlEncode s = s := by
    intro s hs
    induction s with
    | nil => rfl
    | cons c s ih =>
      rw [List.forall_mem_cons] at hs
      rw [urlEncode, List.flatMap_cons, hplain c hs.1]
      exact congrArg (c :: ·) (ih hs.2)
  refine hall _ fun c hc ↦ ?_
  rcases List.mem_append.mp hc with hc | hc
  · exact List.mem_append_left _ hc
  · exact List.mem_append_right _ (random.mem_alpha c hc)

theorem semicolon_notMem_sessionId (random : RandomStr 16) :
    ';'.toUInt8 ∉ Sessions.sessionId random := by
  rw [← urlEncode_sessionId]
  exact HttpRequest.notMem_urlEncode (by decide) _

theorem intercalate_pairText (p : Bytes × Bytes) (rest : List (Bytes × Bytes)) :
    (ascii "; ").intercalate ((p :: rest).map HttpRequest.pairText) =
      HttpRequest.joined ';'.toUInt8 p (rest.map fun q ↦ (1, q)) := by
  induction rest generalizing p with
  | nil => simp [HttpRequest.joined]
  | cons q rest ih =>
    rw [List.map_cons, List.map_cons, List.intercalate_cons_cons, ← List.map_cons, ih,
      List.map_cons, HttpRequest.joined_cons, List.append_assoc]
    rfl

/-- The cookies of a client are read back. -/
theorem parseCookie_cookieTexts {before after : List (Bytes × Bytes)}
    (hother : ∀ p ∈ before ++ after, p.1 ≠ ascii "SESSIONID") {jar : Option Bytes}
    (hjar : ∀ x, jar = some x → urlEncode x = x) :
    ∃ req, (cookieRequest (cookieTexts before jar after)).parseCookie = .ok req ∧
      req.cookies.get (ascii "SESSIONID") = jar := by
  let pairs := before ++ jar.toList.map (ascii "SESSIONID", ·) ++ after
  have htexts : cookieTexts before jar after = pairs.map HttpRequest.pairText := by
    rw [cookieTexts, List.map_append, List.map_append]
    congr 2
    cases jar with
    | none => rfl
    | some x =>
      rw [Option.toList_some, List.map_singleton, List.map_singleton, List.map_singleton,
        HttpRequest.pairText, hjar x rfl]
      rfl
  have hlast : HttpMap.lastValue pairs (ascii "SESSIONID") = jar := by
    have hnone {l : List (Bytes × Bytes)} (hl : ∀ p ∈ l, p.1 ≠ ascii "SESSIONID") :
        l.filter (·.1 = ascii "SESSIONID") = [] :=
      List.filter_eq_nil_iff.mpr fun p hp ↦ by simpa using hl p hp
    rw [List.forall_mem_append] at hother
    rw [HttpMap.lastValue, List.filter_append, List.filter_append, hnone hother.1, hnone hother.2]
    cases jar with
    | none => rfl
    | some x => rfl
  rw [htexts]
  cases hp : pairs with
  | nil =>
    refine ⟨.init Buffer.init, rfl, ?_⟩
    rw [← hlast, hp]
    rfl
  | cons p rest =>
    have hheader : (cookieRequest (pairs.map HttpRequest.pairText)).header.get (ascii "Cookie") =
        some (HttpRequest.joined ';'.toUInt8 p (rest.map fun q ↦ (1, q))) := by
      rw [cookieRequest, if_neg (by simp [hp]), hp, intercalate_pairText]
      exact HttpHeader.get_add_same _ _ (by decide)
    have hcookies : (cookieRequest (pairs.map HttpRequest.pairText)).cookies = ∅ := by
      rw [cookieRequest]
      split_ifs <;> rfl
    obtain ⟨c, hparse, hget⟩ := (HttpRequest.parse_joined p (rest.map fun q ↦ (1, q))).1
      ';'.toUInt8 (by decide)
    have hmap : (rest.map fun q ↦ (1, q)).map Prod.snd = rest := by
      rw [List.map_map]
      exact List.map_id rest
    have hc : c.get (ascii "SESSIONID") = jar := by
      rw [hget, hmap, ← hp, hlast]
    rw [← hp]
    refine ⟨{ cookieRequest (pairs.map HttpRequest.pairText) with
      hasCookies := true, cookies := c }, ?_, hc⟩
    rw [HttpRequest.parseCookie, hheader]
    simp only [hcookies, hparse, bind, Except.bind]

theorem stored_setCookie {resp : HttpResponse} {o : HttpSession} (h : o.status = .new)
    (hid : ∃ random, o.id = Sessions.sessionId random) :
    stored (HttpRouter.associateRequestSession (some o) resp) = some o.id := by
  obtain ⟨random, hid⟩ := hid
  have hpair : HttpCookie.clientPair
      ((HttpCookie.init.add (ascii "SESSIONID") o.id).setPath (ascii "/")).toString =
        some (ascii "SESSIONID", o.id) := by
    have hkey : ';'.toUInt8 ∉ ascii "SESSIONID" ∧ '='.toUInt8 ∉ ascii "SESSIONID" := by decide
    refine HttpCookie.clientPair_toString (e := ⟨ascii "SESSIONID", o.id⟩) rfl hkey ?_
    rw [hid]
    exact semicolon_notMem_sessionId random
  rw [HttpCookie.associateRequestSession_new o h, stored, HttpResponse.setHeader,
    HttpHeader.values_add, if_pos (by decide), if_neg (by simp [HttpHeader.setCookie])]
  rw [List.filterMap_append, List.filterMap_cons, hpair]
  simp [HttpMap.lastValue]

theorem associateRequestSession_old {resp : HttpResponse} {o : HttpSession} (h : o.status ≠ .new) :
    HttpRouter.associateRequestSession (some o) resp = resp := by
  rw [HttpRouter.associateRequestSession]
  exact if_neg h

end Browsing

namespace Sessions

/-- A session that a request can still be given. -/
def Alive (s : Sessions) (i : ℕ) : Prop :=
  ∃ o, s.objects[i]? = some o ∧ s.sessions.get o.id = some i ∧ o.status ≠ .destroy

variable {s s' : Sessions}

/-- A request ends no session. -/
theorem Tracked.alive_associate (hs : s.Tracked) {cookies : HttpMap Bytes Bytes}
    {random : RandomStr 16} {clock : TimeStamp.Clock}
    (hfresh : ∀ o ∈ s.objects, o.id ≠ sessionId random) {i : ℕ}
    (h : s.associateSession cookies random clock = .ok (s', i)) {j : ℕ} (hj : s.Alive j) :
    s'.Alive j := by
  obtain ⟨o, ho, hsession, hd⟩ := hj
  rcases hs.associateSession_cases cookies random clock with
    ⟨k, p, timer, timer', -, -, -, heq⟩ | ⟨timer', -, -, heq⟩
  · rw [h] at heq
    cases heq
    obtain ⟨o', ho', hid, -, hstatus⟩ := getElem?_setStatus i .accessed ho
    refine ⟨o', ho', hid ▸ hsession, ?_⟩
    rw [hstatus]
    split_ifs
    · simp
    · exact hd
  · rw [h] at heq
    cases heq
    refine ⟨o, ?_, ?_, hd⟩
    · exact (List.getElem?_append_left (List.getElem?_eq_some_iff.mp ho).1).trans ho
    · exact (HttpMap.get_add_of_ne _ _ (hfresh o (List.mem_of_getElem? ho))).trans hsession

/-- Ids that are appended to those of the sessions are drawn. -/
def Grown (s s' : Sessions) : Prop :=
  s.given <+: s'.given ∧ ∃ new, s'.objects.map HttpSession.id = s.objects.map HttpSession.id ++ new ∧
    ∀ x ∈ new, ∃ random, x = sessionId random

theorem Grown.of_eq (hg : s.given <+: s'.given)
    (ho : s'.objects.map HttpSession.id = s.objects.map HttpSession.id) : s.Grown s' :=
  ⟨hg, [], by rw [ho, List.append_nil], fun x hx ↦ by cases hx⟩

theorem Tracked.grown (hs : s.Tracked) {event : Event} (h : s.step event = .ok s') : s.Grown s' := by
  cases event with
  | associate cookies random clock =>
    rw [Sessions.step] at h
    rcases hs.associateSession_cases cookies random clock with
      ⟨i, o, timer, timer', -, -, -, heq⟩ | ⟨timer', -, -, heq⟩
    · rw [heq] at h
      cases h
      exact .of_eq (List.prefix_append _ _) (map_id_setStatus s i .accessed)
    · rw [heq] at h
      cases h
      refine ⟨List.prefix_append _ _, [sessionId random], ?_, fun x hx ↦ ?_⟩
      · exact List.map_append
      · exact ⟨random, List.mem_singleton.mp hx⟩
  | invalidate i =>
    cases h
    exact .of_eq List.prefix_rfl (map_id_setStatus s i .destroy)
  | timeout i =>
    cases h
    rw [handleSessionTimeout_frame]
    exact .of_eq List.prefix_rfl rfl
  | tick clock =>
    rw [Sessions.step] at h
    rcases hs.handleTimeout_cases clock with ⟨-, heq⟩ | ⟨timer, timer', l, -, -, -, heq⟩
    · rw [heq] at h
      cases h
      exact .of_eq List.prefix_rfl rfl
    · rw [heq, foldl_handleSessionTimeout_frame] at h
      cases h
      exact .of_eq List.prefix_rfl rfl

theorem Grown.id (hg : s.Grown s') {i : ℕ} {o : HttpSession} (ho : s.objects[i]? = some o) :
    ∃ o', s'.objects[i]? = some o' ∧ o'.id = o.id := by
  obtain ⟨-, new, hids, -⟩ := hg
  have hi : (s'.objects.map HttpSession.id)[i]? = some o.id := by
    rw [hids, List.getElem?_append_left, List.getElem?_map, ho, Option.map_some]
    rw [List.length_map]
    exact (List.getElem?_eq_some_iff.mp ho).1
  rw [List.getElem?_map] at hi
  exact Option.map_eq_some_iff.mp hi

/-- Where ids are distinct a session is known by its id. -/
theorem Registered.eq_of_id (hr : s.Registered) {i j : ℕ} {o p : HttpSession}
    (ho : s.objects[i]? = some o) (hp : s.objects[j]? = some p) (hid : o.id = p.id) : i = j := by
  have hi : (s.objects.map HttpSession.id)[i]? = (s.objects.map HttpSession.id)[j]? := by
    rw [List.getElem?_map, List.getElem?_map, ho, hp, Option.map_some, Option.map_some, hid]
  have hlt : i < (s.objects.map HttpSession.id).length := by
    rw [List.length_map]
    exact (List.getElem?_eq_some_iff.mp ho).1
  exact (List.getElem?_inj hlt hr.distinct).mp hi

end Sessions

namespace Browsing

variable {ι : Type} [DecidableEq ι] {w : Browsing ι}

/-- The session of the client's last visit. -/
def last (w : Browsing ι) (client : ι) : Option ℕ := HttpMap.lastValue w.visits client

theorem mem_of_last {client : ι} {i : ℕ} (h : w.last client = some i) :
    (client, i) ∈ w.visits := by
  obtain ⟨v, hmem, rfl⟩ := List.mem_map.mp (List.mem_of_getLast? h)
  obtain ⟨hv, hc⟩ := List.mem_filter.mp hmem
  rw [← of_decide_eq_true hc]
  exact hv

theorem lastValue_concat (visits : List (ι × ℕ)) (client c : ι) (i : ℕ) :
    HttpMap.lastValue (visits ++ [(client, i)]) c =
      if c = client then some i else HttpMap.lastValue visits c := by
  split_ifs with h
  · simp [HttpMap.lastValue, h]
  · simp [HttpMap.lastValue, Ne.symm h]

/-- A client's cookie is the id of the session of its last visit, and no two clients
have been given one session. -/
structure Kept (w : Browsing ι) : Prop where
  registered : w.sessions.Registered
  ids : ∀ x ∈ w.sessions.objects.map HttpSession.id, ∃ random, x = Sessions.sessionId random
  given : ∀ v ∈ w.visits, v.2 ∈ w.sessions.given
  jar : ∀ client, w.jar client =
    (w.last client).bind fun i ↦ (w.sessions.objects.map HttpSession.id)[i]?
  apart : ∀ c c' i, (c, i) ∈ w.visits → (c', i) ∈ w.visits → c = c'

theorem kept_init (lifetime : Int32) : (init lifetime : Browsing ι).Kept where
  registered := Sessions.registered_init lifetime
  ids x h := by cases h
  given v h := by cases h
  jar _ := rfl
  apart c c' i h := by cases h

variable {client : ι} {before after : List (Bytes × Bytes)} {random : RandomStr 16}
  {clock : TimeStamp.Clock} {resp : HttpResponse}

theorem Kept.jar_eq_some (hk : w.Kept) {x : Bytes} (h : w.jar client = some x) :
    ∃ i o, w.last client = some i ∧ w.sessions.objects[i]? = some o ∧ o.id = x := by
  rw [hk.jar, Option.bind_eq_some_iff] at h
  obtain ⟨i, hi, h⟩ := h
  rw [List.getElem?_map] at h
  obtain ⟨o, ho, hx⟩ := Option.map_eq_some_iff.mp h
  exact ⟨i, o, hi, ho, hx⟩

/-- The cookies of a client name the session of its last visit, if it is alive. -/
theorem Kept.named_iff (hk : w.Kept) {cookies : HttpMap Bytes Bytes}
    (hget : cookies.get (ascii "SESSIONID") = w.jar client) (i : ℕ) :
    (∃ o, w.sessions.Named cookies i o) ↔ w.last client = some i ∧ w.sessions.Alive i := by
  constructor
  · rintro ⟨o, x, hx, hi, ho, hd⟩
    obtain ⟨j, p, hj, hp, hpx⟩ := hk.jar_eq_some (hget.symm.trans hx)
    obtain ⟨q, hq, hqx⟩ := hk.registered.id x i hi
    obtain rfl := hk.registered.eq_of_id hp hq (hpx.trans hqx.symm)
    obtain rfl := Option.some.inj (ho.symm.trans hp)
    exact ⟨hj, o, ho, hpx ▸ hi, hd⟩
  · rintro ⟨hlast, o, ho, hi, hd⟩
    refine ⟨o, o.id, ?_, hi, ho, hd⟩
    rw [hget, hk.jar, hlast, Option.bind_some, List.getElem?_map, ho, Option.map_some]

theorem Kept.of_grown (hk : w.Kept) {s : Sessions} (hr : s.Registered) (hg : w.sessions.Grown s) :
    Kept { w with sessions := s } where
  registered := hr
  ids x hx := by
    obtain ⟨-, new, hids, hnew⟩ := hg
    rw [hids, List.mem_append] at hx
    exact hx.elim (hk.ids x) (hnew x)
  given v hv := hg.1.subset (hk.given v hv)
  jar c := by
    refine (hk.jar c).trans ?_
    change (w.last c).bind _ = (w.last c).bind _
    cases hlast : w.last c with
    | none => rfl
    | some i =>
      have hi := hk.registered.given i (hk.given _ (mem_of_last hlast))
      obtain ⟨o', ho', hid⟩ := hg.id (List.getElem?_eq_getElem hi)
      rw [Option.bind_some, Option.bind_some, List.getElem?_map, List.getElem?_map, ho',
        List.getElem?_eq_getElem hi, Option.map_some, Option.map_some, hid]
  apart := hk.apart

theorem Kept.of_visit (hk : w.Kept) {i : ℕ} {o : HttpSession} (ho : w.sessions.objects[i]? = some o)
    (hi : i ∈ w.sessions.given) (hnew : w.last client = some i ∨ ∀ v ∈ w.visits, v.2 ≠ i) :
    Kept ⟨w.sessions, Function.update w.jar client (some o.id), w.visits ++ [(client, i)]⟩ where
  registered := hk.registered
  ids := hk.ids
  given v hv := by
    rcases List.mem_append.mp hv with hv | hv
    · exact hk.given v hv
    · rw [List.mem_singleton.mp hv]
      exact hi
  jar c := by
    change Function.update w.jar client (some o.id) c = Option.bind (HttpMap.lastValue
      (w.visits ++ [(client, i)]) c) fun i ↦ (w.sessions.objects.map HttpSession.id)[i]?
    rw [lastValue_concat]
    by_cases hc : c = client
    · rw [hc, Function.update_self, if_pos rfl, Option.bind_some, List.getElem?_map, ho,
        Option.map_some]
    · rw [Function.update_of_ne hc, if_neg hc]
      exact hk.jar c
  apart c c' j hc hc' := by
    have hone {d : ι} (hd : (d, i) ∈ w.visits) : d = client := by
      rcases hnew with hlast | hnone
      · exact hk.apart d client i hd (mem_of_last hlast)
      · exact absurd rfl (hnone _ hd)
    rcases List.mem_append.mp hc with hc | hc
    · rcases List.mem_append.mp hc' with hc' | hc'
      · exact hk.apart c c' j hc hc'
      · cases List.mem_singleton.mp hc'
        exact hone hc
    · cases List.mem_singleton.mp hc
      rcases List.mem_append.mp hc' with hc' | hc'
      · exact (hone hc').symm
      · cases List.mem_singleton.mp hc'
        rfl

/-- A visit is given the session of the client's last one, if it is alive, and otherwise
one that nobody was given; it ends no session. -/
theorem Kept.visit (hk : w.Kept) (hc : w.Careful (.visit client before after random clock resp)) :
    ∃ w' i, w.step (.visit client before after random clock resp) = .ok w' ∧ w'.Kept ∧
      w'.visits = w.visits ++ [(client, i)] ∧ w'.sessions.Alive i ∧
      (∀ j, w.sessions.Alive j → w'.sessions.Alive j) ∧
      (∀ j, w.last client = some j → w.sessions.Alive j → i = j) ∧
      ((∀ j, w.last client = some j → ¬ w.sessions.Alive j) → i ∉ w.sessions.given) := by
  obtain ⟨hother, hstored, hfresh⟩ := hc
  have hplain (x : Bytes) (hx : w.jar client = some x) : urlEncode x = x := by
    obtain ⟨i, o, -, ho, rfl⟩ := hk.jar_eq_some hx
    obtain ⟨r, hr⟩ := hk.ids o.id (List.mem_map_of_mem (List.mem_of_getElem? ho))
    rw [hr, urlEncode_sessionId]
  obtain ⟨req, hreq, hget⟩ := parseCookie_cookieTexts hother hplain
  have hstep {s : Sessions} {i : ℕ}
      (h : w.sessions.associateSession req.cookies random clock = .ok (s, i)) :
      w.sessions.step (.associate req.cookies random clock) =
          .ok { s with given := s.given ++ [i] } ∧
        w.step (.visit client before after random clock resp) =
          .ok ⟨{ s with given := s.given ++ [i] }, Function.update w.jar client
            ((stored (HttpRouter.associateRequestSession s.objects[i]? resp)).or (w.jar client)),
            w.visits ++ [(client, i)]⟩ := by
    constructor
    · rw [Sessions.step, h]
      rfl
    · rw [step, hreq]
      simp only [bind, Except.bind, h]
  have hkept {s : Sessions} {i : ℕ} {o : HttpSession}
      (h : w.sessions.associateSession req.cookies random clock = .ok (s, i))
      (ho : s.objects[i]? = some o)
      (hnew : w.last client = some i ∨ ∀ v ∈ w.visits, v.2 ≠ i) :
      Kept ⟨{ s with given := s.given ++ [i] }, Function.update w.jar client (some o.id),
        w.visits ++ [(client, i)]⟩ := by
    have hs := (hstep h).1
    have hf : w.sessions.Fresh (.associate req.cookies random clock) := fun _ ↦ hfresh
    obtain ⟨s', hs', hr⟩ := hk.registered.step hf
    rw [hs] at hs'
    cases hs'
    exact (hk.of_grown hr (hk.registered.tracked.grown hs)).of_visit ho
      (List.mem_append_right _ List.mem_cons_self) hnew
  have hspare {s : Sessions} {i : ℕ}
      (h : w.sessions.associateSession req.cookies random clock = .ok (s, i)) (j : ℕ)
      (hj : w.sessions.Alive j) : s.Alive j :=
    hk.registered.tracked.alive_associate hfresh h hj
  rcases hk.registered.tracked.associateSession_cases req.cookies random clock with
    ⟨i, o, timer, timer', hfind, ht, hadjust, heq⟩ | ⟨timer', hfind, hpush, heq⟩
  · have hnamed := Sessions.findSession_eq_some.mp hfind
    obtain ⟨hlast, halive⟩ := (hk.named_iff hget i).mp ⟨o, hnamed⟩
    obtain ⟨x, hx, hi, ho, -⟩ := hnamed
    obtain ⟨o', ho', hid, -, hstatus⟩ := Sessions.getElem?_setStatus i .accessed ho
    rw [if_pos rfl] at hstatus
    have hjar : (stored (HttpRouter.associateRequestSession
        (w.sessions.setStatus i .accessed).objects[i]? resp)).or (w.jar client) = some o'.id := by
      rw [ho', associateRequestSession_old (by simp [hstatus]), hstored, Option.none_or, hk.jar,
        hlast, Option.bind_some, List.getElem?_map, ho, Option.map_some, hid]
    refine ⟨_, i, (hstep heq).2, ?_, rfl, hspare heq i halive, fun j hj ↦ ?_,
      fun j hj _ ↦ ?_, fun hdead ↦ ?_⟩
    · rw [hjar]
      exact hkept heq ho' (.inl hlast)
    · exact hspare heq j hj
    · exact Option.some.inj (hlast.symm.trans hj)
    · exact absurd halive (hdead i hlast)
  · have hdead (j : ℕ) (hj : w.last client = some j) : ¬ w.sessions.Alive j := by
      intro halive
      obtain ⟨o, hnamed⟩ := (hk.named_iff hget j).mpr ⟨hj, halive⟩
      rw [Sessions.findSession_eq_some.mpr hnamed] at hfind
      cases hfind
    have hi : w.sessions.objects.length ∉ w.sessions.given :=
      fun h ↦ (hk.registered.given _ h).false
    let o : HttpSession := ⟨Sessions.sessionId random, w.sessions.lifetime, .new⟩
    have ho : (w.sessions.createSession random).1.objects[w.sessions.objects.length]? = some o :=
      List.getElem?_concat_length
    have hjar : (stored (HttpRouter.associateRequestSession
        (w.sessions.createSession random).1.objects[w.sessions.objects.length]? resp)).or
          (w.jar client) = some o.id := by
      rw [ho, stored_setCookie rfl ⟨random, rfl⟩, Option.some_or]
    refine ⟨_, w.sessions.objects.length, (hstep heq).2, ?_, rfl, ?_, fun j hj ↦ ?_,
      fun j hj halive ↦ absurd halive (hdead j hj), fun _ ↦ hi⟩
    · rw [hjar]
      exact hkept heq ho (.inr fun v hv h ↦ hi (h ▸ hk.given v hv))
    · exact ⟨o, ho, HttpMap.get_add_self _ _ _, by simp [o]⟩
    · exact hspare heq j hj

theorem Kept.server (hk : w.Kept) {event : Sessions.Event} (hc : w.Careful (.server event)) :
    ∃ s, w.sessions.step event = .ok s ∧ w.step (.server event) = .ok { w with sessions := s } ∧
      Kept { w with sessions := s } := by
  have hfresh : w.sessions.Fresh event := by
    cases event with
    | associate cookies random clock => exact fun _ ↦ hc.2
    | invalidate i => trivial
    | timeout i => trivial
    | tick clock => trivial
  obtain ⟨s, hs, hr⟩ := hk.registered.step hfresh
  refine ⟨s, hs, ?_, hk.of_grown hr (hk.registered.tracked.grown hs)⟩
  rw [step, hs]
  rfl

theorem Kept.step (hk : w.Kept) {action : Action ι} (hc : w.Careful action) :
    ∃ w', w.step action = .ok w' ∧ w'.Kept := by
  cases action with
  | visit client before after random clock resp =>
    obtain ⟨w', -, hstep, hk', -⟩ := hk.visit hc
    exact ⟨w', hstep, hk'⟩
  | server event =>
    obtain ⟨s, -, hstep, hk'⟩ := hk.server hc
    exact ⟨_, hstep, hk'⟩

/-- What ends no session. -/
def Action.Request : Action ι → Prop
  | .visit _ _ _ _ _ _ => True
  | .server (.associate _ _ _) => True
  | .server _ => False

instance decidableRequest : DecidablePred (Action.Request : Action ι → Prop)
  | .visit _ _ _ _ _ _ => inferInstanceAs (Decidable True)
  | .server (.associate _ _ _) => inferInstanceAs (Decidable True)
  | .server (.invalidate _) => inferInstanceAs (Decidable False)
  | .server (.timeout _) => inferInstanceAs (Decidable False)
  | .server (.tick _) => inferInstanceAs (Decidable False)

/-- The client has been given session `i` at all its visits behind the first `n`. -/
structure Stays (client : ι) (i n : ℕ) (w : Browsing ι) : Prop where
  kept : w.Kept
  last : w.last client = some i
  alive : w.sessions.Alive i
  visits : ∀ j, (client, j) ∈ w.visits.drop n → j = i

theorem Stays.step {i n : ℕ} (hw : w.Stays client i n) {action : Action ι} (hreq : action.Request)
    (hc : w.Careful action) : ∃ w', w.step action = .ok w' ∧ w'.Stays client i n := by
  obtain ⟨hk, hlast, halive, hvisits⟩ := hw
  cases action with
  | visit c before after random clock resp =>
    obtain ⟨w', k, hstep, hk', heq, -, hspare, hsame, -⟩ := hk.visit hc
    have hmine (h : client = c) : k = i := by
      subst h
      exact hsame i hlast halive
    refine ⟨w', hstep, hk', ?_, hspare i halive, fun j hj ↦ ?_⟩
    · rw [Browsing.last, heq, lastValue_concat]
      split_ifs with h
      · rw [hmine h]
      · exact hlast
    · rw [heq, List.drop_append] at hj
      rcases List.mem_append.mp hj with hj | hj
      · exact hvisits j hj
      · cases List.mem_singleton.mp (List.mem_of_mem_drop hj)
        exact hmine rfl
  | server event =>
    obtain ⟨s, hs, hstep, hk'⟩ := hk.server hc
    cases event with
    | associate cookies random clock =>
      refine ⟨_, hstep, hk', hlast, ?_, hvisits⟩
      rw [Sessions.step] at hs
      obtain ⟨⟨s₁, k⟩, h₁, hs⟩ := bind_eq_ok.mp hs
      cases hs
      exact hk.registered.tracked.alive_associate hc.2 h₁ halive
    | invalidate j => exact hreq.elim
    | timeout j => exact hreq.elim
    | tick clock => exact hreq.elim

/-- In every run no two clients are given one session, a visit is given the session of
the client's last one, if it is alive, and otherwise one that nobody was given; and while
only requests come in, a client whose session is alive is given that one each time. -/
theorem run_visits (lifetime : Int32) {actions : List (Action ι)}
    (ht : Lib.Run.Throughout step Careful (init lifetime) actions) :
    ∃ w, actions.foldlM step (init lifetime) = .ok w ∧
      (∀ c c' i, (c, i) ∈ w.visits → (c', i) ∈ w.visits → c = c') ∧
      (∀ c before after random clock resp,
        w.Careful (.visit c before after random clock resp) →
        ∃ w' i, w.step (.visit c before after random clock resp) = .ok w' ∧
          w'.visits = w.visits ++ [(c, i)] ∧ w'.sessions.Alive i ∧
          (∀ j, w.last c = some j → w.sessions.Alive j → i = j) ∧
          ((∀ j, w.last c = some j → ¬ w.sessions.Alive j) → i ∉ w.sessions.given)) ∧
      ∀ c i, w.last c = some i → w.sessions.Alive i → ∀ more : List (Action ι),
        Lib.Run.Throughout step (fun w action ↦ action.Request ∧ w.Careful action) w more →
        ∃ w', more.foldlM step w = .ok w' ∧
          ∀ j, (c, j) ∈ w'.visits.drop w.visits.length → j = i := by
  obtain ⟨w, hrun, hk⟩ := ht.invariant (fun _ _ hk hc ↦ Kept.step hk hc) (kept_init lifetime)
  refine ⟨w, hrun, hk.apart, fun c before after random clock resp hc ↦ ?_,
    fun c i hlast halive more ht ↦ ?_⟩
  · obtain ⟨w', i, hstep, -, hvisits, halive, -, hspec⟩ := hk.visit hc
    exact ⟨w', i, hstep, hvisits, halive, hspec⟩
  · have hstays : w.Stays c i w.visits.length := by
      refine ⟨hk, hlast, halive, fun j hj ↦ ?_⟩
      rw [List.drop_length] at hj
      cases hj
    obtain ⟨w', hrun', hstays'⟩ := ht.invariant
      (fun _ _ hw hc ↦ Stays.step hw hc.1 hc.2) hstays
    exact ⟨w', hrun', hstays'.visits⟩

/-- Two clients, the first of which comes back with a cookie of another page. -/
def threeVisits : List (Action Bool) :=
  [.visit true [] [] ⟨ascii "5555555555555555", by decide, by decide +kernel⟩ ⟨21, by decide⟩
      .init,
    .server (.tick ⟨31, by decide⟩),
    .visit false [] [] ⟨ascii "6666666666666666", by decide, by decide +kernel⟩ ⟨25, by decide⟩
      .init,
    .visit true [(ascii "theme", ascii "dark blue")] []
      ⟨ascii "7777777777777777", by decide, by decide +kernel⟩ ⟨29, by decide⟩ .init]

theorem run_visits_three :
    ∃ w, threeVisits.foldlM step (init 1800) = .ok w ∧
      ∀ c c' i, (c, i) ∈ w.visits → (c', i) ∈ w.visits → c = c' := by
  have ht : Lib.Run.Throughout step Careful (init 1800) threeVisits := by decide +kernel
  obtain ⟨w, hrun, hapart, -⟩ := run_visits 1800 ht
  exact ⟨w, hrun, hapart⟩

end Browsing

end Socnet.Http
