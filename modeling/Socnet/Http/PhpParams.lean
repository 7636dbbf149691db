import Mathlib.Data.Nat.Digits.Defs
import Socnet.Http.HttpResponse
import Socnet.Http.HttpServer
import Socnet.Modules.NameValue

namespace Socnet.Http

open PhpFastCgi

def HttpRequest.hasQueryString (req : HttpRequest) : Bool := req.query.entries ≠ []

namespace HttpServer

def authParams : Option HttpAuth → List (Params × Bytes)
  | none => []
  | some (.basic user pass _) => [(.phpAuthUser, user), (.phpAuthPw, pass)]
  | some (.digest digestInfo _) => [(.phpAuthDigest, digestInfo)]

def contentParams (req : HttpRequest) : List (Params × Bytes) :=
  match req.header.get (ascii "Content-Type") with
  | none => []
  | some type =>
    [(.contentType, type), (.contentLength, toDecimal (req.postData.length % 2 ^ 64))]

def methodParams (req : HttpRequest) : List (Params × Bytes) :=
  match req.method with
  | none => []
  | some .post => (.requestMethod, HttpMethod.post.text) :: contentParams req
  | some method => [(.requestMethod, method.text)]

/-- What `dispatchPhpProcessor` calls `sendParams` with, in turn. -/
def phpParams (path : Bytes) (req : HttpRequest) : List (Params × Bytes) :=
  (.scriptFilename, path) :: authParams req.auth ++
    (if req.hasQueryString then [(.queryString, req.queryS)] else []) ++ methodParams req

/-- What the client sends is short enough for the array of `sendParams`. -/
structure Short (path : Bytes) (req : HttpRequest) : Prop where
  path : path.length ≤ 2028
  basic : ∀ user pass verified, req.auth = some (.basic user pass verified) →
    user.length ≤ 2030 ∧ pass.length ≤ 2032
  digest : ∀ info verified, req.auth = some (.digest info verified) → info.length ≤ 2028
  query : req.hasQueryString → req.queryS.length ≤ 2031
  type : req.method = some .post → ∀ type, req.header.get (ascii "Content-Type") = some type →
    type.length ≤ 2031

theorem length_toDecimal_le (n : ℕ) : (toDecimal (n % 2 ^ 64)).length ≤ 20 := by
  have h := Nat.repr_length (n % 2 ^ 64) 20 (by decide)
    ((Nat.mod_lt n (by decide)).trans (by decide))
  rw [toDecimal, ascii, List.length_map]
  exact h

variable (c : PhpFastCgi)

theorem carried_authParams (auth : Option HttpAuth) :
    (∀ p ∈ authParams auth, c.Carried p.1 p.2) ↔
      (∀ user pass verified, auth = some (.basic user pass verified) →
        user.length ≤ 2030 ∧ pass.length ≤ 2032) ∧
      ∀ info verified, auth = some (.digest info verified) → info.length ≤ 2028 := by
  cases auth with
  | none => simp [authParams]
  | some auth =>
    cases auth with
    | basic user pass verified =>
      have huser := c.carried_iff_le .phpAuthUser (n := 2030) rfl user
      have hpass := c.carried_iff_le .phpAuthPw (n := 2032) rfl pass
      simp [authParams, huser, hpass]
    | digest info verified =>
      have hinfo := c.carried_iff_le .phpAuthDigest (n := 2028) rfl info
      simp [authParams, hinfo]

theorem carried_contentParams (req : HttpRequest) :
    (∀ p ∈ contentParams req, c.Carried p.1 p.2) ↔
      ∀ type, req.header.get (ascii "Content-Type") = some type → type.length ≤ 2031 := by
  rw [contentParams]
  cases req.header.get (ascii "Content-Type") with
  | none => simp
  | some type =>
    have htype := c.carried_iff_le .contentType (n := 2031) rfl type
    have hsize := (c.carried_iff_le .contentLength (n := 2029) rfl _).mpr
      ((length_toDecimal_le req.postData.length).trans (by decide))
    simp only [List.forall_mem_cons, htype, hsize, List.not_mem_nil, false_imp_iff, implies_true,
      and_true, Option.some.injEq, forall_eq']

theorem carried_method (method : HttpMethod) : c.Carried .requestMethod method.text := by
  apply (carried_iff _ _ _).mpr
  cases method
  all_goals decide

theorem carried_query (req : HttpRequest) :
    (∀ p ∈ if req.hasQueryString then [(Params.queryString, req.queryS)] else [],
      c.Carried p.1 p.2) ↔ (req.hasQueryString → req.queryS.length ≤ 2031) := by
  split_ifs with hq
  · have hquery := c.carried_iff_le .queryString (n := 2031) rfl req.queryS
    simp [hq, hquery]
  · simp [hq]

/-- Every parameter of a request is carried just when the client has sent nothing that
is too long for the array. -/
theorem carried_iff_short (path : Bytes) (req : HttpRequest) :
    (∀ p ∈ phpParams path req, c.Carried p.1 p.2) ↔ Short path req := by
  have hpath := c.carried_iff_le .scriptFilename (n := 2028) rfl path
  have hmethod : (∀ p ∈ methodParams req, c.Carried p.1 p.2) ↔ (req.method = some .post →
      ∀ type, req.header.get (ascii "Content-Type") = some type → type.length ≤ 2031) := by
    rw [← carried_contentParams c, methodParams]
    cases req.method with
    | none => simp
    | some method =>
      have hcarried := carried_method c method
      cases method
      all_goals simp [hcarried]
  simp only [phpParams, List.forall_mem_append, List.forall_mem_cons, hpath, carried_authParams,
    carried_query, hmethod]
  constructor
  · rintro ⟨⟨⟨hpath, hbasic, hdigest⟩, hquery⟩, htype⟩
    exact ⟨hpath, hbasic, hdigest, hquery, htype⟩
  · rintro ⟨hpath, hbasic, hdigest, hquery, htype⟩
    exact ⟨⟨⟨hpath, hbasic, hdigest⟩, hquery⟩, htype⟩

def longQuery : HttpRequest :=
  { HttpRequest.init (.init 4) with
    method := some .get
    queryS := ascii "a=" ++ List.replicate 2030 'x'.toUInt8
    query := HttpMap.add ∅ (ascii "a") (List.replicate 2030 'x'.toUInt8) }

theorem not_carried_longQuery :
    ¬ ∀ p ∈ phpParams (ascii "/srv/www/index.php") longQuery, (PhpFastCgi.mk 1).Carried p.1 p.2 := by
  intro h
  have hquery : longQuery.hasQueryString = true := rfl
  have hmem : (Params.queryString, longQuery.queryS) ∈
      phpParams (ascii "/srv/www/index.php") longQuery := by
    simp [phpParams, hquery]
  have hcarried := h _ hmem
  rw [(PhpFastCgi.mk 1).carried_iff_le _ (n := 2031) rfl, longQuery, List.length_append,
    List.length_replicate] at hcarried
  revert hcarried
  decide

end HttpServer

end Socnet.Http
