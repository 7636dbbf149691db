import Mathlib.Data.List.Perm.Subperm
import Mathlib.Data.List.TakeWhile
import Socnet.Http.HttpAuth

namespace Socnet.Http.HttpAuth

def hexDigits : Bytes := ascii "0123456789abcdef"

/-- A digest as `md5Hash` writes it. -/
def IsDigest (s : Bytes) : Prop := s.length = 32 ∧ ∀ c ∈ s, c ∈ hexDigits

theorem exists_digest_notMem (l : List Bytes) (hl : l.length < 16) : ∃ s, IsDigest s ∧ s ∉ l := by
  by_contra hall
  push Not at hall
  have hnodup : (hexDigits.map (List.replicate 32)).Nodup := by
    refine List.Nodup.map (fun c d h ↦ ?_) (by decide)
    exact (List.replicate_right_inj (by decide)).mp h
  have hsub : hexDigits.map (List.replicate 32) ⊆ l := by
    intro s hs
    obtain ⟨c, hc, rfl⟩ := List.mem_map.mp hs
    refine hall _ ⟨List.length_replicate, fun d hd ↦ ?_⟩
    rw [List.eq_of_mem_replicate hd]
    exact hc
  have hle := (List.subperm_of_subset hnodup hsub).length_le
  rw [List.length_map] at hle
  exact absurd (hle.trans_lt hl) (by decide)

section Texts

variable {response p p' t t' : Bytes}

/-- A digest function may tell apart any two ways to put the hashed texts together. -/
theorem texts_eq_of_forall (hr : IsDigest response)
    (h : ∀ md5 : Bytes → Bytes, (∀ s, IsDigest (md5 s)) →
      (md5 (p ++ md5 t) = response ↔ response = md5 (p' ++ md5 t'))) : p = p' ∧ t = t' := by
  by_contra hne
  obtain ⟨a, ha, hfresh⟩ := exists_digest_notMem
    [t.drop p.length, t'.drop p.length, t.drop p'.length, t'.drop p'.length] (by simp)
  obtain ⟨d, hd, hdfresh⟩ := exists_digest_notMem
    [t.drop p'.length, t'.drop p'.length, a] (by simp)
  obtain ⟨c, hc, hcr⟩ := exists_digest_notMem [response] (by simp)
  simp only [List.mem_cons, List.not_mem_nil, or_false, not_or] at hfresh hdfresh hcr
  have hdrop (u v : Bytes) : (u ++ v).drop u.length = v := List.drop_left
  -- the inner digests differ where their texts do
  let b : Bytes := if t = t' then a else d
  have hb : IsDigest b := by
    dsimp only [b]
    split_ifs
    · exact ha
    · exact hd
  let md5 (s : Bytes) : Bytes :=
    if s = t then a else if s = t' then b else if s = p ++ a then response else c
  have hmd5 (s : Bytes) : IsDigest (md5 s) := by
    dsimp only [md5]
    split_ifs
    · exact ha
    · exact hb
    · exact hr
    · exact hc
  have ht : md5 t = a := if_pos rfl
  have ht' : md5 t' = b := by
    by_cases htt : t = t'
    · rw [← htt, ht]
      exact (if_pos htt).symm
    · exact (if_neg (Ne.symm htt)).trans (if_pos rfl)
  have hx : md5 (p ++ a) = response := by
    have h₁ : p ++ a ≠ t := fun h ↦ hfresh.1 (by rw [← h, hdrop])
    have h₂ : p ++ a ≠ t' := fun h ↦ hfresh.2.1 (by rw [← h, hdrop])
    simp only [md5, if_neg h₁, if_neg h₂, if_true]
  have hy : md5 (p' ++ b) = c := by
    have hbt : b ≠ t.drop p'.length ∧ b ≠ t'.drop p'.length := by
      dsimp only [b]
      split_ifs
      · exact ⟨hfresh.2.2.1, hfresh.2.2.2⟩
      · exact ⟨hdfresh.1, hdfresh.2.1⟩
    have h₁ : p' ++ b ≠ t := fun h ↦ hbt.1 (by rw [← h, hdrop])
    have h₂ : p' ++ b ≠ t' := fun h ↦ hbt.2 (by rw [← h, hdrop])
    have h₃ : p' ++ b ≠ p ++ a := by
      intro h
      obtain ⟨rfl, hba⟩ := List.append_inj' h (hb.1.trans ha.1.symm)
      dsimp only [b] at hba
      split_ifs at hba with htt
      · exact hne ⟨rfl, htt⟩
      · exact hdfresh.2.2 hba
    simp only [md5, if_neg h₁, if_neg h₂, if_neg h₃]
  have hiff := h md5 hmd5
  rw [ht, ht', hx, hy] at hiff
  exact hcr (hiff.mp rfl).symm

end Texts

def verify : HttpAuth → Bool
  | basic _ _ verified => verified
  | digest _ verified => verified

/-- The fields that a client sends, with the method. -/
structure Fields where
  username : Bytes
  method : Bytes
  uri : Bytes
  nonce : Bytes
  nc : Bytes
  cnonce : Bytes
  qop : Bytes
  response : Bytes

def fields (da : HttpMap Bytes Bytes) : Option Fields := do
  let username ← da.get (ascii "username")
  let method ← da.get (ascii "method")
  let uri ← da.get (ascii "uri")
  let nonce ← da.get (ascii "nonce")
  let nc ← da.get (ascii "nc")
  let cnonce ← da.get (ascii "cnonce")
  let qop ← da.get (ascii "qop")
  let response ← da.get (ascii "response")
  some ⟨username, method, uri, nonce, nc, cnonce, qop, response⟩

namespace Fields

def innerText (f : Fields) : Bytes := f.method ++ ascii ":" ++ f.uri

def outerText (f : Fields) (h1 : Bytes) : Bytes :=
  h1 ++ ascii ":" ++ f.nonce ++ ascii ":" ++ f.nc ++ ascii ":" ++ f.cnonce ++ ascii ":" ++
    f.qop ++ ascii ":"

/-- The response that a client computes. -/
def expected (f : Fields) (md5 : Bytes → Bytes) (h1 : Bytes) : Bytes :=
  md5 (f.outerText h1 ++ md5 f.innerText)

end Fields

/-- On fields that are all there and of a known user, the constructor has verified them
just when the response is the expected one; where some are missing it returns, with
nothing verified in the absence of the URI or the response. -/
structure Verifies (store : HttpPassStore) (info : Bytes) (da : HttpMap Bytes Bytes) : Prop where
  complete : ∀ f h1, fields da = some f → store.userPass.get f.username = some h1 →
    ∃ auth, httpDigestAuth store info da = .ok auth ∧
      (auth.verify ↔ f.response = f.expected store.md5 h1)
  lacking : fields da = none →
    ∃ auth, httpDigestAuth store info da = .ok auth ∧
      (da.get (ascii "uri") = none ∨ da.get (ascii "response") = none → auth.verify = false)

theorem fields_eq_some {da : HttpMap Bytes Bytes} {f : Fields} : fields da = some f ↔
    da.get (ascii "username") = some f.username ∧ da.get (ascii "method") = some f.method ∧
    da.get (ascii "uri") = some f.uri ∧ da.get (ascii "nonce") = some f.nonce ∧
    da.get (ascii "nc") = some f.nc ∧ da.get (ascii "cnonce") = some f.cnonce ∧
    da.get (ascii "qop") = some f.qop ∧ da.get (ascii "response") = some f.response := by
  constructor
  · intro h
    simp only [fields, Option.bind_eq_bind, Option.bind_eq_some_iff] at h
    obtain ⟨username, h₁, method, h₂, uri, h₃, nonce, h₄, nc, h₅, cnonce, h₆, qop, h₇,
      response, h₈, hf⟩ := h
    cases hf
    exact ⟨h₁, h₂, h₃, h₄, h₅, h₆, h₇, h₈⟩
  · rintro ⟨h₁, h₂, h₃, h₄, h₅, h₆, h₇, h₈⟩
    simp [fields, h₁, h₂, h₃, h₄, h₅, h₆, h₇, h₈]

/-- A field that is present with its colon. -/
def fieldText : Option Bytes → Bytes
  | none => []
  | some s => ascii ":" ++ cstr s

theorem strcat_eq (buffer s : Bytes) :
    strcat buffer s =
      if (buffer ++ cstr s).length < 128 then .ok (buffer ++ cstr s) else .error .overflow := rfl

theorem strcatField_eq {buffer : Bytes} (hb : buffer.length < 128) (x : Option Bytes) :
    strcatField buffer x =
      if (buffer ++ fieldText x).length < 128 then .ok (buffer ++ fieldText x)
      else .error .overflow := by
  cases x with
  | none =>
    rw [fieldText, List.append_nil, if_pos hb]
    rfl
  | some s =>
    have hcolon : cstr (ascii ":") = ascii ":" := by decide
    have htext : fieldText (some s) = ascii ":" ++ cstr s := rfl
    rw [strcatField, strcat_eq, hcolon, htext, ← List.append_assoc]
    by_cases h : (buffer ++ ascii ":").length < 128
    · rw [if_pos h]
      exact strcat_eq _ _
    · have hlong : ¬ (buffer ++ ascii ":" ++ cstr s).length < 128 := by
        rw [List.length_append]
        omega
      rw [if_neg h, if_neg hlong]
      rfl

/-- The fields are put together as long as they fit the array. -/
theorem foldlM_strcatField {buffer : Bytes} (hb : buffer.length < 128) (xs : List (Option Bytes)) :
    xs.foldlM strcatField buffer =
      if (buffer ++ xs.flatMap fieldText).length < 128 then .ok (buffer ++ xs.flatMap fieldText)
      else .error .overflow := by
  induction xs generalizing buffer with
  | nil =>
    rw [List.flatMap_nil, List.append_nil, if_pos hb]
    rfl
  | cons x xs ih =>
    rw [List.foldlM_cons, strcatField_eq hb, List.flatMap_cons, ← List.append_assoc]
    by_cases h : (buffer ++ fieldText x).length < 128
    · rw [if_pos h]
      exact ih h
    · rw [if_neg h, if_neg]
      · rfl
      · simp only [List.length_append] at h ⊢
        omega

theorem cstr_eq {s : Bytes} (h : 0 ∉ s) : cstr s = s := by
  refine List.takeWhile_eq_self_iff.mpr fun c hc ↦ ?_
  simpa using fun h0 : c = 0 ↦ h (h0 ▸ hc)

theorem IsDigest.cstr_eq {s : Bytes} (h : IsDigest s) : cstr s = s := by
  refine HttpAuth.cstr_eq fun h0 ↦ ?_
  exact absurd (h.2 0 h0) (by decide)

/-- What the constructor hashes in front of the inner digest. -/
def outerText (h1 : Bytes) (da : HttpMap Bytes Bytes) : Bytes :=
  cstr h1 ++ [da.get (ascii "nonce"), da.get (ascii "nc"), da.get (ascii "cnonce"),
    da.get (ascii "qop")].flatMap fieldText ++ ascii ":"

/-- What it hashes for the inner one. -/
def innerText (method uri : Bytes) : Bytes := (cstr method ++ ascii ":" ++ cstr uri).take 127

/-- The outer text as far as the array holds it. -/
def outerBuffer (h1 : Bytes) (da : HttpMap Bytes Bytes) (h2 : Bytes) : Except Fault Bytes :=
  if (outerText h1 da).length + 32 < 128 then .ok (outerText h1 da ++ h2) else .error .overflow

section Known

variable {store : HttpPassStore} {info : Bytes} {da : HttpMap Bytes Bytes} {user h1 : Bytes}
  (hmd5 : ∀ s, IsDigest (store.md5 s)) (huser : da.get (ascii "username") = some user)
  (hh1 : store.userPass.get user = some h1)
include hmd5 huser hh1

theorem httpDigestAuth_known :
    httpDigestAuth store info da = (do
      let method ← value (da.get (ascii "method"))
      let uri ← value (da.get (ascii "uri"))
      let buffer ← outerBuffer h1 da (store.md5 (innerText method uri))
      let response ← value (da.get (ascii "response"))
      .ok (.digest info (md5HashEqual store buffer (cstr response)))) := by
  have hbind : (da.get (ascii "username")).bind store.userPass.get = some h1 := by
    rw [huser]
    exact hh1
  have hbuffer (method uri : Bytes) :
      (do
        let buffer ← strcat [] h1
        let buffer ← strcatField buffer (da.get (ascii "nonce"))
        let buffer ← strcatField buffer (da.get (ascii "nc"))
        let buffer ← strcatField buffer (da.get (ascii "cnonce"))
        let buffer ← strcatField buffer (da.get (ascii "qop"))
        strcatField buffer (some (store.md5 (innerText method uri)))) =
      outerBuffer h1 da (store.md5 (innerText method uri)) := by
    unfold outerBuffer
    have hh2 : cstr (store.md5 (innerText method uri)) = store.md5 (innerText method uri) :=
      (hmd5 _).cstr_eq
    have hlen2 : (store.md5 (innerText method uri)).length = 32 := (hmd5 _).1
    by_cases h : (cstr h1).length < 128
    · have hfold := foldlM_strcatField h [da.get (ascii "nonce"), da.get (ascii "nc"),
        da.get (ascii "cnonce"), da.get (ascii "qop"), some (store.md5 (innerText method uri))]
      have htext : cstr h1 ++ [da.get (ascii "nonce"), da.get (ascii "nc"),
          da.get (ascii "cnonce"), da.get (ascii "qop"),
          some (store.md5 (innerText method uri))].flatMap fieldText =
          outerText h1 da ++ store.md5 (innerText method uri) := by
        simp only [outerText, List.flatMap_cons, List.flatMap_nil, List.append_nil,
          List.append_assoc, fieldText, hh2]
      rw [htext, List.length_append, hlen2] at hfold
      rw [← hfold, strcat_eq, List.nil_append, if_pos h]
      simp only [List.foldlM_cons, List.foldlM_nil, bind_pure]
      rfl
    · have hlong : ¬ (outerText h1 da).length + 32 < 128 := by
        simp only [outerText, List.length_append]
        omega
      rw [strcat_eq, List.nil_append, if_neg h, if_neg hlong]
      rfl
  rw [httpDigestAuth, hbind]
  simp only [← hbuffer, bind_assoc]
  rfl

theorem httpDigestAuth_present {method uri response : Bytes} (hm : da.get (ascii "method") = some method)
    (hu : da.get (ascii "uri") = some uri) (hr : da.get (ascii "response") = some response)
    (hfit : (outerText h1 da).length + 32 < 128) :
    httpDigestAuth store info da = .ok (.digest info (md5HashEqual store
      (outerText h1 da ++ store.md5 (innerText method uri)) (cstr response))) := by
  rw [httpDigestAuth_known hmd5 huser hh1, hm, hu, hr]
  simp only [value, outerBuffer, if_pos hfit, bind, Except.bind]

theorem of_httpDigestAuth_ok {auth : HttpAuth} (h : httpDigestAuth store info da = .ok auth) :
    ∃ method uri response, da.get (ascii "method") = some method ∧
      da.get (ascii "uri") = some uri ∧ da.get (ascii "response") = some response ∧
      (outerText h1 da).length + 32 < 128 := by
  have hvalue {x : Option Bytes} {v : Bytes} (hv : value x = .ok v) : x = some v := by
    cases x with
    | none => cases hv
    | some w =>
      cases hv
      rfl
  rw [httpDigestAuth_known hmd5 huser hh1] at h
  obtain ⟨method, hm, h⟩ := bind_eq_ok.mp h
  obtain ⟨uri, hu, h⟩ := bind_eq_ok.mp h
  obtain ⟨buffer, hb, h⟩ := bind_eq_ok.mp h
  obtain ⟨response, hr, -⟩ := bind_eq_ok.mp h
  refine ⟨method, uri, response, hvalue hm, hvalue hu, hvalue hr, ?_⟩
  by_contra hlong
  rw [outerBuffer, if_neg hlong] at hb
  cases hb

end Known

/-- The fields that the constructor handles as it should: where the user is known, those
it cannot do without are there, its array holds the outer text, and, if all are there, a
response that begins with a digest is nothing more, the stored hash has no NUL and the inner
text is not cut. -/
def Verifiable (userPass da : HttpMap Bytes Bytes) : Prop :=
  ∀ user h1, da.get (ascii "username") = some user → userPass.get user = some h1 →
    (da.get (ascii "method")).isSome ∧ (da.get (ascii "uri")).isSome ∧
    (da.get (ascii "response")).isSome ∧ (outerText h1 da).length + 32 < 128 ∧
    ∀ f, fields da = some f → IsDigest (f.response.take 32) →
      f.response.length = 32 ∧ 0 ∉ h1 ∧ f.innerText.length < 128

section Verifies

variable {realm info : Bytes} {userPass da : HttpMap Bytes Bytes}
  (hnul : ∀ name value, da.get name = some value → 0 ∉ value)

theorem httpDigestAuth_unknown {store : HttpPassStore}
    (h : (da.get (ascii "username")).bind store.userPass.get = none) :
    httpDigestAuth store info da = .ok (.digest info false) := by
  rw [httpDigestAuth, h]

include hnul

/-- What the constructor hashes when the fields are all there. -/
theorem outerText_eq {f : Fields} (hf : fields da = some f) (h1 : Bytes) :
    outerText h1 da = f.outerText (cstr h1) := by
  obtain ⟨-, -, -, hnonce, hnc, hcnonce, hqop, -⟩ := fields_eq_some.mp hf
  simp only [outerText, hnonce, hnc, hcnonce, hqop, List.flatMap_cons, List.flatMap_nil, fieldText,
    cstr_eq (hnul _ _ hnonce), cstr_eq (hnul _ _ hnc), cstr_eq (hnul _ _ hcnonce),
    cstr_eq (hnul _ _ hqop), Fields.outerText, List.append_assoc, List.append_nil]

theorem verify_iff {md5 : Bytes → Bytes} (hmd5 : ∀ s, IsDigest (md5 s)) {f : Fields} {h1 : Bytes}
    (hf : fields da = some f) (hh1 : userPass.get f.username = some h1)
    (hfit : (outerText h1 da).length + 32 < 128) :
    ∃ auth, httpDigestAuth ⟨md5, realm, userPass⟩ info da = .ok auth ∧
      (auth.verify ↔ md5 (f.outerText (cstr h1) ++ md5 (f.innerText.take 127)) =
        f.response.take 32) := by
  obtain ⟨huser, hm, hu, -, -, -, -, hr⟩ := fields_eq_some.mp hf
  refine ⟨_, httpDigestAuth_present hmd5 huser hh1 hm hu hr hfit,
    ?_⟩
  rw [verify, md5HashEqual, innerText, cstr_eq (hnul _ _ hm), cstr_eq (hnul _ _ hu),
    cstr_eq (hnul _ _ hr), outerText_eq hnul hf, (hmd5 _).1, decide_eq_true_iff]
  rfl

omit hnul in
/-- Every fault of the constructor is one that some fields are in the way of, whatever the
digest function. -/
theorem isSome_of_verifies {md5 : Bytes → Bytes} (hmd5 : ∀ s, IsDigest (md5 s))
    (h : Verifies ⟨md5, realm, userPass⟩ info da) {user h1 : Bytes}
    (huser : da.get (ascii "username") = some user) (hh1 : userPass.get user = some h1) :
    (da.get (ascii "method")).isSome ∧ (da.get (ascii "uri")).isSome ∧
      (da.get (ascii "response")).isSome ∧ (outerText h1 da).length + 32 < 128 := by
  have hok : ∃ auth, httpDigestAuth ⟨md5, realm, userPass⟩ info da = .ok auth := by
    cases hf : fields da with
    | none =>
      obtain ⟨auth, ha, -⟩ := h.lacking hf
      exact ⟨auth, ha⟩
    | some f =>
      obtain rfl := Option.some.inj (huser.symm.trans (fields_eq_some.mp hf).1)
      obtain ⟨auth, ha, -⟩ := h.complete f h1 hf hh1
      exact ⟨auth, ha⟩
  obtain ⟨auth, ha⟩ := hok
  obtain ⟨method, uri, response, hm, hu, hr, hfit⟩ :=
    of_httpDigestAuth_ok hmd5 huser hh1 ha
  rw [hm, hu, hr]
  exact ⟨rfl, rfl, rfl, hfit⟩

/-- Where all digest functions give the expected verdict on a response that begins with
a digest, it is one and the texts are hashed uncut. -/
theorem uncut_of_verifies
    (h : ∀ md5 : Bytes → Bytes, (∀ s, IsDigest (md5 s)) →
      Verifies ⟨md5, realm, userPass⟩ info da)
    {f : Fields} {h1 : Bytes} (hf : fields da = some f) (hh1 : userPass.get f.username = some h1)
    (hfit : (outerText h1 da).length + 32 < 128) (hr : IsDigest (f.response.take 32)) :
    f.response.length = 32 ∧ 0 ∉ h1 ∧ f.innerText.length < 128 := by
  have hiff (md5 : Bytes → Bytes) (hmd5 : ∀ s, IsDigest (md5 s)) :
      md5 (f.outerText (cstr h1) ++ md5 (f.innerText.take 127)) = f.response.take 32 ↔
        f.response = md5 (f.outerText h1 ++ md5 f.innerText) := by
    obtain ⟨auth, ha, hv⟩ := (h md5 hmd5).complete f h1 hf hh1
    obtain ⟨auth', ha', hv'⟩ :
        ∃ auth, httpDigestAuth ⟨md5, realm, userPass⟩ info da = .ok auth ∧ _ :=
      verify_iff hnul hmd5 hf hh1 hfit
    obtain rfl := Except.ok.inj (ha.symm.trans ha')
    exact hv'.symm.trans hv
  have hlen : f.response.length = 32 := by
    have hresp := (hiff (fun _ ↦ f.response.take 32) (fun _ ↦ hr)).mp rfl
    rw [hresp]
    exact hr.1
  have htake : f.response.take 32 = f.response := List.take_of_length_le hlen.le
  rw [htake] at hr hiff
  obtain ⟨houter, hinner⟩ := texts_eq_of_forall hr hiff
  refine ⟨hlen, ?_, ?_⟩
  · have hcstr : cstr h1 = h1 := by
      simpa [Fields.outerText] using houter
    rw [← hcstr]
    intro h0
    simpa using List.mem_takeWhile_imp h0
  · have := congrArg List.length hinner
    rw [List.length_take] at this
    omega

/-- Whatever the digest function, the constructor verifies the fields as it should just
when they are ones that it handles. -/
theorem verifies_iff :
    (∀ md5 : Bytes → Bytes, (∀ s, IsDigest (md5 s)) →
      Verifies ⟨md5, realm, userPass⟩ info da) ↔ Verifiable userPass da := by
  constructor
  · intro h user h1 huser hh1
    obtain ⟨d, hd, -⟩ := exists_digest_notMem [] (by decide)
    obtain ⟨hm, hu, hr, hfit⟩ := isSome_of_verifies (fun _ ↦ hd) (h (fun _ ↦ d) fun _ ↦ hd) huser hh1
    refine ⟨hm, hu, hr, hfit, fun f hf hresp ↦ ?_⟩
    obtain rfl := Option.some.inj (huser.symm.trans (fields_eq_some.mp hf).1)
    exact uncut_of_verifies hnul h hf hh1 hfit hresp
  · intro h md5 hmd5
    constructor
    · intro f h1 hf hh1
      obtain ⟨-, -, -, hfit, huncut⟩ := h _ h1 (fields_eq_some.mp hf).1 hh1
      obtain ⟨auth, ha, hv⟩ :
          ∃ auth, httpDigestAuth ⟨md5, realm, userPass⟩ info da = .ok auth ∧ _ :=
        verify_iff hnul hmd5 hf hh1 hfit
      refine ⟨auth, ha, hv.trans ?_⟩
      by_cases hresp : IsDigest (f.response.take 32)
      · obtain ⟨hlen, h0, hinner⟩ := huncut f hf hresp
        rw [cstr_eq h0, List.take_of_length_le (Nat.le_of_lt_succ hinner),
          List.take_of_length_le hlen.le, Fields.expected]
        exact eq_comm
      · refine iff_of_false (fun heq ↦ hresp (heq ▸ hmd5 _)) fun heq ↦ hresp ?_
        rw [heq, Fields.expected, List.take_of_length_le (hmd5 _).1.le]
        exact hmd5 _
    · intro hf
      cases hb : (da.get (ascii "username")).bind userPass.get with
      | none => exact ⟨_, httpDigestAuth_unknown hb, fun _ ↦ rfl⟩
      | some h1 =>
        obtain ⟨user, huser, hh1⟩ := Option.bind_eq_some_iff.mp hb
        obtain ⟨hm, hu, hr, hfit, -⟩ := h user h1 huser hh1
        obtain ⟨method, hm⟩ := Option.isSome_iff_exists.mp hm
        obtain ⟨uri, hu⟩ := Option.isSome_iff_exists.mp hu
        obtain ⟨response, hr⟩ := Option.isSome_iff_exists.mp hr
        refine ⟨_, httpDigestAuth_present hmd5 huser hh1 hm hu hr
          hfit, fun hnone ↦ ?_⟩
        rw [hu, hr] at hnone
        simp at hnone

end Verifies

/-- All fields but the response. -/
def requestFields : HttpMap Bytes Bytes :=
  [ascii "username", ascii "method", ascii "uri", ascii "nonce", ascii "nc", ascii "cnonce",
    ascii "qop"].foldl (fun da name ↦ da.add name (ascii "u")) ∅

def userFields (response : Bytes) : HttpMap Bytes Bytes :=
  requestFields.add (ascii "response") response

def userStore : HttpMap Bytes Bytes := HttpMap.add ∅ (ascii "u") (ascii "h")

theorem userFields_nul {response : Bytes} (h0 : 0 ∉ response) (name value : Bytes)
    (h : (userFields response).get name = some value) : 0 ∉ value := by
  by_cases hname : name = ascii "response"
  · rw [hname, userFields, HttpMap.get_add_self] at h
    cases h
    exact h0
  · rw [userFields, HttpMap.get_add_of_ne _ _ hname] at h
    have hmem := AList.mem_lookup_iff.mp h
    have hall : ∀ e ∈ requestFields.entries, 0 ∉ e.2 := by decide +kernel
    exact hall _ hmem

theorem fields_userFields (response : Bytes) :
    fields (userFields response) = some ⟨ascii "u", ascii "u", ascii "u", ascii "u", ascii "u",
      ascii "u", ascii "u", response⟩ := rfl

theorem verifies_iff_zeros :
    Verifies ⟨fun _ ↦ List.replicate 32 '0'.toUInt8, [], userStore⟩ []
      (userFields (List.replicate 32 '0'.toUInt8)) := by
  refine (verifies_iff (userFields_nul (by decide))).mpr (fun user h1 huser hh1 ↦ ?_)
    (fun _ ↦ List.replicate 32 '0'.toUInt8) fun _ ↦ ⟨List.length_replicate, by decide +kernel⟩
  have hu : (userFields (List.replicate 32 '0'.toUInt8)).get (ascii "username") =
      some (ascii "u") := rfl
  obtain rfl := Option.some.inj (hu.symm.trans huser)
  have hh : userStore.get (ascii "u") = some (ascii "h") := rfl
  obtain rfl := Option.some.inj (hh.symm.trans hh1)
  refine ⟨rfl, rfl, rfl, by decide, fun f hf _ ↦ ?_⟩
  rw [fields_userFields] at hf
  obtain rfl := Option.some.inj hf
  exact ⟨List.length_replicate, by decide +kernel, by decide⟩

/-- A response with a byte behind its digest. -/
theorem not_verifies :
    ¬ ∀ md5 : Bytes → Bytes, (∀ s, IsDigest (md5 s)) →
      Verifies ⟨md5, [], userStore⟩ [] (userFields (List.replicate 33 '0'.toUInt8)) := by
  intro h
  let response : Bytes := List.replicate 33 '0'.toUInt8
  let f : Fields := ⟨ascii "u", ascii "u", ascii "u", ascii "u", ascii "u", ascii "u", ascii "u",
    response⟩
  have hnul (name value : Bytes) : (userFields response).get name = some value → 0 ∉ value :=
    userFields_nul (by decide) name value
  have hf : fields (userFields response) = some f := fields_userFields response
  have hh1 : userStore.get f.username = some (ascii "h") := rfl
  have hr : IsDigest (f.response.take 32) := by
    constructor
    · rfl
    · decide +kernel
  obtain ⟨hlen, -⟩ := uncut_of_verifies hnul h hf hh1 (by decide) hr
  exact absurd hlen (by decide)

end Socnet.Http.HttpAuth
