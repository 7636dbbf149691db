import Socnet.Http.Connection
import Socnet.Http.RequestHead
import Socnet.Http.KeyValue

namespace Socnet

/-- A view was cut past its end, whether by an exception or not. -/
def Fault.OutOfView (e : Fault) : Prop := e = .outOfRange ∨ e = .pastEnd

instance : DecidablePred Fault.OutOfView := fun _ ↦ inferInstanceAs (Decidable (_ ∨ _))

namespace Http

open Lib Sequence Net Utility.EncodeUtil

/-- A call that may raise, but not by cutting a view past its end. -/
def InView {α : Type} (x : Except Fault α) : Prop := ∀ e, x = .error e → ¬ e.OutOfView

section InView

variable {α β : Type}

theorem InView.ok (a : α) : InView (.ok a : Except Fault α) := by
  intro e h
  cases h

theorem InView.error {e : Fault} (h : ¬ e.OutOfView) : InView (.error e : Except Fault α) := by
  intro e' h'
  cases h'
  exact h

instance : DecidablePred (InView (α := α))
  | .ok a => .isTrue (.ok a)
  | .error e => decidable_of_iff (¬ e.OutOfView) ⟨InView.error, fun h ↦ h e rfl⟩

theorem InView.bind {x : Except Fault α} {f : α → Except Fault β} (hx : InView x)
    (hf : ∀ a, x = .ok a → InView (f a)) : InView (x >>= f) := by
  intro e h
  rcases bind_eq_error.mp h with h | ⟨a, ha, h⟩
  · exact hx e h
  · exact hf a ha e h

theorem removePrefix_inView {n : ℕ} {v : Bytes} (h : n ≤ v.length) :
    InView (removePrefix n v) := by
  rw [removePrefix_of_le h]
  exact .ok _

end InView

namespace HttpRequest

/-- A method name alone, or a version with less than two bytes behind it, is
what the prefix removals of the request line run past. -/
def LineSafe (line : Bytes) : Prop :=
  ∀ m : HttpMethod, line ≠ m.text ∧
    ∀ (c : UInt8) (target : Bytes) (v : HttpVersion) (rest : Bytes), SP ∉ target →
      line = m.text ++ c :: (target ++ SP :: (v.text ++ rest)) → 2 ≤ rest.length

/-- The complete lines before the first blank line. -/
def headerLines (text : Bytes) : List Bytes :=
  if CRLF <+: text then []
  else
    match _h : find CRLF text with
    | none => []
    | some pos => text.take pos :: headerLines (text.drop (pos + 2))
termination_by text.length
decreasing_by
  have hlen : pos + 2 ≤ text.length := find_length _h
  rw [List.length_drop]
  omega

/-- No line that is reached ends in its first colon. -/
def HeaderSafe (text : Bytes) : Prop :=
  ∀ line ∈ (headerLines text).takeWhile (':'.toUInt8 ∈ ·),
    find (ascii ":") line ≠ some (line.length - 1)

variable (r : HttpRequest)

def MultiPartSafe : Prop :=
  ∀ v ∈ r.header.get (ascii "Content-Type"), ascii "multipart/form-data" <+: v →
    21 ≤ v.length ∧ (ascii "boundary" <+: v.drop 21 → 30 ≤ v.length)

def AuthorizationSafe : Prop :=
  ∀ v ∈ r.header.get (ascii "Authorization"),
    (ascii "Basic" <+: v → 6 ≤ v.length) ∧ (ascii "Digest" <+: v → 7 ≤ v.length)

/-- A body that ends in a separator and blanks has a byte other than a blank
behind it. -/
def ContentSafe : Prop :=
  OpenEnded '&'.toUInt8 r.recver.peek → ∃ c ∈ r.recver.memory.head?, c ≠ SP

/-- The header announces a multipart body. -/
def announcesMultiPart : Prop :=
  ∃ v ∈ r.header.get (ascii "Content-Type"), ascii "multipart/form-data" <+: v

instance : DecidablePred HeaderSafe := fun _ ↦ inferInstanceAs (Decidable (∀ _ ∈ _, _))
instance : DecidablePred MultiPartSafe := fun _ ↦ inferInstanceAs (Decidable (∀ _ ∈ _, _))
instance : DecidablePred AuthorizationSafe := fun _ ↦ inferInstanceAs (Decidable (∀ _ ∈ _, _))
instance : DecidablePred ContentSafe := fun _ ↦ inferInstanceAs (Decidable (_ → _))
instance : DecidablePred announcesMultiPart := fun _ ↦ inferInstanceAs (Decidable (∃ _ ∈ _, _))

/-- What a turn needs in order to stay within its views, by the code it starts
from. -/
def SafeAt : RetCode → Prop
  | .noRequest => LineSafe r.recver.peek
  | .requestLineDone | .againHeader => HeaderSafe r.recver.peek
  | .requestHeaderDone =>
    r.header.entries = [] ∧ r.version ≠ some .http10 ∨
      r.MultiPartSafe ∧ r.AuthorizationSafe ∧
        (r.hasMultipart ∨ r.announcesMultiPart ∨ r.ContentSafe)
  | .againContent => r.hasMultipart ∨ r.ContentSafe
  | .badRequest | .requestContentDone => True

def TurnSafe : Prop := r.SafeAt r.retCode

section Line

/-- The condition on the request line in the words of the parser. -/
theorem lineSafe_iff (line : Bytes) : LineSafe line ↔
    ∀ p ∈ startMethod line, p.2 ≤ line.length ∧
      ∀ pos ∈ find [SP] (line.drop p.2),
        (startVersion ((line.drop p.2).drop (pos + 1))).isSome →
          10 ≤ ((line.drop p.2).drop (pos + 1)).length := by
  constructor
  · rintro hs ⟨m, i⟩ hm
    obtain ⟨⟨rest, rfl⟩, rfl⟩ := startMethod_eq_some hm
    obtain ⟨hne, hver⟩ := hs m
    cases rest with
    | nil => simp at hne
    | cons c rest =>
      have hdrop : (m.text ++ c :: rest).drop (m.text.length + 1) = rest := by
        simp [← List.drop_drop]
      refine ⟨by simp, ?_⟩
      rw [hdrop]
      intro pos hpos hv
      obtain ⟨v, hv⟩ := Option.isSome_iff_exists.mp hv
      obtain ⟨hsplit, hno⟩ := find_split (by simp) hpos
      rw [List.singleton_infix_iff] at hno
      obtain ⟨tail, htail⟩ := startVersion_eq_some hv
      have htwo : 2 ≤ tail.length := by
        apply hver c (rest.take pos) v tail hno
        rw [htail]
        simpa using hsplit
      rw [← htail, List.length_append, version_length]
      omega
  · intro hs m
    refine ⟨?_, ?_⟩
    · rintro rfl
      have := (hs (m, m.text.length + 1) (by simpa using startMethod_text m [])).1
      dsimp only at this
      omega
    · rintro c target v rest hno rfl
      have hdrop : (m.text ++ c :: (target ++ SP :: (v.text ++ rest))).drop (m.text.length + 1) =
          target ++ SP :: (v.text ++ rest) := by
        simp [← List.drop_drop]
      have hver : (target ++ SP :: (v.text ++ rest)).drop (target.length + 1) = v.text ++ rest := by
        simp [← List.drop_drop]
      have hlen := (hs _ (startMethod_text m _)).2 target.length
      rw [hdrop, hver, startVersion_text, List.length_append, version_length] at hlen
      have := hlen (find_singleton hno _) rfl
      omega

instance : DecidablePred LineSafe := fun line ↦ decidable_of_iff _ (lineSafe_iff line).symm

instance (r : HttpRequest) : DecidablePred r.SafeAt
  | .noRequest => inferInstanceAs (Decidable (LineSafe _))
  | .requestLineDone => inferInstanceAs (Decidable (HeaderSafe _))
  | .againHeader => inferInstanceAs (Decidable (HeaderSafe _))
  | .requestHeaderDone => inferInstanceAs (Decidable (_ ∧ _ ∨ _ ∧ _ ∧ _))
  | .againContent => inferInstanceAs (Decidable (_ ∨ _))
  | .badRequest => inferInstanceAs (Decidable True)
  | .requestContentDone => inferInstanceAs (Decidable True)

instance : DecidablePred TurnSafe := fun r ↦ inferInstanceAs (Decidable (r.SafeAt r.retCode))

theorem parseRequestLine_inView {r : HttpRequest} (hs : LineSafe r.recver.peek) :
    InView r.parseRequestLine := by
  rw [lineSafe_iff] at hs
  unfold parseRequestLine
  cases hm : startMethod r.recver.peek with
  | none => exact .ok _
  | some p =>
    obtain ⟨m, i⟩ := p
    obtain ⟨hi, hver⟩ := hs (m, i) hm
    dsimp only at hi hver ⊢
    rw [removePrefix_of_le hi]
    dsimp only [bind, Except.bind]
    cases hp : find [SP] (r.recver.peek.drop i) with
    | none => exact .ok _
    | some pos =>
      have hlen : pos + 1 ≤ (r.recver.peek.drop i).length := find_length hp
      have hver := hver pos hp
      dsimp only
      rw [removePrefix_of_le hlen]
      dsimp only
      cases hv : startVersion ((r.recver.peek.drop i).drop (pos + 1)) with
      | none => exact .ok _
      | some v =>
        have hten := hver (by rw [hv]; rfl)
        exact (removePrefix_inView hten).bind fun _ _ ↦ .ok _

end Line

section Header

theorem headerLines_cons {text : Bytes} {pos : ℕ} (hb : ¬ CRLF <+: text)
    (hp : find CRLF text = some pos) :
    headerLines text = text.take pos :: headerLines (text.drop (pos + 2)) := by
  rw [headerLines, if_neg hb]
  split
  · simp_all
  · simp_all

theorem reachedLines_cons {text : Bytes} {pos colon : ℕ} (hb : ¬ CRLF <+: text)
    (hp : find CRLF text = some pos) (hc : find (ascii ":") (text.take pos) = some colon) :
    (headerLines text).takeWhile (':'.toUInt8 ∈ ·) =
      text.take pos :: (headerLines (text.drop (pos + 2))).takeWhile (':'.toUInt8 ∈ ·) := by
  have hmem : ':'.toUInt8 ∈ text.take pos := mem_of_find hc
  rw [headerLines_cons hb hp, List.takeWhile_cons_of_pos (by simpa using hmem)]

theorem headerTurn_raise {text : Bytes} {e : Fault} (h : headerTurn text = .raise e) :
    ¬ HeaderSafe text := by
  unfold headerTurn at h
  split_ifs at h with hb
  cases hp : find CRLF text with
  | none => simp [hp] at h
  | some pos =>
    have hlen : pos + 2 ≤ text.length := find_length hp
    simp only [hp] at h
    cases hc : find (ascii ":") (text.take pos) with
    | none => simp [hc] at h
    | some colon =>
      have hcolon : colon + 1 ≤ (text.take pos).length := find_length hc
      simp only [hc] at h
      have hshort : (text.take pos).length < colon + 2 := by
        by_contra hle
        rw [substr_of_le (by omega)] at h
        cases h
      have hend : colon = (text.take pos).length - 1 := by omega
      intro hs
      refine hs (text.take pos) ?_ (hend ▸ hc)
      rw [reachedLines_cons hb hp hc]
      exact List.mem_cons_self

theorem headerTurn_line {text key value : Bytes} {len : ℕ}
    (h : headerTurn text = .line key value len) (hs : HeaderSafe text) :
    HeaderSafe (text.drop len) := by
  unfold headerTurn at h
  split_ifs at h with hb
  cases hp : find CRLF text with
  | none => simp [hp] at h
  | some pos =>
    simp only [hp] at h
    cases hc : find (ascii ":") (text.take pos) with
    | none => simp [hc] at h
    | some colon =>
      simp only [hc] at h
      split at h
      · cases h
      · cases h
        intro line hline
        apply hs line
        rw [reachedLines_cons hb hp hc]
        exact List.mem_cons_of_mem _ hline

theorem headerLoop_inView {header : Bytes} {r : HttpRequest} (hs : HeaderSafe header) :
    InView (headerLoop header r) := by
  fun_induction headerLoop header r with
  | case1 => exact .ok _
  | case2 => exact .ok _
  | case3 => exact .ok _
  | case4 header r e ht => exact absurd hs (headerTurn_raise ht)
  | case5 header r key value len ht ih => exact ih (headerTurn_line ht hs)

end Header

section Content

theorem cstrEq_inView (fold : UInt8 → UInt8) (memory s : Bytes) :
    InView (cstrEq fold memory s) := by
  induction s generalizing memory with
  | nil =>
    rw [cstrEq]
    exact .ok _
  | cons c s ih =>
    cases memory with
    | nil => exact .error (by decide)
    | cons a memory =>
      rw [cstrEq]
      split_ifs
      · exact .ok _
      · exact .ok _
      · exact ih memory

theorem contentLength_inView (boundary memory text : Bytes) :
    InView (HttpMultiPart.contentLength boundary memory text) := by
  induction text with
  | nil => exact .ok _
  | cons c text ih =>
    have hrest (delimiter : Bool) : InView (if delimiter then .ok (some 0) else do
        let n ← HttpMultiPart.contentLength boundary memory text
        .ok (n.map (· + 1))) := by
      split_ifs
      · exact .ok _
      · exact ih.bind fun _ _ ↦ .ok _
    rw [HttpMultiPart.contentLength]
    split_ifs
    · exact (cstrEq_inView _ _ _).bind fun b _ ↦ hrest b
    · exact hrest false

theorem step_inView (memory : Bytes) (c : HttpMultiPart.Cursor) :
    InView (HttpMultiPart.step memory c) := by
  have hhang : InView (.error .hang : Except Fault HttpMultiPart.Cursor) := .error (by decide)
  unfold HttpMultiPart.step
  dsimp only
  split
  · split_ifs
    · exact .ok _
    · exact hhang
  · refine (cstrEq_inView _ _ _).bind fun b _ ↦ ?_
    split_ifs
    · exact .ok _
    · exact .ok _
    · exact hhang
    · exact .ok _
    · exact hhang
  · refine (cstrEq_inView _ _ _).bind fun b _ ↦ ?_
    split_ifs
    · exact .ok _
    · exact hhang
  · split
    · exact .ok _
    · exact .ok _
  · split_ifs
    · exact .ok _
    · refine (cstrEq_inView _ _ _).bind fun b _ ↦ ?_
      split_ifs
      · exact .ok _
      · exact hhang
  · split
    · exact .ok _
    · exact .ok _
  · split_ifs
    · exact .ok _
    · exact hhang
  · refine (contentLength_inView _ _ _).bind fun n _ ↦ ?_
    split
    · exact .ok _
    · exact .ok _
  · exact .ok _
  · exact .ok _

theorem parseLoop_inView (memory : Bytes) (c : HttpMultiPart.Cursor) :
    InView (HttpMultiPart.parseLoop memory c) := by
  fun_induction HttpMultiPart.parseLoop memory c with
  | case1 => exact .ok _
  | case2 c hr e hstep =>
    intro e' h
    cases h
    exact step_inView memory c e hstep
  | case3 c hr c' hstep ih => exact ih

theorem parseRequestContent_inView {r : HttpRequest} (hs : r.hasMultipart ∨ r.ContentSafe) :
    InView r.parseRequestContent := by
  unfold parseRequestContent
  dsimp only
  split_ifs with hm
  · exact (parseLoop_inView _ _).bind fun _ _ ↦ .ok _
  · exact .ok _
  · have hcontent : r.ContentSafe := hs.resolve_left hm
    obtain ⟨form, hform, -⟩ :=
      parseKeyValue_ok '='.toUInt8 '&'.toUInt8 r.recver.peek r.form hcontent
    rw [hform]
    exact .ok _

end Content

section Handlers

theorem parseUrlQuery_ok (r : HttpRequest) : ∃ r', r.parseUrlQuery = .ok r' ∧
    r' = { r with queryS := r'.queryS, query := r'.query, url := r'.url } := by
  unfold parseUrlQuery
  cases hp : find (ascii "?") r.reqUrl with
  | none => exact ⟨_, rfl, rfl⟩
  | some pos =>
    have hlen : pos + 1 ≤ r.reqUrl.length := find_length hp
    obtain ⟨query, hq⟩ := parseKeyValue_terminator '='.toUInt8 '&'.toUInt8
      (r.reqUrl.drop (pos + 1)) r.query
    dsimp only
    rw [removePrefix_of_le hlen]
    simp only [bind, Except.bind, hq]
    exact ⟨_, rfl, rfl⟩

theorem parseCookie_ok (r : HttpRequest) : ∃ r', r.parseCookie = .ok r' ∧
    r' = { r with hasCookies := r'.hasCookies, cookies := r'.cookies } := by
  unfold parseCookie
  split
  · exact ⟨_, rfl, rfl⟩
  · rename_i value _
    obtain ⟨cookies, hc⟩ := parseKeyValue_terminator '='.toUInt8 ';'.toUInt8 value r.cookies
    rw [hc]
    exact ⟨_, rfl, rfl⟩

theorem parseMultiPartData_inView {r : HttpRequest} (hs : r.MultiPartSafe) :
    InView r.parseMultiPartData := by
  unfold parseMultiPartData
  cases hv : r.header.get (ascii "Content-Type") with
  | none => exact .ok _
  | some v =>
    dsimp only
    split_ifs with hm
    · obtain ⟨hlen, hb⟩ := hs v hv hm
      refine (removePrefix_inView hlen).bind fun w hw ↦ ?_
      rw [removePrefix_of_le hlen] at hw
      cases hw
      split_ifs with hbound
      · have := hb hbound
        refine (removePrefix_inView ?_).bind fun _ _ ↦ .ok _
        rw [List.length_drop]
        omega
      · exact .ok _
    · exact .ok _

theorem parseMultiPartData_frame {r r' : HttpRequest} (h : r.parseMultiPartData = .ok r') :
    r' = { r with hasMultipart := r'.hasMultipart, multipart := r'.multipart } ∧
      (r'.hasMultipart ↔ r.hasMultipart ∨ r.announcesMultiPart) := by
  unfold parseMultiPartData at h
  unfold announcesMultiPart
  cases hv : r.header.get (ascii "Content-Type") with
  | none =>
    rw [hv] at h
    cases h
    exact ⟨rfl, by simp⟩
  | some v =>
    simp only [hv] at h
    split_ifs at h with hm
    · obtain ⟨w, -, h⟩ := bind_eq_ok.mp h
      split_ifs at h
      · obtain ⟨w, -, h⟩ := bind_eq_ok.mp h
        cases h
        exact ⟨rfl, by simp [hm]⟩
      · cases h
        exact ⟨rfl, by simp [hm]⟩
    · cases h
      exact ⟨rfl, by simp [hm]⟩

theorem scanName_inView (name text : Bytes) : InView (scanName name text) := by
  induction text generalizing name with
  | nil => exact .ok _
  | cons c text ih =>
    rw [scanName]
    split_ifs
    · exact .ok _
    · exact ih _
    · exact .error (by decide)

theorem scanValue_inView (k : ℕ) (value text : Bytes) : InView (scanValue k value text) := by
  induction text generalizing value with
  | nil => exact .ok _
  | cons c text ih =>
    rw [scanValue]
    split_ifs
    · exact .ok _
    · exact .ok _
    · exact ih _
    · exact .error (by decide)

theorem digestFields_inView (auth : Bytes) (da : HttpMap Bytes Bytes) :
    InView (digestFields auth da) := by
  fun_induction digestFields auth da with
  | case1 auth da e hn =>
    intro e' h
    cases h
    exact scanName_inView _ _ e hn
  | case2 => exact .ok _
  | case3 => exact .ok _
  | case4 auth da name rest hn hr e hv =>
    intro e' h
    cases h
    exact scanValue_inView _ _ _ e hv
  | case5 => exact .ok _
  | case6 auth da name rest hn hr value rest' hv hr' hcomma ih => exact ih
  | case7 => exact .error (by decide)

theorem strcat_inView (buffer s : Bytes) : InView (HttpAuth.strcat buffer s) := by
  unfold HttpAuth.strcat
  split_ifs
  · exact .ok _
  · exact .error (by decide)

theorem strcatField_inView (buffer : Bytes) (x : Option Bytes) :
    InView (HttpAuth.strcatField buffer x) := by
  cases x with
  | none => exact .ok _
  | some s => exact (strcat_inView _ _).bind fun _ _ ↦ strcat_inView _ _

theorem value_inView (x : Option Bytes) : InView (HttpAuth.value x) := by
  cases x with
  | none => exact .error (by decide)
  | some s => exact .ok _

theorem httpDigestAuth_inView (store : HttpPassStore) (info : Bytes) (da : HttpMap Bytes Bytes) :
    InView (HttpAuth.httpDigestAuth store info da) := by
  unfold HttpAuth.httpDigestAuth
  split
  · exact .ok _
  · refine (value_inView _).bind fun _ _ ↦ ?_
    refine (value_inView _).bind fun _ _ ↦ ?_
    refine (strcat_inView _ _).bind fun _ _ ↦ ?_
    refine (strcatField_inView _ _).bind fun _ _ ↦ ?_
    refine (strcatField_inView _ _).bind fun _ _ ↦ ?_
    refine (strcatField_inView _ _).bind fun _ _ ↦ ?_
    refine (strcatField_inView _ _).bind fun _ _ ↦ ?_
    refine (strcatField_inView _ _).bind fun _ _ ↦ ?_
    exact (value_inView _).bind fun _ _ ↦ .ok _

theorem base64Decode_inView (data : Bytes) : InView (base64Decode data) := by
  unfold base64Decode
  dsimp only
  split_ifs
  · exact .ok _
  · exact .error (by decide)

variable (store : HttpPassStore)

theorem parseAuthorization_inView {r : HttpRequest} (hs : r.AuthorizationSafe) :
    InView (r.parseAuthorization store) := by
  unfold parseAuthorization
  cases hv : r.header.get (ascii "Authorization") with
  | none => exact .ok _
  | some v =>
    obtain ⟨hbasic, hdigest⟩ := hs v hv
    dsimp only
    split_ifs with hb hd
    · refine (removePrefix_inView (hbasic hb)).bind fun _ _ ↦ ?_
      exact (base64Decode_inView _).bind fun _ _ ↦ .ok _
    · refine (removePrefix_inView (hdigest hd)).bind fun _ _ ↦ ?_
      refine (digestFields_inView _ _).bind fun _ _ ↦ ?_
      exact (httpDigestAuth_inView _ _ _).bind fun _ _ ↦ .ok _
    · exact .ok _

theorem parseAuthorization_frame {r r' : HttpRequest} (h : r.parseAuthorization store = .ok r') :
    r' = { r with auth := r'.auth, da := r'.da } := by
  unfold parseAuthorization at h
  cases hv : r.header.get (ascii "Authorization") with
  | none =>
    rw [hv] at h
    cases h
    rfl
  | some v =>
    simp only [hv] at h
    split_ifs at h
    · obtain ⟨_, -, h⟩ := bind_eq_ok.mp h
      obtain ⟨_, -, h⟩ := bind_eq_ok.mp h
      cases h
      rfl
    · obtain ⟨_, -, h⟩ := bind_eq_ok.mp h
      obtain ⟨_, -, h⟩ := bind_eq_ok.mp h
      obtain ⟨_, -, h⟩ := bind_eq_ok.mp h
      cases h
      rfl
    · cases h
      rfl

end Handlers

section Turns

variable (store : HttpPassStore)

theorem handlers_inView {r : HttpRequest} (hm : r.MultiPartSafe) (ha : r.AuthorizationSafe)
    (hc : r.hasMultipart ∨ r.announcesMultiPart ∨ r.ContentSafe) :
    InView (do
      let r ← r.parseCookie
      let r ← r.parseMultiPartData
      let r ← r.parseAuthorization store
      r.parseRequestContent) := by
  obtain ⟨r₁, h₁, hf₁⟩ := r.parseCookie_ok
  rw [h₁]
  have hm₁ : r₁.MultiPartSafe := by
    rw [hf₁]
    exact hm
  refine (parseMultiPartData_inView hm₁).bind fun r₂ h₂ ↦ ?_
  obtain ⟨hf₂, hflag⟩ := parseMultiPartData_frame h₂
  have ha₂ : r₂.AuthorizationSafe := by
    rw [hf₂, hf₁]
    exact ha
  refine (parseAuthorization_inView store ha₂).bind fun r₃ h₃ ↦ ?_
  have hf₃ := parseAuthorization_frame store h₃
  apply parseRequestContent_inView
  have hmulti : r₃.hasMultipart = r₂.hasMultipart := by rw [hf₃]
  have hcontent : r₃.ContentSafe ↔ r.ContentSafe := by rw [hf₃, hf₂, hf₁]; rfl
  have hann : r₁.announcesMultiPart ↔ r.announcesMultiPart := by rw [hf₁]; rfl
  have hmulti₁ : r₁.hasMultipart = r.hasMultipart := by rw [hf₁]
  rw [hmulti, hcontent, hflag, hann, hmulti₁]
  rcases hc with h | h | h
  · exact .inl (.inl h)
  · exact .inl (.inr h)
  · exact .inr h

theorem turn_inView {r : HttpRequest} (hs : r.TurnSafe) : InView (r.turn store) := by
  unfold turn
  unfold TurnSafe at hs
  cases hc : r.retCode with
  | noRequest =>
    rw [hc] at hs
    exact (parseRequestLine_inView hs).bind fun _ _ ↦ .ok _
  | requestLineDone | againHeader =>
    rw [hc] at hs
    exact (headerLoop_inView hs).bind fun _ _ ↦ .ok _
  | requestHeaderDone =>
    rw [hc] at hs
    obtain ⟨r₁, h₁, hf₁⟩ := r.parseUrlQuery_ok
    dsimp only
    rw [h₁]
    change InView (if r₁.header.entries = [] ∧ r₁.version ≠ some .http10 then _ else _)
    split_ifs with he
    · exact .ok _
    · have he' : ¬ (r.header.entries = [] ∧ r.version ≠ some .http10) := by
        rw [hf₁] at he
        exact he
      obtain ⟨hm, ha, hcontent⟩ := hs.resolve_left he'
      have hm₁ : r₁.connectionFlags.MultiPartSafe := by
        rw [hf₁]
        exact hm
      have ha₁ : r₁.connectionFlags.AuthorizationSafe := by
        rw [hf₁]
        exact ha
      have hc₁ : r₁.connectionFlags.hasMultipart ∨ r₁.connectionFlags.announcesMultiPart ∨
          r₁.connectionFlags.ContentSafe := by
        rw [hf₁]
        exact hcontent
      have hall := (handlers_inView store hm₁ ha₁ hc₁).bind
        fun (r₂ : HttpRequest) _ ↦ InView.ok
          (r₂, if r₂.retCode = .againContent then some RetCode.againContent else none)
      simpa only [bind_assoc] using hall
  | againContent =>
    rw [hc] at hs
    exact (parseRequestContent_inView hs).bind fun _ _ ↦ .ok _
  | badRequest => exact .ok _
  | requestContentDone => exact .ok _

/-- The states in which the turns of one call of `parseRequest` begin. -/
def turns (store : HttpPassStore) (r : HttpRequest) : List HttpRequest :=
  match _h : r.turn store with
  | .ok (r', none) => r :: turns store r'
  | _ => [r]
termination_by rank r.retCode
decreasing_by exact turn_rank _h

theorem parseRequest_inView {r : HttpRequest} (hs : ∀ r' ∈ r.turns store, r'.TurnSafe) :
    InView (r.parseRequest store) := by
  fun_induction parseRequest store r with
  | case1 r e ht =>
    have hr : r.TurnSafe := hs r (by rw [turns]; split <;> simp)
    intro e' h
    cases h
    exact turn_inView store hr e ht
  | case2 r r' code ht => exact .ok _
  | case3 r r' ht ih =>
    refine ih fun r'' hr'' ↦ hs r'' ?_
    rw [turns]
    split
    · rename_i r₁ h₁
      rw [ht] at h₁
      cases h₁
      exact List.mem_cons_of_mem _ hr''
    · rename_i hno
      exact absurd ht (hno r')

end Turns

end HttpRequest

namespace Connection

variable (store : HttpPassStore)

/-- The states in which the parser's turns begin over a sequence of read events. -/
def turns (c : Connection) : List (List Bytes) → List HttpRequest
  | [] => []
  | reads :: events =>
    if c.disconnected then []
    else
      (if (c.readAgain reads).recver.readable = 0 then []
        else (c.readAgain reads).request.turns store) ++
      match c.onRead store reads with
      | .error _ => []
      | .ok (c', _) => turns c' events

theorem onMessage_inView {c : Connection} (hs : ∀ r ∈ c.request.turns store, r.TurnSafe) :
    InView (c.onMessage store) := by
  refine (HttpRequest.parseRequest_inView store hs).bind fun x _ ↦ ?_
  obtain ⟨code, r⟩ := x
  dsimp only
  split_ifs
  · exact .ok _
  · exact .ok _

theorem onRead_inView {c : Connection} {reads : List Bytes}
    (hs : (c.readAgain reads).recver.readable ≠ 0 →
      ∀ r ∈ (c.readAgain reads).request.turns store, r.TurnSafe) :
    InView (c.onRead store reads) := by
  unfold onRead
  dsimp only
  split_ifs with h
  · exact .ok _
  · exact (onMessage_inView store (hs h)).bind fun _ _ ↦ .ok _

/-- Over every sequence of reads, the parser cuts no view past its end as long
as every turn begins in a safe state. -/
theorem run_inView (c : Connection) (events : List (List Bytes))
    (hs : ∀ r ∈ c.turns store events, r.TurnSafe) : InView (c.run store events) := by
  induction events generalizing c with
  | nil => exact .ok _
  | cons reads events ih =>
    rw [run]
    split_ifs with hd
    · exact .ok _
    · rw [turns, if_neg hd] at hs
      refine InView.bind (onRead_inView store fun hr r hmem ↦ hs r ?_) fun x hx ↦ ?_
      · rw [if_neg hr]
        exact List.mem_append_left _ hmem
      · obtain ⟨c', answered⟩ := x
        refine (ih c' fun r hmem ↦ hs r ?_).bind fun _ _ ↦ .ok _
        rw [hx]
        exact List.mem_append_right _ hmem

theorem run_inView_post : InView (accepted.run ⟨id, [], ∅⟩
    [[ascii "POST / HTTP/1.1\r\nHost"], [ascii ": a\r\n", ascii "\r\na=1&b=2"]]) :=
  run_inView _ _ _ (by decide +kernel)

/-- An empty header value without the blank in front of it. -/
theorem run_outOfRange : ¬ InView (accepted.run ⟨id, [], ∅⟩
    [[ascii "GET / HTTP/1.1\r\nHost:\r\n\r\n"]]) := by decide +kernel

end Connection

end Http

end Socnet
