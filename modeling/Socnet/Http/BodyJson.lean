import Socnet.Http.HttpResponse
import Socnet.Libjson.RawText

namespace Socnet.Http.HttpResponseBuilder

open Net Libjson JsonParser JsonFormatter

variable {F : Type} {toDouble : Bytes → F} {showDouble : F → Bytes}

/-- The text of the object `root`. -/
def jsonBody (showDouble : F → Bytes) (root : Members F) (format : Bool) : Except Fault Bytes :=
  if format then Libjson.format showDouble 4 true (.object root)
  else (Json.object root).toString showDouble

def setBodyJson (showDouble : F → Bytes) (b : HttpResponseBuilder) (root : Members F)
    (format : Bool) : Except Fault HttpResponseBuilder := do
  let text ← jsonBody showDouble root format
  let b := b.setBody text
  .ok { b with
    header := b.header.add (ascii "Content-Type") (ascii "application/json; charset=utf-8") }

/-- The text that `setBodyJson` gives, with unbounded counters. -/
def jsonText (root : Members F) (format : Bool) : Bytes :=
  (Json.object root).text (if format then indented 4 else compact) id 1

theorem formatsStrings_id : FormatsStrings true id := by
  intro s hs
  simp [JsonString.toStringEscape, hs, bind, Except.bind, quoted]

theorem jsonBody_text {root : Members F} (hp : root.Plain) (format : Bool) :
    Formats (jsonBody showDouble root format) (jsonText root format) := by
  have hp : (Json.object root).Plain := by simpa [Json.Plain] using hp
  cases format with
  | true =>
    rw [jsonBody, if_pos rfl, Libjson.format, if_neg (by decide)]
    exact Json.format_text 4 formatsStrings_id _ hp 1 false (.inr ⟨rfl, rfl⟩)
  | false =>
    rw [jsonBody, if_neg (by decide), Json.toString_text _ hp 1]
    exact .of_eq rfl

/-- `setBodyJson` sets the body to the text of its object. -/
theorem peek_setBodyJson (b : HttpResponseBuilder) {root : Members F} {format : Bool} {text : Bytes}
    (h : jsonBody showDouble root format = .ok text) :
    ∃ b', b.setBodyJson showDouble root format = .ok b' ∧ b'.tmpBuffer.peek = text := by
  refine ⟨_, by rw [setBodyJson, h]; rfl, ?_⟩
  simp [setBody, Buffer.reset]

theorem setBodyJson_eq_ok {b b' : HttpResponseBuilder} {root : Members F} {format : Bool}
    (h : b.setBodyJson showDouble root format = .ok b') :
    jsonBody showDouble root format = .ok b'.tmpBuffer.peek := by
  obtain ⟨text, htext, -⟩ := bind_eq_ok.mp h
  obtain ⟨b₁, hb₁, hpeek⟩ : ∃ b', b.setBodyJson showDouble root format = .ok b' ∧ _ :=
    b.peek_setBodyJson htext
  obtain rfl := Except.ok.inj (h.symm.trans hb₁)
  rw [hpeek, htext]

/-- The body of a JSON response is parsed back as its object if and only if no key
and no string of it holds a quote or a backslash and the text is not too long for the `int`
that holds its length. -/
theorem parse_setBodyJson_iff (toDouble : Bytes → F) (showDouble : F → Bytes)
    (b : HttpResponseBuilder) {root : Members F} (hp : root.Plain) (format : Bool) :
    (∃ b', b.setBodyJson showDouble root format = .ok b' ∧
      parse toDouble true b'.tmpBuffer.peek = .ok (.object root)) ↔
      (∀ s ∈ root.strings, Clean s) ∧ (jsonText root format).length < 2 ^ 31 := by
  have hr : Root (Json.object root) := trivial
  have hp' : (Json.object root).Plain := by simpa [Json.Plain] using hp
  have htext : Formats (jsonBody showDouble root format) _ := jsonBody_text hp format
  constructor
  · rintro ⟨b', hb', h⟩
    rw [htext.eq_of_ok _ (setBodyJson_eq_ok hb')] at h
    have hs := clean_of_parse_text _ hr hp' 1 h
    exact ⟨hs, length_of_parse_text _ hp' (spells_of_forall_clean hs) 1 h⟩
  · rintro ⟨hs, hlen⟩
    obtain ⟨b', hb', hpeek⟩ := b.peek_setBodyJson (htext.eq_ok hlen)
    refine ⟨b', hb', ?_⟩
    rw [hpeek]
    exact parse_text _ hp' (spells_of_forall_clean hs) 1 hlen

/-- A response with an empty body. -/
def emptyBody : HttpResponseBuilder where
  version := .http11
  method := .get
  header := Lib.Multimap.empty
  code := 200
  keepalive := true
  compressed := false
  respFile := false
  fileName := []
  tmpBuffer := .init 4
  tmp_nil := nofun

/-- An object with one string. -/
def singleton (key value : String) : Members ℕ :=
  .cons ⟨ascii key, true⟩ (.string ⟨ascii value, true⟩) .nil

theorem parse_setBodyJson_iff_single :
    (∃ b', emptyBody.setBodyJson (fun _ ↦ []) (singleton "a" "b") true = .ok b' ∧
      parse (fun _ ↦ 0) true b'.tmpBuffer.peek = .ok (.object (singleton "a" "b"))) ↔
      (∀ s ∈ (singleton "a" "b").strings, Clean s) ∧
        (jsonText (singleton "a" "b") true).length < 2 ^ 31 := by
  have hp : (singleton "a" "b").Plain := ⟨rfl, rfl, trivial⟩
  exact parse_setBodyJson_iff _ _ emptyBody hp true

/-- A quote in a header value is sent as it is. -/
theorem not_parse_setBodyJson :
    ¬ ∀ (b : HttpResponseBuilder) (root : Members ℕ) (format : Bool), root.Plain →
      ∃ b', b.setBodyJson (fun _ ↦ []) root format = .ok b' ∧
        parse (fun _ ↦ 0) true b'.tmpBuffer.peek = .ok (.object root) := by
  intro h
  have hp : (singleton "a" "\"").Plain := ⟨rfl, rfl, trivial⟩
  obtain ⟨b', hb', hparse⟩ := h emptyBody (singleton "a" "\"") true hp
  rw [(jsonBody_text hp true).eq_of_ok _ (setBodyJson_eq_ok hb')] at hparse
  have hr : Root (Json.object (singleton "a" "\"")) := trivial
  have hclean := clean_of_parse_text _ hr (by simpa [Json.Plain] using hp) 1 hparse
  exact (hclean (ascii "\"") (by decide)).1 (by decide)

end Socnet.Http.HttpResponseBuilder
