import Socnet.Libjson.FileInput
import Socnet.Libjson.RawText

namespace Socnet.Libjson

open JsonLexer JsonParser JsonFormatter Utility.EncodeUtil

variable {F : Type}

/-- What a file keeps of a string: the formatter writes the other white space as escapes. -/
def squeezed (s : Bytes) : Bytes := s.filter fun c ↦ c ≠ SP ∧ c ≠ 11

theorem extracted_unescapeCharacter : ∀ c, extracted (unescapeCharacter c) =
    if c ≠ SP ∧ c ≠ 11 then unescapeCharacter c else [] := forall_byte (by decide +kernel)

theorem extracted_unescapeString (s : Bytes) :
    extracted (unescapeString s) = unescapeString (squeezed s) := by
  induction s with
  | nil => rfl
  | cons c s ih =>
    rw [unescapeString, List.flatMap_cons, extracted_append, extracted_unescapeCharacter]
    rw [unescapeString] at ih
    rw [ih]
    by_cases hc : c ≠ SP ∧ c ≠ 11
    · have hkeep : squeezed (c :: s) = c :: squeezed s := List.filter_cons_of_pos (by simpa using hc)
      rw [if_pos hc, hkeep]
      rfl
    · have hdrop : squeezed (c :: s) = squeezed s := List.filter_cons_of_neg (by simpa using hc)
      rw [if_neg hc, hdrop]
      rfl

theorem extracted_white {w : Bytes} (hw : ∀ c ∈ w, isWhite c = true) : extracted w = [] := by
  have hall : ∀ c, isWhite c = true → isSkipped c = true := forall_byte (by decide +kernel)
  exact List.filter_eq_nil_iff.mpr fun c hc ↦ by simp [hall c (hw c hc)]

theorem extracted_intText (n : ℤ) : extracted (intText n) = intText n := by
  have hnat (m : ℕ) : ∀ c ∈ natText m, isSkipped c = false :=
    fun c hc ↦ isSkipped_eq_false rfl (isNumber_of_mem_natText hc)
  rw [intText]
  split_ifs
  · rw [extracted_append, extracted_eq_self (hnat _)]
    rfl
  · exact extracted_eq_self (hnat _)

section Text

variable (L : Layout) (spell : Bytes → Bytes)

theorem extracted_newline (d : ℕ) : extracted (L.newline d) = [] := extracted_white (L.newline_white d)

mutual

/-- A file keeps of a text what it keeps of the strings. -/
theorem Json.extracted_text (v : Json F) (d : ℕ) :
    extracted (v.text L spell d) = v.text compact (fun s ↦ extracted (spell s)) d := by
  cases v with
  | object members =>
    rw [Json.text, Json.text, extracted_append, extracted_append]
    cases members.empty with
    | true => rfl
    | false =>
      rw [if_neg (by simp), if_neg (by simp), extracted_append, extracted_append,
        extracted_newline, extracted_newline, Members.extracted_text members]
      rfl
  | array elements =>
    rw [Json.text, Json.text, extracted_append, extracted_append]
    cases elements.empty with
    | true => rfl
    | false =>
      rw [if_neg (by simp), if_neg (by simp), extracted_append, extracted_append,
        extracted_newline, extracted_newline, Elements.extracted_text elements]
      rfl
  | string s => exact extracted_quoted (spell s.value)
  | number n => exact extracted_intText n
  | float x => rfl
  | boolean b =>
    cases b with
    | true => rfl
    | false => rfl
  | null => rfl
  | nullptr => rfl

theorem Members.extracted_text (m : Members F) (d : ℕ) :
    extracted (m.text L spell d) = m.text compact (fun s ↦ extracted (spell s)) d := by
  cases m with
  | nil => rfl
  | cons key value members =>
    rw [Members.text, Members.text, extracted_append, extracted_append, extracted_append,
      extracted_quoted, extracted_append, extracted_white L.gap_white,
      Json.extracted_text value]
    cases members.empty with
    | true => rfl
    | false =>
      rw [if_neg (by simp), if_neg (by simp), extracted_append, extracted_append,
        extracted_newline, Members.extracted_text members]
      rfl

theorem Elements.extracted_text (e : Elements F) (d : ℕ) :
    extracted (e.text L spell d) = e.text compact (fun s ↦ extracted (spell s)) d := by
  cases e with
  | nil => rfl
  | cons value elements =>
    rw [Elements.text, Elements.text, extracted_append, Json.extracted_text value]
    cases elements.empty with
    | true => rfl
    | false =>
      rw [if_neg (by simp), if_neg (by simp), extracted_append, extracted_append,
        extracted_newline, Elements.extracted_text elements]
      rfl

end

variable (g : Bytes → Bytes)

mutual

theorem Json.text_mapStrings (v : Json F) (d : ℕ) :
    (v.mapStrings g).text L spell d = v.text L (fun s ↦ spell (g s)) d := by
  cases v with
  | object members =>
    rw [Json.mapStrings, Json.text, Json.text, Members.empty_mapStrings,
      Members.text_mapStrings members]
  | array elements =>
    rw [Json.mapStrings, Json.text, Json.text, Elements.empty_mapStrings,
      Elements.text_mapStrings elements]
  | string s => rfl
  | number n => rfl
  | float x => rfl
  | boolean b => rfl
  | null => rfl
  | nullptr => rfl

theorem Members.text_mapStrings (m : Members F) (d : ℕ) :
    (m.mapStrings g).text L spell d = m.text L (fun s ↦ spell (g s)) d := by
  cases m with
  | nil => rfl
  | cons key value members =>
    rw [Members.mapStrings, Members.text, Members.text, Members.empty_mapStrings,
      Json.text_mapStrings value, Members.text_mapStrings members]

theorem Elements.text_mapStrings (e : Elements F) (d : ℕ) :
    (e.mapStrings g).text L spell d = e.text L (fun s ↦ spell (g s)) d := by
  cases e with
  | nil => rfl
  | cons value elements =>
    rw [Elements.mapStrings, Elements.text, Elements.text, Elements.empty_mapStrings,
      Json.text_mapStrings value, Elements.text_mapStrings elements]

end

mutual

theorem Json.plain_mapStrings (v : Json F) (hv : v.Plain) : (v.mapStrings g).Plain := by
  cases v with
  | object members =>
    have hm := Members.plain_mapStrings members (by simpa [Json.Plain] using hv)
    simpa [Json.mapStrings, Json.Plain] using hm
  | array elements =>
    have he := Elements.plain_mapStrings elements (by simpa [Json.Plain] using hv)
    simpa [Json.mapStrings, Json.Plain] using he
  | string s => exact hv
  | number n => exact hv
  | float x => exact hv
  | boolean b => trivial
  | null => trivial
  | nullptr => exact hv

theorem Members.plain_mapStrings (m : Members F) (hm : m.Plain) : (m.mapStrings g).Plain := by
  cases m with
  | nil => trivial
  | cons key value members =>
    exact ⟨hm.1, Json.plain_mapStrings value hm.2.1, Members.plain_mapStrings members hm.2.2⟩

theorem Elements.plain_mapStrings (e : Elements F) (he : e.Plain) : (e.mapStrings g).Plain := by
  cases e with
  | nil => trivial
  | cons value elements =>
    exact ⟨Json.plain_mapStrings value he.1, Elements.plain_mapStrings elements he.2⟩

end

mutual

theorem Json.Plain.noNull (v : Json F) (hv : v.Plain) : v.NoNull := by
  cases v with
  | object members =>
    have hm := Members.Plain.noNull members (by simpa [Json.Plain] using hv)
    simpa [Json.NoNull] using hm
  | array elements =>
    have he := Elements.Plain.noNull elements (by simpa [Json.Plain] using hv)
    simpa [Json.NoNull] using he
  | float x => exact hv.elim
  | nullptr => exact hv.elim
  | _ => trivial

theorem Members.Plain.noNull (m : Members F) (hm : m.Plain) : m.NoNull := by
  cases m with
  | nil => trivial
  | cons key value members =>
    exact ⟨Json.Plain.noNull value hm.2.1, Members.Plain.noNull members hm.2.2⟩

theorem Elements.Plain.noNull (e : Elements F) (he : e.Plain) : e.NoNull := by
  cases e with
  | nil => trivial
  | cons value elements =>
    exact ⟨Json.Plain.noNull value he.1, Elements.Plain.noNull elements he.2⟩

end

end Text

/-- A tree that a file holds in any layout is read without the spaces and the vertical tabs
of its strings. -/
theorem parseFile_text (toDouble : Bytes → F) (L : Layout) {root : Json F} (hr : Root root)
    (hp : root.Plain) (d : ℕ) (hlen : (root.text L unescapeString d).length < 2 ^ 31) :
    parseFile toDouble true (root.text L unescapeString d) = .ok (root.mapStrings squeezed) := by
  have hkept : extracted (root.text L unescapeString d) =
      (root.mapStrings squeezed).text compact unescapeString d := by
    rw [Json.extracted_text, Json.text_mapStrings]
    congr 1
    exact funext extracted_unescapeString
  have hkeptlen : ((root.mapStrings squeezed).text compact unescapeString d).length < 2 ^ 31 := by
    rw [← hkept]
    exact List.filter_sublist.length_le.trans_lt hlen
  have hparse : parse toDouble true ((root.mapStrings squeezed).text compact unescapeString d) =
      .ok (root.mapStrings squeezed) :=
    parse_text compact (Json.plain_mapStrings squeezed root hp) (fun s _ ↦ spells_unescapeString s) d
      hkeptlen
  have hne : extracted (root.text L unescapeString d) ≠ [] := by
    rw [hkept]
    cases root with
    | object members => simp [Json.mapStrings, Json.text, ascii]
    | array elements => simp [Json.mapStrings, Json.text, ascii]
    | string s => exact hr.elim
    | number n => exact hr.elim
    | float x => exact hr.elim
    | boolean b => exact hr.elim
    | null => exact hr.elim
    | nullptr => exact hr.elim
  rw [parseFile, readFile]
  rw [if_neg (by simpa using hne), hkept]
  exact hparse

end Socnet.Libjson
