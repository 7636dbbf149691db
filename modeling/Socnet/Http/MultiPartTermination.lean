import Socnet.Http.MultiPartRoundTrip
import Socnet.Lib.Loop

namespace Socnet.Http.HttpMultiPart

open Lib Sequence Utility.EncodeUtil

section Grammar

/- `b` is the boundary and `memory` what follows the body in the receive buffer. -/
variable (b memory : Bytes)

/-- `strncmp` or `strncasecmp` finds `s` at the front of what is left of the body. -/
def Matches (fold : UInt8 → UInt8) (t s : Bytes) : Prop := cstrEq fold (t ++ memory) s = .ok true

/-- What follows the current line, if anything does. -/
def behindLine (t : Bytes) : Bytes :=
  match find CRLF t with
  | some pos => t.drop (pos + 2)
  | none => []

/-- What ends a boundary. -/
def BoundaryEnd (t : Bytes) : Prop := t = [] ∨ CRLF <+: t ∨ ascii "--" <+: t

instance decidableBoundaryEnd : DecidablePred BoundaryEnd :=
  fun t ↦ inferInstanceAs (Decidable (t = [] ∨ CRLF <+: t ∨ ascii "--" <+: t))

/-- The boundary, which may stand several times in a row. -/
inductive Delimiter : Bytes → Bytes → Prop
  | ended : Delimiter [] []
  | last {t : Bytes} : Matches memory id t b → BoundaryEnd (t.drop b.length) →
      Delimiter t (t.drop b.length)
  | again {t rest : Bytes} : Matches memory id t b → ¬ BoundaryEnd (t.drop b.length) →
      Delimiter (t.drop b.length) rest → Delimiter t rest

/-- A blank line in front of the content. -/
inductive Blank : Bytes → Bytes → Prop
  | ended : Blank [] []
  | line {content : Bytes} : Blank (CRLF ++ content) content

/-- The rest of a part's head behind its `Content-Disposition` line. -/
inductive HeadEnd : Bytes → Bytes → Prop
  | blank {t content : Bytes} : Blank t content → HeadEnd t content
  | type {t content : Bytes} : ¬ CRLF <+: t → Matches memory toLower t (ascii "Content-Type") →
      Blank (behindLine (t.drop 14)) content → HeadEnd t content

inductive PartHead : Bytes → Bytes → Prop
  | ended : PartHead [] []
  | disposition {t content : Bytes} : Matches memory toLower t (ascii "Content-Disposition") →
      HeadEnd memory (behindLine (t.drop 32)) content → PartHead t content

/-- Whether a delimiter stands at the front of what is left of a content. -/
def delimiter (t : Bytes) : Except Fault Bool :=
  if 4 < t.length ∧ CRLF ++ ascii "--" <+: t then cstrEq id (t.drop 4 ++ memory) b else .ok false

inductive Content : Bytes → Bytes → Prop
  | ended : Content [] []
  | found {t : Bytes} : t ≠ [] → delimiter b memory t = .ok true → Content t (t.drop 2)
  | next {c : UInt8} {t rest : Bytes} : delimiter b memory (c :: t) = .ok false →
      Content t rest → Content (c :: t) rest

/-- The bodies that are parts and a closing boundary as far as they go: they may end
in the middle of a part, but do not stray from the form before. -/
inductive FormText : Bytes → Prop
  | ended : FormText []
  | close {t rest : Bytes} : Delimiter b memory t rest → rest = [] ∨ ascii "--" <+: rest →
      FormText (ascii "--" ++ t)
  | part {t head content next : Bytes} : Delimiter b memory t (CRLF ++ head) →
      PartHead memory head content → Content b memory content next → FormText next →
      FormText (ascii "--" ++ t)

/-- What must follow for the parser to get through the body from a state on. -/
def ContentText (t : Bytes) : Prop := ∃ next, Content b memory t next ∧ FormText b memory next

def BoundaryText (t : Bytes) : Prop :=
  t = [] ∨ ascii "--" <+: t ∨
    ∃ head content, t = CRLF ++ head ∧ PartHead memory head content ∧ ContentText b memory content

def Through (t : Bytes) : State → Prop
  | .startBody => FormText b memory t
  | .startBoundary => ∃ rest, Delimiter b memory t rest ∧ BoundaryText b memory rest
  | .endBoundary => ∃ content, PartHead memory t content ∧ ContentText b memory content
  | .startContentDisposition =>
    ∃ content, HeadEnd memory (behindLine (t.drop 13)) content ∧ ContentText b memory content
  | .endContentDisposition => ∃ content, HeadEnd memory t content ∧ ContentText b memory content
  | .startContentType => ∃ content, Blank (behindLine t) content ∧ ContentText b memory content
  | .endContentType => ∃ content, Blank t content ∧ ContentText b memory content
  | .startContentData => ContentText b memory t
  | .endContentData => FormText b memory t
  | .endBody => True

end Grammar

variable {b memory : Bytes}

theorem contentText_nil : ContentText b memory [] := ⟨[], .ended, .ended⟩

theorem through_nil (s : State) : Through b memory [] s := by
  have hc : ContentText b memory [] := contentText_nil
  cases s with
  | startBody => exact .ended
  | startBoundary => exact ⟨[], .ended, .inl rfl⟩
  | endBoundary => exact ⟨[], .ended, hc⟩
  | startContentDisposition => exact ⟨[], .blank .ended, hc⟩
  | endContentDisposition => exact ⟨[], .blank .ended, hc⟩
  | startContentType => exact ⟨[], .ended, hc⟩
  | endContentType => exact ⟨[], .ended, hc⟩
  | startContentData => exact hc
  | endContentData => exact .ended
  | endBody => trivial

theorem behindLine_eq (t : Bytes) :
    behindLine t = ((find CRLF t).map fun pos ↦ t.drop (pos + 2)).getD [] := by
  unfold behindLine
  cases find CRLF t with
  | none => rfl
  | some pos => rfl

/-- A `Content-Disposition` line is read to its end. -/
theorem disposition_rest (inValue isName : Bool) (name filename t : Bytes) :
    (disposition inValue isName name filename t).2.2 =
      (find CRLF t).map fun pos ↦ t.drop (pos + 2) := by
  have hskip (c : UInt8) (t : Bytes) (h : ¬ CRLF <+: c :: t) :
      ((find CRLF (c :: t)).map fun pos ↦ (c :: t).drop (pos + 2)) =
        (find CRLF t).map fun pos ↦ t.drop (pos + 2) := by
    rw [find, if_neg h, Option.map_map]
    rfl
  induction inValue, isName, name, filename, t using disposition.induct with
  | case1 => rw [disposition]; rfl
  | case2 inValue isName name filename c tail hp =>
    rw [disposition, find, if_pos hp, if_pos hp]
    cases tail with
    | nil => rfl
    | cons d tail => rfl
  | case3 inValue isName name filename c tail hp hq ih =>
    rw [disposition, if_neg hp, if_pos hq, ih, hskip c tail hp]
    obtain ⟨u, hu⟩ := hq
    obtain ⟨rfl, rfl⟩ := List.cons.inj hu.symm
    exact (hskip _ u (not_starts_crlf (by decide))).symm
  | case4 inValue isName name filename tail hp hq ih =>
    rw [disposition, if_neg hp, if_neg hq, if_pos rfl, ih, hskip _ tail hp]
  | case5 name filename c tail hc hp hq ih =>
    rw [disposition, if_neg hp, if_neg hq, if_neg hc, if_pos rfl, if_pos rfl, ih, hskip c tail hp]
  | case6 isName name filename c tail hc hn hp hq ih =>
    rw [disposition, if_neg hp, if_neg hq, if_neg hc, if_pos rfl, if_neg hn, ih, hskip c tail hp]
  | case7 inValue isName name filename c tail hc hv hp hq ih =>
    rw [disposition, if_neg hp, if_neg hq, if_neg hc, if_neg hv, ih, hskip c tail hp]

theorem not_crlf_dashes {t : Bytes} (h : CRLF <+: t) : ¬ ascii "--" <+: t := by
  obtain ⟨u, rfl⟩ := h
  exact fun hp ↦ absurd (List.cons_prefix_cons.mp hp).1 (by decide)

theorem contentText_iff_blank {t : Bytes} (hne : t ≠ []) :
    (∃ content, Blank t content ∧ ContentText b memory content) ↔
      CRLF <+: t ∧ ContentText b memory (t.drop 2) := by
  constructor
  · intro h
    obtain ⟨content, hb, hc⟩ := h
    cases hb with
    | ended => exact absurd rfl hne
    | line => exact ⟨List.prefix_append _ _, hc⟩
  · intro h
    obtain ⟨⟨u, rfl⟩, hc⟩ := h
    exact ⟨u, .line, hc⟩

/-- What the boundary state leads to: nothing, a closed body, or a part. -/
theorem boundaryText_iff {t : Bytes} : BoundaryText b memory t ↔
    t = [] ∨ ascii "--" <+: t ∨ CRLF <+: t ∧ Through b memory (t.drop 2) .endBoundary := by
  constructor
  · intro h
    rcases h with h | h | ⟨head, content, rfl, hh, hc⟩
    · exact .inl h
    · exact .inr (.inl h)
    · exact .inr (.inr ⟨List.prefix_append _ _, content, hh, hc⟩)
  · intro h
    rcases h with h | h | ⟨⟨u, rfl⟩, content, hh, hc⟩
    · exact .inl h
    · exact .inr (.inl h)
    · exact .inr (.inr ⟨u, content, rfl, hh, hc⟩)

theorem contentLength_cons (c : UInt8) (t : Bytes) :
    contentLength b memory (c :: t) = (do
      if ← delimiter b memory (c :: t) then .ok (some 0)
      else do
        let n ← contentLength b memory t
        .ok (n.map (· + 1))) := by
  rw [contentLength, delimiter]
  split_ifs
  · rfl
  · rfl

/-- A content and the body behind it, from the delimiter that the scan finds. -/
theorem contentText_iff (t : Bytes) : ContentText b memory t ↔
    ∃ n, contentLength b memory t = .ok n ∧
      FormText b memory ((n.map fun n ↦ t.drop (n + 2)).getD []) := by
  induction t with
  | nil => exact iff_of_true contentText_nil ⟨none, rfl, .ended⟩
  | cons c t ih =>
    rw [contentLength_cons]
    cases he : delimiter b memory (c :: t) with
    | error e =>
      refine iff_of_false (fun h ↦ ?_) (fun h ↦ ?_)
      · obtain ⟨next, hc, -⟩ := h
        cases hc with
        | found _ hf => simp [he] at hf
        | next hf => simp [he] at hf
      · obtain ⟨n, hn, -⟩ := h
        cases hn
    | ok found =>
      cases found with
      | true =>
        simp only [bind, Except.bind, if_true]
        constructor
        · intro h
          obtain ⟨next, hc, hf⟩ := h
          cases hc with
          | found _ _ => exact ⟨some 0, rfl, hf⟩
          | next hn => simp [he] at hn
        · intro h
          obtain ⟨n, hn, hf⟩ := h
          cases hn
          exact ⟨_, .found (List.cons_ne_nil _ _) he, hf⟩
      | false =>
        have hcons : ContentText b memory (c :: t) ↔ ContentText b memory t := by
          constructor
          · intro h
            obtain ⟨next, hc, hf⟩ := h
            cases hc with
            | found _ hn => simp [he] at hn
            | next _ hc => exact ⟨next, hc, hf⟩
          · intro h
            obtain ⟨next, hc, hf⟩ := h
            exact ⟨next, .next he hc, hf⟩
        rw [hcons, ih]
        simp only [bind, Except.bind, Bool.false_eq_true, if_false]
        cases contentLength b memory t with
        | error e => simp
        | ok n =>
          cases n with
          | none => simp
          | some n => simp

theorem formText_iff {t : Bytes} (hne : t ≠ []) : FormText b memory t ↔
    ascii "--" <+: t ∧ Through b memory (t.drop 2) .startBoundary := by
  constructor
  · intro h
    cases h with
    | ended => exact absurd rfl hne
    | close hd hr =>
      refine ⟨List.prefix_append _ _, _, hd, ?_⟩
      rcases hr with hr | hr
      · exact .inl hr
      · exact .inr (.inl hr)
    | part hd hh hc hf =>
      exact ⟨List.prefix_append _ _, _, hd, .inr (.inr ⟨_, _, rfl, hh, _, hc, hf⟩)⟩
  · intro h
    obtain ⟨⟨u, rfl⟩, rest, hd, hr⟩ := h
    rcases hr with hr | hr | ⟨head, content, rfl, hh, next, hc, hf⟩
    · exact .close hd (.inl hr)
    · exact .close hd (.inr hr)
    · exact .part hd hh hc hf

/-- An empty boundary is found again and again. -/
theorem not_delimiter_of_nil {t rest : Bytes} (ht : ¬ BoundaryEnd t) :
    ¬ Delimiter [] memory t rest := by
  intro h
  induction h with
  | ended => exact ht (.inl rfl)
  | last _ he => exact ht he
  | again _ _ _ ih => exact ih ht

theorem startBoundary_iff {t : Bytes} (hne : t ≠ []) : Through b memory t .startBoundary ↔
    Matches memory id t b ∧
      if BoundaryEnd (t.drop b.length) then BoundaryText b memory (t.drop b.length)
      else b ≠ [] ∧ Through b memory (t.drop b.length) .startBoundary := by
  constructor
  · intro h
    obtain ⟨rest, hd, hr⟩ := h
    cases hd with
    | ended => exact absurd rfl hne
    | last hm he =>
      rw [if_pos he]
      exact ⟨hm, hr⟩
    | again hm he hd =>
      rw [if_neg he]
      refine ⟨hm, ?_, rest, hd, hr⟩
      rintro rfl
      exact not_delimiter_of_nil he hd
  · intro h
    obtain ⟨hm, h⟩ := h
    split_ifs at h with he
    · exact ⟨_, .last hm he, h⟩
    · obtain ⟨-, rest, hd, hr⟩ := h
      exact ⟨rest, .again hm he hd, hr⟩

/-- A turn keeps the boundary, and goes on just where the body keeps to the form. -/
structure Agrees (b memory : Bytes) (c : Cursor) : Prop where
  boundary : ∀ d, step memory c = .ok d → d.multipart.boundary = b
  through : Through b memory c.rest c.state ↔
    ∃ d, step memory c = .ok d ∧ Through b memory d.rest d.state

section Agrees

theorem Agrees.of_error {c : Cursor} {e : Fault} (hs : step memory c = .error e)
    (h : ¬ Through b memory c.rest c.state) : Agrees b memory c where
  boundary d hd := by simp [hs] at hd
  through := by simp [hs, h]

theorem Agrees.of_ok {c d : Cursor} (hs : step memory c = .ok d) (hb : d.multipart.boundary = b)
    (h : Through b memory c.rest c.state ↔ Through b memory d.rest d.state) :
    Agrees b memory c where
  boundary d' hd := by
    obtain rfl := Except.ok.inj (hs.symm.trans hd)
    exact hb
  through := by simpa [hs] using h

variable {t name filename type data : Bytes} {fileMark : Bool} {m : HttpMultiPart}

theorem agrees_startBody (hb : m.boundary = b) (hne : t ≠ []) :
    Agrees b memory ⟨t, .startBody, name, filename, type, data, fileMark, m⟩ := by
  by_cases hp : ascii "--" <+: t
  · refine .of_ok (if_pos hp) hb ?_
    change FormText b memory t ↔ _
    rw [formText_iff hne, and_iff_right hp]
  · refine .of_error (if_neg hp) fun h ↦ ?_
    exact hp ((formText_iff hne).mp h).1

theorem agrees_startBoundary (hb : m.boundary = b) (hne : t ≠ []) :
    Agrees b memory ⟨t, .startBoundary, name, filename, type, data, fileMark, m⟩ := by
  have hiff : Through b memory t .startBoundary ↔ _ := startBoundary_iff hne
  have hstep : step memory ⟨t, .startBoundary, name, filename, type, data, fileMark, m⟩ =
      match cstrEq id (t ++ memory) b with
      | .error e => .error e
      | .ok false => .error .hang
      | .ok true =>
        if CRLF <+: t.drop b.length then
          .ok ⟨(t.drop b.length).drop 2, .endBoundary, name, filename, type, data, fileMark, m⟩
        else if ascii "--" <+: t.drop b.length then
          .ok ⟨(t.drop b.length).drop 2, .endBody, name, filename, type, data, fileMark, m⟩
        else if b = [] then .error .hang
        else .ok ⟨t.drop b.length, .startBoundary, name, filename, type, data, fileMark, m⟩ := by
    subst hb
    simp only [step]
    cases cstrEq id (t ++ memory) m.boundary with
    | error e => rfl
    | ok found =>
      cases found with
      | false => rfl
      | true => rfl
  cases hm : cstrEq id (t ++ memory) b with
  | error e =>
    refine .of_error (e := e) (by rw [hstep, hm]) fun h ↦ ?_
    have := (hiff.mp h).1
    simp [Matches, hm] at this
  | ok found =>
    cases found with
    | false =>
      refine .of_error (e := .hang) (by rw [hstep, hm]) fun h ↦ ?_
      have := (hiff.mp h).1
      simp [Matches, hm] at this
    | true =>
      rw [hm] at hstep
      simp only at hstep
      have hiff := hiff.trans (and_iff_right hm)
      by_cases hc : CRLF <+: t.drop b.length
      · rw [if_pos hc] at hstep
        refine .of_ok hstep hb (hiff.trans ?_)
        have hnil : t.drop b.length ≠ [] := fun h ↦ by simp [h, CRLF] at hc
        rw [if_pos (.inr (.inl hc)), boundaryText_iff, or_iff_right hnil,
          or_iff_right (not_crlf_dashes hc), and_iff_right hc]
      · rw [if_neg hc] at hstep
        by_cases hd : ascii "--" <+: t.drop b.length
        · rw [if_pos hd] at hstep
          refine .of_ok hstep hb (hiff.trans ?_)
          rw [if_pos (.inr (.inr hd)), boundaryText_iff]
          exact iff_of_true (.inr (.inl hd)) trivial
        · rw [if_neg hd] at hstep
          by_cases hnil : b = []
          · rw [if_pos hnil] at hstep
            refine .of_error hstep fun h ↦ ?_
            have hend : ¬ BoundaryEnd (t.drop b.length) := by
              rintro (h | h | h)
              · rw [hnil] at h
                exact hne h
              · exact hc h
              · exact hd h
            have h := hiff.mp h
            rw [if_neg hend] at h
            exact h.1 hnil
          · rw [if_neg hnil] at hstep
            refine .of_ok hstep hb (hiff.trans ?_)
            by_cases hr : t.drop b.length = []
            · rw [if_pos (.inl hr)]
              apply iff_of_true (.inl hr)
              simp only [hr]
              exact through_nil _
            · have hend : ¬ BoundaryEnd (t.drop b.length) := by
                rintro (h | h | h)
                · exact hr h
                · exact hc h
                · exact hd h
              rw [if_neg hend, and_iff_right hnil]

/-- A turn that compares the text with a name and then goes on behind it. -/
theorem agrees_name {s : State} (s' : State) (n : Bytes) (len : ℕ) (mark : Bool)
    (hb : m.boundary = b)
    (hstep : step memory ⟨t, s, name, filename, type, data, fileMark, m⟩ =
      match cstrEq toLower (t ++ memory) n with
      | .error e => .error e
      | .ok false => .error .hang
      | .ok true => .ok ⟨t.drop len, s', name, filename, type, data, mark, m⟩)
    (h : Through b memory t s ↔ Matches memory toLower t n ∧ Through b memory (t.drop len) s') :
    Agrees b memory ⟨t, s, name, filename, type, data, fileMark, m⟩ := by
  cases hm : cstrEq toLower (t ++ memory) n with
  | error e =>
    refine .of_error (e := e) (by rw [hstep, hm]) fun ht ↦ ?_
    have := (h.mp ht).1
    simp [Matches, hm] at this
  | ok found =>
    cases found with
    | false =>
      refine .of_error (e := .hang) (by rw [hstep, hm]) fun ht ↦ ?_
      have := (h.mp ht).1
      simp [Matches, hm] at this
    | true =>
      rw [hm] at hstep
      exact .of_ok hstep hb (h.trans (and_iff_right hm))

theorem agrees_endBoundary (hb : m.boundary = b) (hne : t ≠ []) :
    Agrees b memory ⟨t, .endBoundary, name, filename, type, data, fileMark, m⟩ := by
  refine agrees_name .startContentDisposition (ascii "Content-Disposition") 19 fileMark hb ?_ ?_
  · simp only [step]
    cases cstrEq toLower (t ++ memory) (ascii "Content-Disposition") with
    | error e => rfl
    | ok found =>
      cases found with
      | false => rfl
      | true => rfl
  · have hdrop : (t.drop 19).drop 13 = t.drop 32 := List.drop_drop
    constructor
    · intro h
      obtain ⟨content, hh, hc⟩ := h
      cases hh with
      | ended => exact absurd rfl hne
      | disposition hm hh => exact ⟨hm, content, by rwa [hdrop], hc⟩
    · intro h
      obtain ⟨hm, content, hh, hc⟩ := h
      rw [hdrop] at hh
      exact ⟨content, .disposition hm hh, hc⟩

theorem agrees_startContentDisposition (hb : m.boundary = b) :
    Agrees b memory ⟨t, .startContentDisposition, name, filename, type, data, fileMark, m⟩ := by
  have hrest := disposition_rest false true name filename (t.drop 13)
  have hline := behindLine_eq (t.drop 13)
  rw [← hrest] at hline
  cases hd : disposition false true name filename (t.drop 13) with
  | mk name' r =>
    obtain ⟨filename', rest⟩ := r
    rw [hd] at hline
    cases rest with
    | none =>
      refine .of_ok (d := ⟨[], .startContentDisposition, name', filename', type, data, fileMark, m⟩)
        (by simp only [step, hd]) hb ?_
      refine iff_of_true ⟨[], ?_, contentText_nil⟩ (through_nil _)
      simp only [hline]
      exact .blank .ended
    | some rest =>
      refine .of_ok (d := ⟨rest, .endContentDisposition, name', filename', type, data, fileMark, m⟩)
        (by simp only [step, hd]) hb ?_
      change (∃ content, HeadEnd memory (behindLine (t.drop 13)) content ∧ _) ↔ _
      rw [hline]
      rfl

theorem agrees_endContentDisposition (hb : m.boundary = b) (hne : t ≠ []) :
    Agrees b memory ⟨t, .endContentDisposition, name, filename, type, data, fileMark, m⟩ := by
  by_cases hc : CRLF <+: t
  · refine .of_ok (if_pos hc) hb ?_
    have hblank : Through b memory t .endContentType ↔ _ := contentText_iff_blank hne
    refine Iff.trans ⟨fun h ↦ ?_, fun h ↦ ?_⟩ (hblank.trans (and_iff_right hc))
    · obtain ⟨content, hh, hct⟩ := h
      cases hh with
      | blank hh => exact ⟨content, hh, hct⟩
      | type hn => exact absurd hc hn
    · obtain ⟨content, hh, hct⟩ := h
      exact ⟨content, .blank hh, hct⟩
  · refine agrees_name .startContentType (ascii "Content-Type") 14 true hb ?_ ?_
    · simp only [step, if_neg hc]
      cases cstrEq toLower (t ++ memory) (ascii "Content-Type") with
      | error e => rfl
      | ok found =>
        cases found with
        | false => rfl
        | true => rfl
    · constructor
      · intro h
        obtain ⟨content, hh, hct⟩ := h
        cases hh with
        | blank hh =>
          cases hh with
          | ended => exact absurd rfl hne
          | line => exact absurd (List.prefix_append _ _) hc
        | type _ hm hh => exact ⟨hm, content, hh, hct⟩
      · intro h
        obtain ⟨hm, content, hh, hct⟩ := h
        exact ⟨content, .type hc hm hh, hct⟩

theorem agrees_startContentType (hb : m.boundary = b) :
    Agrees b memory ⟨t, .startContentType, name, filename, type, data, fileMark, m⟩ := by
  have hline := behindLine_eq t
  cases hf : find CRLF t with
  | none =>
    rw [hf] at hline
    refine .of_ok (d := ⟨[], .startContentType, name, filename, type ++ t, data, fileMark, m⟩)
      (by simp only [step, hf]) hb ?_
    refine iff_of_true ⟨[], ?_, contentText_nil⟩ (through_nil _)
    simp only [hline]
    exact .ended
  | some pos =>
    rw [hf] at hline
    refine .of_ok (d := ⟨t.drop (pos + 2), .endContentType, name, filename, type ++ t.take pos,
      data, fileMark, m⟩) (by simp only [step, hf]) hb ?_
    change (∃ content, Blank (behindLine t) content ∧ _) ↔ _
    rw [hline]
    rfl

theorem agrees_endContentType (hb : m.boundary = b) (hne : t ≠ []) :
    Agrees b memory ⟨t, .endContentType, name, filename, type, data, fileMark, m⟩ := by
  have hblank : Through b memory t .endContentType ↔ _ := contentText_iff_blank hne
  by_cases hc : CRLF <+: t
  · exact .of_ok (if_pos hc) hb (hblank.trans (and_iff_right hc))
  · refine .of_error (if_neg hc) fun h ↦ ?_
    exact hc (hblank.mp h).1

theorem agrees_startContentData (hb : m.boundary = b) :
    Agrees b memory ⟨t, .startContentData, name, filename, type, data, fileMark, m⟩ := by
  have hiff : ContentText b memory t ↔ _ := contentText_iff t
  cases hn : contentLength b memory t with
  | error e =>
    refine .of_error (e := e) ?_ fun h ↦ ?_
    · simp only [step, hb, hn]
      rfl
    · obtain ⟨n, h, -⟩ := hiff.mp h
      simp [hn] at h
  | ok n =>
    simp only [hn, Except.ok.injEq, exists_eq_left'] at hiff
    cases n with
    | none =>
      refine .of_ok (d := ⟨[], .startContentData, name, filename, type, data, fileMark, m⟩) ?_ hb ?_
      · simp only [step, hb, hn]
        rfl
      · exact hiff.trans (iff_of_true .ended (through_nil _))
    | some n =>
      refine .of_ok (d := ⟨t.drop (n + 2), .endContentData, name, filename, type, t.take n,
        fileMark, m⟩) ?_ hb hiff
      simp only [step, hb, hn]
      rfl

theorem step_agrees (c : Cursor) (hb : c.multipart.boundary = b) (hne : c.rest ≠ []) :
    Agrees b memory c := by
  obtain ⟨t, state, name, filename, type, data, fileMark, m⟩ := c
  cases state with
  | startBody => exact agrees_startBody hb hne
  | startBoundary => exact agrees_startBoundary hb hne
  | endBoundary => exact agrees_endBoundary hb hne
  | startContentDisposition => exact agrees_startContentDisposition hb
  | endContentDisposition => exact agrees_endContentDisposition hb hne
  | startContentType => exact agrees_startContentType hb
  | endContentType => exact agrees_endContentType hb hne
  | startContentData => exact agrees_startContentData hb
  | endContentData =>
    refine .of_ok rfl ?_ Iff.rfl
    dsimp only
    split_ifs
    · exact hb
    · exact hb
    · exact hb
  | endBody => exact .of_ok rfl hb Iff.rfl

end Agrees

/-- From every state, the loop returns just when the rest of the body has the form. -/
theorem parseLoop_ok_iff (c : Cursor) (hb : c.multipart.boundary = b) :
    (∃ m, parseLoop memory c = .ok m) ↔ Through b memory c.rest c.state := by
  induction hw : c.weight using Nat.strong_induction_on generalizing c with
  | _ n ih =>
    subst hw
    by_cases hr : c.rest = []
    · rw [parseLoop_end hr, hr]
      exact iff_of_true ⟨_, rfl⟩ (through_nil _)
    · have hagrees : Agrees b memory c := step_agrees c hb hr
      rw [hagrees.through]
      cases hs : step memory c with
      | error e =>
        rw [parseLoop, dif_neg hr]
        split
        · simp
        · rename_i c' hc
          simp [hs] at hc
      | ok c' =>
        rw [parseLoop_step hr hs]
        simpa using ih _ (step_weight hr hs) c' (hagrees.boundary c' hs) rfl

namespace Cursor

def exit (c : Cursor) : Option HttpMultiPart := if c.rest = [] then some c.multipart else none

/-- A turn as it is, where a branch that changes nothing leaves the loop where it was. -/
def turn (memory : Bytes) (c : Cursor) : Except Fault Cursor :=
  match step memory c with
  | .error .hang => .ok c
  | r => r

theorem exit_eq_none {c : Cursor} (h : c.exit = none) : c.rest ≠ [] := by
  intro hr
  simp [exit, hr] at h

theorem turn_cases (memory : Bytes) (c : Cursor) (hx : c.exit = none) :
    (∃ e, c.turn memory = .error e ∧ parseLoop memory c = .error e) ∨
      (c.turn memory = .ok c ∧ parseLoop memory c = .error .hang) ∨
        ∃ d, c.turn memory = .ok d ∧ d.weight < c.weight ∧
          parseLoop memory c = parseLoop memory d := by
  have hr := exit_eq_none hx
  cases hs : step memory c with
  | error e =>
    have hloop : parseLoop memory c = .error e := by
      rw [parseLoop, dif_neg hr]
      split
      · rename_i e' he
        obtain rfl := Except.error.inj (he.symm.trans hs)
        rfl
      · rename_i c' hc
        simp [hs] at hc
    by_cases he : e = .hang
    · subst he
      exact .inr (.inl ⟨by rw [turn, hs], hloop⟩)
    · refine .inl ⟨e, ?_, hloop⟩
      rw [turn, hs]
      split
      · rename_i he'
        cases he'
        exact absurd rfl he
      · rfl
  | ok d => exact .inr (.inr ⟨d, by rw [turn, hs], step_weight hr hs, parseLoop_step hr hs⟩)

/-- The loop ends with a form just when `parseLoop` returns it. -/
theorem ends_ok_iff (memory : Bytes) (c : Cursor) (m : HttpMultiPart) :
    Loop.Ends exit (turn memory) c (.ok m) ↔ parseLoop memory c = .ok m := by
  refine Loop.ends_ok_iff (fun c m hx ↦ ?_) (turn_cases memory) c m
  unfold exit at hx
  split_ifs at hx with hr
  rw [parseLoop_end hr, Option.some.inj hx]

end Cursor

/-- Whatever the body, `parse` ends just when it keeps to the form: a body that strays
from it holds the loop in place. -/
theorem parse_ends_iff (m : HttpMultiPart) (body memory : Bytes) :
    (∃ m', Loop.Ends Cursor.exit (Cursor.turn memory) (start m body) (.ok m')) ↔
      FormText m.boundary memory body := by
  simp only [Cursor.ends_ok_iff]
  exact parseLoop_ok_iff (start m body) rfl

/-- A head that does not begin with `Content-Disposition` is never left. -/
theorem parse_spins :
    ascii "--" ++ ascii "X" ++ ascii "--" ++ CRLF <:+ ascii "--X\r\nfoo\r\n--X--\r\n" ∧
      ¬ ∃ r, Loop.Ends Cursor.exit (Cursor.turn [])
        (start ⟨ascii "X", ∅, ∅⟩ (ascii "--X\r\nfoo\r\n--X--\r\n")) r := by
  let m : HttpMultiPart := ⟨ascii "X", ∅, ∅⟩
  let boundary : Cursor := { start m (ascii "X\r\nfoo\r\n--X--\r\n") with state := .startBoundary }
  let head : Cursor := { start m (ascii "foo\r\n--X--\r\n") with state := .endBoundary }
  have hbody : Cursor.turn [] (start m (ascii "--X\r\nfoo\r\n--X--\r\n")) = .ok boundary := rfl
  have hboundary : Cursor.turn [] boundary = .ok head := rfl
  have hspin : Cursor.turn [] head = .ok head := rfl
  have hx : Cursor.exit head = none := rfl
  refine ⟨by decide, fun h ↦ ?_⟩
  obtain ⟨r, h⟩ := h
  have h := (Loop.ends_next_iff rfl hbody).mp h
  exact Loop.not_ends_of_spin hx hspin r ((Loop.ends_next_iff rfl hboundary).mp h)

end Socnet.Http.HttpMultiPart
