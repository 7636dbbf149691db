import Socnet.Http.HttpMultiPart

namespace Socnet.Http.HttpMultiPart

open Lib Utility.EncodeUtil

variable {b memory : Bytes}

/-- A part of a form: a field with its value, or a file. -/
inductive FormPart
  | field (name data : Bytes)
  | file (name filename type data : Bytes)
  deriving DecidableEq

namespace FormPart

def name : FormPart → Bytes
  | field name _ => name
  | file name _ _ _ => name

def data : FormPart → Bytes
  | field _ data => data
  | file _ _ _ data => data

/-- The head of a part as browsers write it, from the name on. -/
def head : FormPart → Bytes
  | field name _ => ascii "name=\"" ++ (name ++ ascii "\"" ++ CRLF) ++ CRLF
  | file name filename type _ =>
    ascii "name=\"" ++ (name ++ ascii "\"; filename=\"" ++ (filename ++ ascii "\"" ++ CRLF)) ++
      (ascii "Content-Type: " ++ (type ++ CRLF)) ++ CRLF

def render (b : Bytes) (p : FormPart) : Bytes :=
  ascii "--" ++ b ++ CRLF ++ ascii "Content-Disposition: form-data; " ++ p.head ++ p.data ++ CRLF

end FormPart

def renderBody (b : Bytes) (parts : List FormPart) : Bytes :=
  parts.flatMap (·.render b) ++ ascii "--" ++ b ++ ascii "--" ++ CRLF

/-- A name that can be quoted. -/
def Quotable (s : Bytes) : Prop :=
  '"'.toUInt8 ∉ s ∧ CR ∉ s ∧ s.getLast? ≠ some '='.toUInt8

def FormPart.Valid (b : Bytes) : FormPart → Prop
  | .field name data => Quotable name ∧ ¬ CRLF ++ ascii "--" ++ b <:+: data
  | .file name filename type data =>
    Quotable name ∧ Quotable filename ∧ CR ∉ type ∧ ¬ CRLF ++ ascii "--" ++ b <:+: data

theorem cstrEq_self_append (fold : UInt8 → UInt8) {s : Bytes} (h0 : 0 ∉ s) (rest : Bytes) :
    cstrEq fold (s ++ rest) s = .ok true := by
  induction s with
  | nil => simp [cstrEq]
  | cons c s ih =>
    rw [List.mem_cons, not_or] at h0
    rw [List.cons_append, cstrEq, if_neg (by simp), if_neg (Ne.symm h0.1), ih h0.2]

/-- Without a NUL in `s`, `strncmp` finds `s` only where it stands in memory. -/
theorem cstrEq_eq_false {s text : Bytes} (hlen : s.length ≤ text.length) (h0 : 0 ∉ s)
    (hne : ¬ s <+: text) : cstrEq id text s = .ok false := by
  induction s generalizing text with
  | nil => exact absurd List.nil_prefix hne
  | cons c s ih =>
    cases text with
    | nil => simp at hlen
    | cons a text =>
      rw [List.mem_cons, not_or] at h0
      rw [cstrEq]
      by_cases hac : a = c
      · subst hac
        rw [if_neg (by simp), if_neg (Ne.symm h0.1)]
        refine ih (by simpa using hlen) h0.2 fun hp ↦ hne ?_
        exact List.cons_prefix_cons.mpr ⟨rfl, hp⟩
      · rw [if_pos (by simpa using hac)]

section Disposition

variable {inValue isName : Bool} {name filename rest : Bytes}

theorem disposition_crlf :
    disposition inValue isName name filename (CRLF ++ rest) = (name, filename, some rest) := by
  have hp : CRLF <+: CR :: LF :: rest := List.prefix_append CRLF rest
  change disposition inValue isName name filename (CR :: LF :: rest) = _
  rw [disposition, if_pos hp]
  rfl

theorem not_starts_crlf {c : UInt8} (hc : c ≠ CR) : ¬ CRLF <+: c :: rest := by
  intro hp
  exact hc (List.cons_prefix_cons.mp hp).1.symm

theorem not_starts_open {c : UInt8} (hc : c ≠ '='.toUInt8) : ¬ ascii "=\"" <+: c :: rest := by
  intro hp
  exact hc (List.cons_prefix_cons.mp hp).1.symm

theorem disposition_open :
    disposition inValue isName name filename (ascii "=\"" ++ rest) =
      disposition true isName name filename rest := by
  have hp : ascii "=\"" <+: '='.toUInt8 :: '"'.toUInt8 :: rest :=
    List.prefix_append (ascii "=\"") rest
  change disposition inValue isName name filename ('='.toUInt8 :: '"'.toUInt8 :: rest) = _
  rw [disposition, if_neg (not_starts_crlf (by decide)), if_pos hp]
  rfl

/-- What stands between the values is skipped. -/
theorem disposition_skip {u : Bytes}
    (hu : ∀ c ∈ u, c ≠ CR ∧ c ≠ '='.toUInt8 ∧ c ≠ '"'.toUInt8) :
    disposition false isName name filename (u ++ rest) =
      disposition false isName name filename rest := by
  induction u with
  | nil => rfl
  | cons c u ih =>
    obtain ⟨hcr, heq, hq⟩ := hu c (.head u)
    rw [List.cons_append, disposition, if_neg (not_starts_crlf hcr), if_neg (not_starts_open heq),
      if_neg hq, if_neg (by simp), ih fun x hx ↦ hu x (.tail c hx)]

theorem disposition_close :
    disposition inValue isName name filename (ascii "\"" ++ rest) =
      disposition false (!isName) name filename rest := by
  change disposition inValue isName name filename ('"'.toUInt8 :: rest) = _
  rw [disposition, if_neg (not_starts_crlf (by decide)), if_neg (not_starts_open (by decide)),
    if_pos rfl]

theorem Quotable.tail {c : UInt8} {u : Bytes} (h : Quotable (c :: u)) : Quotable u := by
  obtain ⟨hq, hcr, hlast⟩ := h
  refine ⟨fun hm ↦ hq (.tail c hm), fun hm ↦ hcr (.tail c hm), ?_⟩
  cases u with
  | nil => simp
  | cons d u => rwa [List.getLast?_cons_cons] at hlast

/-- A value is collected up to the quote that ends it. -/
theorem disposition_value {u : Bytes} (hu : Quotable u) :
    disposition true isName name filename (u ++ (ascii "\"" ++ rest)) =
      disposition false (!isName) (if isName then name ++ u else name)
        (if isName then filename else filename ++ u) rest := by
  induction u generalizing name filename with
  | nil =>
    rw [List.nil_append, disposition_close]
    cases isName with
    | true => simp
    | false => simp
  | cons c u ih =>
    have hc : c ≠ CR := fun h ↦ hu.2.1 (h ▸ .head u)
    have hq : c ≠ '"'.toUInt8 := fun h ↦ hu.1 (h ▸ .head u)
    have hopen : ¬ ascii "=\"" <+: c :: (u ++ (ascii "\"" ++ rest)) := by
      intro hp
      obtain ⟨rfl, hp'⟩ := List.cons_prefix_cons.mp hp
      cases u with
      | nil => exact hu.2.2 rfl
      | cons d u =>
        have hd : '"'.toUInt8 = d := (List.cons_prefix_cons.mp hp').1
        exact hu.1 (.tail _ (hd ▸ .head u))
    rw [List.cons_append, disposition, if_neg (not_starts_crlf hc), if_neg hopen, if_neg hq,
      if_pos rfl]
    cases isName with
    | true =>
      rw [if_pos rfl, ih hu.tail]
      simp
    | false =>
      rw [if_neg (by simp), ih hu.tail]
      simp

theorem disposition_field (hn : Quotable name) :
    disposition false true [] [] (ascii "name" ++ (ascii "=\"" ++ (name ++ (ascii "\"" ++
      (CRLF ++ rest))))) = (name, [], some rest) := by
  rw [disposition_skip (by decide +kernel), disposition_open, disposition_value hn, disposition_crlf]
  rfl

theorem disposition_file (hn : Quotable name) (hf : Quotable filename) :
    disposition false true [] [] (ascii "name" ++ (ascii "=\"" ++ (name ++ (ascii "\"" ++
      (ascii "; filename" ++ (ascii "=\"" ++ (filename ++ (ascii "\"" ++ (CRLF ++ rest))))))))) =
      (name, filename, some rest) := by
  rw [disposition_skip (by decide +kernel), disposition_open, disposition_value hn,
    disposition_skip (by decide +kernel), disposition_open, disposition_value hf, disposition_crlf]
  rfl

end Disposition

section Content

/-- Where the text of a delimiter starts before a delimiter, it also ends there. -/
theorem prefix_of_prefix_append {a : UInt8} {s u t : Bytes} (ha : a ∉ s) (hu : u ≠ [])
    (hp : a :: s <+: u ++ a :: t) : a :: s <+: u := by
  apply List.prefix_of_prefix_length_le hp (List.prefix_append u _)
  by_contra hlt
  obtain ⟨k, hk⟩ : ∃ k, u.length = k + 1 :=
    ⟨u.length - 1, by have := List.length_pos_iff.mpr hu; omega⟩
  have hin : u.length < (a :: s).length := not_le.mp hlt
  have hget : (u ++ a :: t)[u.length]? = some (a :: s)[u.length] :=
    List.prefix_iff_getElem?.mp hp u.length hin
  have hmem : a = (a :: s)[u.length] := by simpa using hget
  apply ha
  rw [hmem]
  simp only [hk, List.getElem_cons_succ]
  exact List.getElem_mem _

/-- The content ends at the delimiter that follows it. -/
theorem contentLength_append (hb : b ≠ []) (hcr : CR ∉ b) (h0 : 0 ∉ b) {data : Bytes}
    (hd : ¬ CRLF ++ ascii "--" ++ b <:+: data) (t : Bytes) :
    contentLength b memory (data ++ (CRLF ++ (ascii "--" ++ (b ++ t)))) =
      .ok (some data.length) := by
  have hpat : CRLF ++ ascii "--" ++ b = CR :: (LF :: (ascii "--" ++ b)) := rfl
  have hmem : CR ∉ LF :: (ascii "--" ++ b) := by
    have h : CR ∉ LF :: ascii "--" := by decide
    simp only [List.mem_cons, List.mem_append, not_or] at h ⊢
    exact ⟨h.1, h.2, hcr⟩
  induction data with
  | nil =>
    have hlen : 4 < (CRLF ++ (ascii "--" ++ (b ++ t))).length := by
      have hbp := List.length_pos_iff.mpr hb
      have h2 : (ascii "--").length = 2 := rfl
      simp only [CRLF, List.length_append, List.length_cons, List.length_nil, h2]
      omega
    have hp : CRLF ++ ascii "--" <+: CRLF ++ (ascii "--" ++ (b ++ t)) := ⟨b ++ t, by simp⟩
    have heq : cstrEq id (b ++ (t ++ memory)) b = .ok true := cstrEq_self_append id h0 _
    change contentLength b memory (CR :: LF :: '-'.toUInt8 :: '-'.toUInt8 :: (b ++ t)) = _
    rw [contentLength, if_pos ⟨hlen, hp⟩, List.drop_succ_cons, List.drop_succ_cons,
      List.drop_succ_cons, List.drop_zero, List.append_assoc, heq]
    rfl
  | cons c data ih =>
    have ih := ih fun hi ↦ hd (hi.trans (List.suffix_cons c data).isInfix)
    have hnot : ¬ CRLF ++ ascii "--" ++ b <+: c :: data ++ (CRLF ++ (ascii "--" ++ (b ++ t))) := by
      intro hp
      rw [hpat] at hp
      exact hd ((prefix_of_prefix_append hmem (by simp) hp).isInfix)
    rw [List.cons_append, contentLength, ih]
    split_ifs with hc
    · obtain ⟨v, hv⟩ := hc.2
      have hdrop : (data ++ (CRLF ++ (ascii "--" ++ (b ++ t)))).drop 3 = v :=
        congrArg (List.drop 4) hv.symm
      have hlen : b.length ≤ v.length := by
        have := congrArg List.length hv
        have h2 : (ascii "--").length = 2 := rfl
        simp only [CRLF, List.length_append, List.length_cons, List.length_nil, h2] at this
        omega
      have hne : ¬ b <+: v ++ memory := by
        intro hp
        have hbv := List.prefix_of_prefix_length_le hp (List.prefix_append v memory) hlen
        apply hnot
        rw [List.cons_append, ← hv]
        exact (List.prefix_append_right_inj _).mpr hbv
      have hlen' : b.length ≤ (v ++ memory).length := by
        rw [List.length_append]
        exact Nat.le_add_right_of_le hlen
      rw [hdrop, cstrEq_eq_false hlen' h0 hne]
      rfl
    · rfl

def bufSize : ℕ := 4096

/-- The content loop as it is written: a byte goes to `buffer`, which is
appended to `data` when it is full and when a delimiter is found. `none` stands
for a body that ends before a delimiter. -/
def stage (boundary memory : Bytes) (data buffer : Bytes) :
    Bytes → Except Fault (Option (Bytes × Bytes))
  | [] => .ok none
  | c :: rest => do
    let delimiter ←
      if 4 < (c :: rest).length ∧ CRLF ++ ascii "--" <+: c :: rest then
        cstrEq id (rest.drop 3 ++ memory) boundary
      else .ok false
    if delimiter then .ok (some (data ++ buffer, (c :: rest).drop 2))
    else if bufSize ≤ (buffer ++ [c]).length then
      stage boundary memory (data ++ (buffer ++ [c])) [] rest
    else stage boundary memory data (buffer ++ [c]) rest

/-- The staging buffer loses nothing: the data of a part is the text up to the
delimiter, wherever the buffer was flushed. -/
theorem stage_eq (boundary memory data buffer rest : Bytes) :
    stage boundary memory data buffer rest =
      (contentLength boundary memory rest).map
        (·.map fun n ↦ (data ++ buffer ++ rest.take n, rest.drop (n + 2))) := by
  induction rest generalizing data buffer with
  | nil => rfl
  | cons c rest ih =>
    have hturn (delimiter : Bool) :
        (if delimiter then .ok (some (data ++ buffer, (c :: rest).drop 2))
          else if bufSize ≤ (buffer ++ [c]).length then
            stage boundary memory (data ++ (buffer ++ [c])) [] rest
          else stage boundary memory data (buffer ++ [c]) rest) =
        (if delimiter then .ok (some 0)
          else contentLength boundary memory rest >>= fun n ↦ .ok (n.map (· + 1))).map
            (·.map fun n ↦ (data ++ buffer ++ (c :: rest).take n, (c :: rest).drop (n + 2))) := by
      cases delimiter with
      | true => simp [Except.map]
      | false =>
        simp only [Bool.false_eq_true, if_false, ih]
        cases contentLength boundary memory rest with
        | error e => simp [Except.map, bind, Except.bind]
        | ok n =>
          cases n with
          | none => simp [Except.map, bind, Except.bind]
          | some n => simp [Except.map, bind, Except.bind]
    rw [stage, contentLength]
    by_cases hc : 4 < (c :: rest).length ∧ CRLF ++ ascii "--" <+: c :: rest
    · rw [if_pos hc, if_pos hc]
      cases cstrEq id (rest.drop 3 ++ memory) boundary with
      | error e => rfl
      | ok delimiter => exact hturn delimiter
    · rw [if_neg hc, if_neg hc]
      exact hturn false

end Content

section Steps

variable {name filename type data t : Bytes} {fileMark : Bool} {m : HttpMultiPart}

theorem step_startBody :
    step memory ⟨ascii "--" ++ t, .startBody, name, filename, type, data, fileMark, m⟩ =
      .ok ⟨t, .startBoundary, name, filename, type, data, fileMark, m⟩ := by
  have hp : ascii "--" <+: ascii "--" ++ t := List.prefix_append _ t
  simp only [step, if_pos hp]
  rfl

theorem step_startBoundary (hb : m.boundary = b) (h0 : 0 ∉ b) :
    step memory ⟨b ++ (CRLF ++ t), .startBoundary, name, filename, type, data, fileMark, m⟩ =
      .ok ⟨t, .endBoundary, name, filename, type, data, fileMark, m⟩ := by
  have hp : CRLF <+: CRLF ++ t := List.prefix_append _ t
  have heq : cstrEq id (b ++ (CRLF ++ t) ++ memory) b = .ok true := by
    rw [List.append_assoc]
    exact cstrEq_self_append id h0 _
  simp only [step, hb, heq, bind, Except.bind, if_true, List.drop_left, if_pos hp]
  rfl

theorem step_startBoundary_close (hb : m.boundary = b) (h0 : 0 ∉ b) :
    step memory ⟨b ++ (ascii "--" ++ t), .startBoundary, name, filename, type, data, fileMark, m⟩ =
      .ok ⟨t, .endBody, name, filename, type, data, fileMark, m⟩ := by
  have hp : ascii "--" <+: ascii "--" ++ t := List.prefix_append _ t
  have hn : ¬ CRLF <+: ascii "--" ++ t := not_starts_crlf (by decide)
  have heq : cstrEq id (b ++ (ascii "--" ++ t) ++ memory) b = .ok true := by
    rw [List.append_assoc]
    exact cstrEq_self_append id h0 _
  simp only [step, hb, heq, bind, Except.bind, if_true, List.drop_left, if_neg hn, if_pos hp]
  rfl

theorem step_endBoundary :
    step memory ⟨ascii "Content-Disposition" ++ t, .endBoundary,
      name, filename, type, data, fileMark, m⟩ =
      .ok ⟨t, .startContentDisposition, name, filename, type, data, fileMark, m⟩ := by
  have heq : cstrEq toLower (ascii "Content-Disposition" ++ t ++ memory)
      (ascii "Content-Disposition") = .ok true := by
    rw [List.append_assoc]
    exact cstrEq_self_append toLower (by decide) _
  simp only [step, heq, bind, Except.bind, if_true]
  rfl

theorem step_disposition {name' filename' t' : Bytes}
    (h : disposition false true name filename t = (name', filename', some t')) :
    step memory ⟨ascii ": form-data; " ++ t, .startContentDisposition, name, filename, type, data,
      fileMark, m⟩ =
      .ok ⟨t', .endContentDisposition, name', filename', type, data, fileMark, m⟩ := by
  have hd : (ascii ": form-data; " ++ t).drop 13 = t := rfl
  simp only [step, hd, h]

theorem step_endContentDisposition_field :
    step memory ⟨CRLF ++ t, .endContentDisposition, name, filename, type, data, fileMark, m⟩ =
      .ok ⟨t, .startContentData, name, filename, type, data, false, m⟩ := by
  have hp : CRLF <+: CRLF ++ t := List.prefix_append _ t
  simp only [step, if_pos hp]
  rfl

theorem step_endContentDisposition_file :
    step memory ⟨ascii "Content-Type: " ++ t, .endContentDisposition,
      name, filename, type, data, fileMark, m⟩ =
      .ok ⟨t, .startContentType, name, filename, type, data, true, m⟩ := by
  have hn : ¬ CRLF <+: ascii "Content-Type: " ++ t := not_starts_crlf (by decide)
  have heq : cstrEq toLower (ascii "Content-Type: " ++ t ++ memory) (ascii "Content-Type") =
      .ok true := by
    have hs : ascii "Content-Type: " ++ t ++ memory =
        ascii "Content-Type" ++ (ascii ": " ++ (t ++ memory)) := by simp [ascii]
    rw [hs]
    exact cstrEq_self_append toLower (by decide) _
  simp only [step, if_neg hn, heq, bind, Except.bind, if_true]
  rfl

theorem step_startContentType (ht : CR ∉ type) :
    step memory ⟨type ++ (CRLF ++ t), .startContentType, name, filename, [], data, fileMark, m⟩ =
      .ok ⟨t, .endContentType, name, filename, type, data, fileMark, m⟩ := by
  have hf : Sequence.find CRLF (type ++ (CRLF ++ t)) = some type.length :=
    Sequence.find_pair (by decide) (fun hi ↦ ht (hi.subset (.head _))) t
  have hdrop : (type ++ (CRLF ++ t)).drop (type.length + 2) = t := by
    rw [← List.drop_drop, List.drop_left]
    rfl
  simp only [step, hf, hdrop, List.nil_append, List.take_left]

theorem step_endContentType :
    step memory ⟨CRLF ++ t, .endContentType, name, filename, type, data, fileMark, m⟩ =
      .ok ⟨t, .startContentData, name, filename, type, data, fileMark, m⟩ := by
  have hp : CRLF <+: CRLF ++ t := List.prefix_append _ t
  simp only [step, if_pos hp]
  rfl

/-- The turn over the content of a part is the loop through the buffer. -/
theorem step_stage :
    step memory ⟨t, .startContentData, name, filename, type, data, fileMark, m⟩ =
      (stage m.boundary memory [] [] t).map fun
        | some (data', t') =>
          ⟨t', .endContentData, name, filename, type, data', fileMark, m⟩
        | none => ⟨[], .startContentData, name, filename, type, data, fileMark, m⟩ := by
  rw [stage_eq]
  simp only [step]
  cases contentLength m.boundary memory t with
  | error e => rfl
  | ok n =>
    cases n with
    | none => rfl
    | some n => rfl

theorem step_startContentData (hcb : m.boundary = b) (hb : b ≠ []) (hcr : CR ∉ b)
    (h0 : 0 ∉ b) (hd : ¬ CRLF ++ ascii "--" ++ b <:+: data) :
    step memory ⟨data ++ (CRLF ++ (ascii "--" ++ (b ++ t))), .startContentData,
      name, filename, type,
      [], fileMark, m⟩ =
      .ok ⟨ascii "--" ++ (b ++ t), .endContentData, name, filename, type, data, fileMark, m⟩ := by
  have hn : contentLength b memory (data ++ (CRLF ++ (ascii "--" ++ (b ++ t)))) =
      .ok (some data.length) := contentLength_append hb hcr h0 hd t
  have hdrop : (data ++ (CRLF ++ (ascii "--" ++ (b ++ t)))).drop (data.length + 2) =
      ascii "--" ++ (b ++ t) := by
    rw [← List.drop_drop, List.drop_left]
    rfl
  rw [step_stage, stage_eq, hcb, hn]
  simp only [Except.map, Option.map_some, List.take_left, hdrop, List.nil_append]

end Steps

/-- The parser at the start of a part. -/
def start (m : HttpMultiPart) (rest : Bytes) : Cursor := ⟨rest, .startBody, [], [], [], [], false, m⟩

/-- What a part leaves in the maps. -/
def addPart (m : HttpMultiPart) : FormPart → HttpMultiPart
  | .field name data => { m with form := m.form.add name data }
  | .file name filename type data =>
    if m.files.contain name then m
    else { m with files := m.files.add name [⟨name, filename, type, data⟩] }

theorem parseLoop_step {c c' : Cursor} (hr : c.rest ≠ []) (h : step memory c = .ok c') :
    parseLoop memory c = parseLoop memory c' := by
  rw [parseLoop, dif_neg hr]
  split
  · rename_i e he
    rw [h] at he
    cases he
  · rename_i c'' hc
    rw [h] at hc
    cases hc
    rfl

theorem parseLoop_end {c : Cursor} (hr : c.rest = []) : parseLoop memory c = .ok c.multipart := by
  rw [parseLoop, dif_pos hr]

theorem addPart_boundary (m : HttpMultiPart) (p : FormPart) :
    (m.addPart p).boundary = m.boundary := by
  cases p with
  | field name data => rfl
  | file name filename type data =>
    simp only [addPart]
    split_ifs
    · rfl
    · rfl

section Run

variable {m : HttpMultiPart} (hm : m.boundary = b) (hb : b ≠ []) (hcr : CR ∉ b) (h0 : 0 ∉ b)
include hm hb hcr h0

omit hcr in
theorem parseLoop_boundary (t : Bytes) :
    parseLoop memory (start m (ascii "--" ++ (b ++ (CRLF ++ (ascii "Content-Disposition" ++ t))))) =
      parseLoop memory { start m t with state := .startContentDisposition } := by
  have hbne : b ++ (CRLF ++ (ascii "Content-Disposition" ++ t)) ≠ [] := by simp [hb]
  calc
    _ = parseLoop memory { start m (b ++ (CRLF ++ (ascii "Content-Disposition" ++ t))) with
          state := .startBoundary } := parseLoop_step (by simp [start, ascii]) step_startBody
    _ = parseLoop memory { start m (ascii "Content-Disposition" ++ t) with
          state := .endBoundary } := parseLoop_step hbne (step_startBoundary hm h0)
    _ = _ := parseLoop_step (by simp [start, ascii]) step_endBoundary

theorem parseLoop_field {name data : Bytes} (hn : Quotable name)
    (hd : ¬ CRLF ++ ascii "--" ++ b <:+: data) (t : Bytes) :
    parseLoop memory (start m ((FormPart.field name data).render b ++ (ascii "--" ++ (b ++ t)))) =
      parseLoop memory (start (m.addPart (.field name data)) (ascii "--" ++ (b ++ t))) := by
  let body : Bytes := data ++ (CRLF ++ (ascii "--" ++ (b ++ t)))
  have hrender : (FormPart.field name data).render b ++ (ascii "--" ++ (b ++ t)) =
      ascii "--" ++ (b ++ (CRLF ++ (ascii "Content-Disposition" ++ (ascii ": form-data; " ++
        (ascii "name" ++ (ascii "=\"" ++ (name ++ (ascii "\"" ++ (CRLF ++
          (CRLF ++ body)))))))))) := by
    simp [FormPart.render, FormPart.head, FormPart.data, ascii, body]
  rw [hrender, parseLoop_boundary hm hb h0]
  calc
    _ = parseLoop memory ⟨CRLF ++ body, .endContentDisposition, name, [], [], [], false, m⟩ :=
      parseLoop_step (by simp [ascii]) (step_disposition (disposition_field hn))
    _ = parseLoop memory ⟨body, .startContentData, name, [], [], [], false, m⟩ :=
      parseLoop_step (by simp [CRLF]) step_endContentDisposition_field
    _ = parseLoop memory ⟨ascii "--" ++ (b ++ t), .endContentData, name, [], [], data, false, m⟩ :=
      parseLoop_step (by simp [body, CRLF]) (step_startContentData hm hb hcr h0 hd)
    _ = _ := parseLoop_step (by simp [ascii]) rfl

theorem parseLoop_file {name filename type data : Bytes} (hn : Quotable name)
    (hf : Quotable filename) (ht : CR ∉ type) (hd : ¬ CRLF ++ ascii "--" ++ b <:+: data)
    (t : Bytes) :
    parseLoop memory (start m ((FormPart.file name filename type data).render b ++
      (ascii "--" ++ (b ++ t)))) =
      parseLoop memory (start (m.addPart (.file name filename type data))
        (ascii "--" ++ (b ++ t))) := by
  let body : Bytes := data ++ (CRLF ++ (ascii "--" ++ (b ++ t)))
  have hrender : (FormPart.file name filename type data).render b ++ (ascii "--" ++ (b ++ t)) =
      ascii "--" ++ (b ++ (CRLF ++ (ascii "Content-Disposition" ++ (ascii ": form-data; " ++
        (ascii "name" ++ (ascii "=\"" ++ (name ++ (ascii "\"" ++ (ascii "; filename" ++
          (ascii "=\"" ++ (filename ++ (ascii "\"" ++ (CRLF ++ (ascii "Content-Type: " ++
            (type ++ (CRLF ++ (CRLF ++ body))))))))))))))))) := by
    simp [FormPart.render, FormPart.head, FormPart.data, ascii, body]
  rw [hrender, parseLoop_boundary hm hb h0]
  calc
    _ = parseLoop memory ⟨ascii "Content-Type: " ++ (type ++ (CRLF ++ (CRLF ++ body))),
          .endContentDisposition, name, filename, [], [], false, m⟩ :=
      parseLoop_step (by simp [ascii]) (step_disposition (disposition_file hn hf))
    _ = parseLoop memory ⟨type ++ (CRLF ++ (CRLF ++ body)), .startContentType,
          name, filename, [], [], true, m⟩ :=
      parseLoop_step (by simp [ascii]) step_endContentDisposition_file
    _ = parseLoop memory ⟨CRLF ++ body, .endContentType, name, filename, type, [], true, m⟩ :=
      parseLoop_step (by simp [CRLF]) (step_startContentType ht)
    _ = parseLoop memory ⟨body, .startContentData, name, filename, type, [], true, m⟩ :=
      parseLoop_step (by simp [CRLF]) step_endContentType
    _ = parseLoop memory ⟨ascii "--" ++ (b ++ t), .endContentData,
          name, filename, type, data, true, m⟩ :=
      parseLoop_step (by simp [body, CRLF]) (step_startContentData hm hb hcr h0 hd)
    _ = _ := parseLoop_step (by simp [ascii]) rfl

/-- A rendered part is read whole, up to the delimiter of the next one. -/
theorem parseLoop_part {p : FormPart} (hp : p.Valid b) (t : Bytes) :
    parseLoop memory (start m (p.render b ++ (ascii "--" ++ (b ++ t)))) =
      parseLoop memory (start (m.addPart p) (ascii "--" ++ (b ++ t))) := by
  cases p with
  | field name data => exact parseLoop_field hm hb hcr h0 hp.1 hp.2 t
  | file name filename type data =>
    exact parseLoop_file hm hb hcr h0 hp.1 hp.2.1 hp.2.2.1 hp.2.2.2 t

omit hcr in
theorem parseLoop_close :
    parseLoop memory (start m (ascii "--" ++ (b ++ (ascii "--" ++ CRLF)))) = .ok m := by
  have hbne : b ++ (ascii "--" ++ CRLF) ≠ [] := by simp [hb]
  calc
    _ = parseLoop memory { start m (b ++ (ascii "--" ++ CRLF)) with state := .startBoundary } :=
      parseLoop_step (by simp [start, ascii]) step_startBody
    _ = parseLoop memory { start m CRLF with state := .endBody } :=
      parseLoop_step hbne (step_startBoundary_close hm h0)
    _ = parseLoop memory { start m [] with state := .endBody } :=
      parseLoop_step (by simp [start, CRLF]) rfl
    _ = .ok m := parseLoop_end rfl

end Run

/-- The parser folds the parts of a rendered body into its maps. -/
theorem parseLoop_renderBody (hb : b ≠ []) (hcr : CR ∉ b) (h0 : 0 ∉ b) {parts : List FormPart}
    (hv : ∀ p ∈ parts, p.Valid b) {m : HttpMultiPart} (hm : m.boundary = b) :
    parseLoop memory (start m (renderBody b parts)) = .ok (parts.foldl addPart m) := by
  induction parts generalizing m with
  | nil =>
    rw [renderBody, List.flatMap_nil, List.nil_append, List.append_assoc, List.append_assoc]
    exact parseLoop_close hm hb h0
  | cons p parts ih =>
    obtain ⟨t, ht⟩ : ∃ t, renderBody b parts = ascii "--" ++ (b ++ t) := by
      cases parts with
      | nil => exact ⟨ascii "--" ++ CRLF, by simp [renderBody]⟩
      | cons q parts =>
        refine ⟨CRLF ++ ascii "Content-Disposition: form-data; " ++ q.head ++ q.data ++ CRLF ++
          renderBody b parts, ?_⟩
        simp [renderBody, FormPart.render]
    have hcons : renderBody b (p :: parts) = p.render b ++ renderBody b parts := by
      simp [renderBody]
    rw [hcons, ht]
    apply (parseLoop_part hm hb hcr h0 (hv p (.head parts)) t).trans
    rw [← ht, List.foldl_cons]
    exact ih (fun q hq ↦ hv q (.tail p hq)) ((addPart_boundary m p).trans hm)

/-- The last value given to a field. -/
def lastField (parts : List FormPart) (name : Bytes) : Option Bytes :=
  parts.reverse.findSome? fun
    | .field n data => if n = name then some data else none
    | .file _ _ _ _ => none

def fileParts (parts : List FormPart) : List Part :=
  parts.filterMap fun
    | .field _ _ => none
    | .file name filename type data => some ⟨name, filename, type, data⟩

theorem foldl_addPart_form (b : Bytes) (parts : List FormPart) (name : Bytes) :
    (parts.foldl addPart ⟨b, ∅, ∅⟩).form.get name = lastField parts name := by
  induction parts using List.reverseRecOn with
  | nil => rfl
  | append_singleton parts p ih =>
    rw [List.foldl_append, List.foldl_cons, List.foldl_nil, lastField, List.reverse_append,
      List.reverse_singleton, List.singleton_append, List.findSome?_cons]
    cases p with
    | field n data =>
      by_cases h : n = name
      · subst h
        simp [addPart]
      · simp only [addPart, h, if_false]
        rw [HttpMap.get_add_of_ne _ _ (Ne.symm h)]
        exact ih
    | file n filename type data =>
      simp only [addPart]
      split_ifs
      · exact ih
      · exact ih

/-- A second file of one name is dropped. -/
theorem foldl_addPart_files (b : Bytes) (parts : List FormPart) (name : Bytes) :
    (parts.foldl addPart ⟨b, ∅, ∅⟩).files.get name =
      ((fileParts parts).find? (·.name = name)).map ([·]) := by
  induction parts using List.reverseRecOn with
  | nil => rfl
  | append_singleton parts p ih =>
    have happ : fileParts (parts ++ [p]) = fileParts parts ++ fileParts [p] :=
      List.filterMap_append
    rw [List.foldl_append, List.foldl_cons, List.foldl_nil, happ, List.find?_append]
    cases p with
    | field n data => simpa [addPart, fileParts] using ih
    | file n filename type data =>
      simp only [addPart]
      by_cases h : n = name
      · subst h
        split_ifs with hc
        · rw [HttpMap.contain, ih, Option.isSome_map] at hc
          rw [ih, Option.or_of_isSome hc]
        · rw [HttpMap.contain, ih, Option.isSome_map, Option.not_isSome_iff_eq_none] at hc
          rw [HttpMap.get_add_self, hc]
          simp [fileParts]
      · have hnone : (fileParts [.file n filename type data]).find? (·.name = name) = none := by
          simp [fileParts, h]
        rw [hnone, Option.or_none, ← ih]
        split_ifs
        · rfl
        · exact HttpMap.get_add_of_ne _ _ (Ne.symm h)

theorem find?_of_nodup_map {ps : List Part} (hd : (ps.map (·.name)).Nodup) {p : Part}
    (hp : p ∈ ps) : ps.find? (·.name = p.name) = some p := by
  induction ps with
  | nil => cases hp
  | cons q ps ih =>
    rw [List.map_cons, List.nodup_cons] at hd
    cases hp with
    | head => simp
    | tail _ hp =>
      have hne : q.name ≠ p.name := fun h ↦ hd.1 (h ▸ List.mem_map_of_mem hp)
      rw [List.find?_cons_of_neg (by simpa using hne)]
      exact ih hd.2 hp

/-- The parser gives back the form that was sent: the last value of each field
and every file with its name, file name, type and data. -/
theorem parse_renderBody (hb : b ≠ []) (hcr : CR ∉ b) (h0 : 0 ∉ b) {parts : List FormPart}
    (hv : ∀ p ∈ parts, p.Valid b) (hd : ((fileParts parts).map (·.name)).Nodup) (memory : Bytes) :
    ∃ m, parse ⟨b, ∅, ∅⟩ (renderBody b parts) memory = .ok m ∧
      (∀ name, m.form.get name = lastField parts name) ∧
      (∀ p ∈ fileParts parts, m.files.get p.name = some [p]) ∧
      ∀ name, (∀ p ∈ fileParts parts, p.name ≠ name) → m.files.get name = none := by
  refine ⟨parts.foldl addPart ⟨b, ∅, ∅⟩, parseLoop_renderBody hb hcr h0 hv rfl,
    foldl_addPart_form b parts, fun p hp ↦ ?_, fun name hn ↦ ?_⟩
  · rw [foldl_addPart_files, find?_of_nodup_map hd hp]
    rfl
  · rw [foldl_addPart_files, List.find?_eq_none.mpr (by simpa using hn)]
    rfl

theorem parse_renderBody_two :
    ∃ m, parse ⟨ascii "X", ∅, ∅⟩ (renderBody (ascii "X") [.field (ascii "a") (ascii "1"),
        .file (ascii "f") (ascii "t.txt") (ascii "text/plain") CRLF]) [] = .ok m ∧
      m.form.get (ascii "a") = some (ascii "1") ∧
      m.files.get (ascii "f") = some [⟨ascii "f", ascii "t.txt", ascii "text/plain", CRLF⟩] := by
  have hv : ∀ p ∈ [FormPart.field (ascii "a") (ascii "1"),
      .file (ascii "f") (ascii "t.txt") (ascii "text/plain") CRLF], p.Valid (ascii "X") := by
    intro p hp
    cases hp with
    | head => exact ⟨⟨by decide, by decide, by decide⟩, by decide⟩
    | tail _ hp =>
      obtain rfl := List.mem_singleton.mp hp
      exact ⟨⟨by decide, by decide, by decide⟩, ⟨by decide, by decide, by decide⟩, by decide,
        by decide⟩
  obtain ⟨m, hm, hform, hfiles, -⟩ :=
    parse_renderBody (by decide) (by decide) (by decide) hv (by decide) []
  exact ⟨m, hm, hform _, hfiles _ (.head [])⟩

end Socnet.Http.HttpMultiPart
