import Socnet.Http.RequestHead

namespace Socnet.Http.HttpRequest

open Lib Sequence Net

/-- The first line of a text, with the CRLF that ends it. -/
def firstLine (text : Bytes) : Bytes :=
  match find CRLF text with
  | some pos => text.take (pos + 2)
  | none => text

/-- A request line of the three methods and versions. -/
def RequestLine (line : Bytes) : Prop :=
  ∃ (m : HttpMethod) (target : Bytes) (v : HttpVersion), SP ∉ target ∧
    line = m.text ++ SP :: (target ++ SP :: (v.text ++ CRLF))

/-- The parser is done with a request line just when the first line is one, and refuses
everything else without taking it. -/
def LineByGrammar (r : HttpRequest) : Prop :=
  (RequestLine (firstLine r.recver.peek) →
    ∃ r', r.parseRequestLine = .ok r' ∧ r'.retCode = .requestLineDone) ∧
  (¬ RequestLine (firstLine r.recver.peek) →
    ∃ r', r.parseRequestLine = .ok r' ∧ r'.retCode = .badRequest ∧
      r'.recver.peek = r.recver.peek)

/-- A text that the parser splits into a method, one byte, a target up to the next
space, and a version. -/
structure Split (text : Bytes) where
  method : HttpMethod
  skipped : UInt8
  target : Bytes
  version : HttpVersion
  rest : Bytes
  space_notMem : SP ∉ target
  eq : text = method.text ++ skipped :: (target ++ SP :: (version.text ++ rest))

/-- The bytes that the parser skips unseen are those of a request line. -/
def Split.Sound {text : Bytes} (s : Split text) : Prop :=
  s.skipped = SP ∧ ¬ CRLF <:+: s.target ∧ CRLF <+: s.rest

/-- A text of this form is taken for a request line, whatever the skipped bytes are. -/
theorem parseRequestLine_split (r : HttpRequest) (s : Split r.recver.peek) :
    (2 ≤ s.rest.length →
      ∃ r', r.parseRequestLine = .ok r' ∧ r'.retCode = .requestLineDone) ∧
    (s.rest.length < 2 → r.parseRequestLine = .error .pastEnd) := by
  obtain ⟨m, x, target, v, rest, hsp, hpeek⟩ := s
  have hver := version_length v
  have hd : (m.text ++ x :: (target ++ SP :: (v.text ++ rest))).drop (m.text.length + 1) =
      target ++ SP :: (v.text ++ rest) := by simp [← List.drop_drop]
  have hd' : (target ++ SP :: (v.text ++ rest)).drop (target.length + 1) = v.text ++ rest := by
    simp [← List.drop_drop]
  have hparse : r.parseRequestLine = (do
      let _ ← removePrefix 10 (v.text ++ rest)
      .ok { r with
        method := some m
        reqUrl := target
        version := some v
        recver := r.recver.retired (m.text.length + 1 + (target.length + 1) + 10)
        retCode := .requestLineDone }) := by
    unfold parseRequestLine
    rw [hpeek, startMethod_text]
    dsimp only
    rw [removePrefix_of_le (by simp)]
    simp only [hd, bind, Except.bind]
    rw [find_singleton hsp]
    dsimp only
    rw [removePrefix_of_le (by simp)]
    simp only [hd', startVersion_text, List.take_left]
  have hlen : (v.text ++ rest).length = 8 + rest.length := by rw [List.length_append, hver]
  rw [hparse]
  constructor
  · intro h
    rw [removePrefix_of_le (by dsimp only at h; omega)]
    exact ⟨_, rfl, rfl⟩
  · intro h
    rw [removePrefix_of_lt (by dsimp only at h; omega)]
    rfl

theorem not_crlf_method (m : HttpMethod) : ¬ CRLF <:+: m.text := by
  cases m <;> decide

/-- Any other text is refused and left. -/
theorem parseRequestLine_refused (r : HttpRequest) (hc : CRLF <:+: r.recver.peek)
    (hs : IsEmpty (Split r.recver.peek)) :
    ∃ r', r.parseRequestLine = .ok r' ∧ r'.retCode = .badRequest ∧ r'.recver = r.recver := by
  unfold parseRequestLine
  cases hm : startMethod r.recver.peek with
  | none => exact ⟨_, rfl, rfl, rfl⟩
  | some p =>
    obtain ⟨m, i⟩ := p
    obtain ⟨⟨behind, hpeek⟩, rfl⟩ := startMethod_eq_some hm
    cases behind with
    | nil =>
      rw [← hpeek, List.append_nil] at hc
      exact absurd hc (not_crlf_method m)
    | cons x line =>
      have hlen : m.text.length + 1 ≤ r.recver.peek.length := by simp [← hpeek]
      have hdrop : r.recver.peek.drop (m.text.length + 1) = line := by
        simp [← hpeek, ← List.drop_drop]
      dsimp only
      rw [removePrefix_of_le hlen, hdrop]
      simp only [bind, Except.bind]
      cases hp : find [SP] line with
      | none => exact ⟨_, rfl, rfl, rfl⟩
      | some pos =>
        have hpos : pos + 1 ≤ line.length := find_length hp
        obtain ⟨hsplit, hno⟩ := find_split (by simp) hp
        rw [List.singleton_infix_iff] at hno
        dsimp only
        rw [removePrefix_of_le hpos]
        dsimp only
        cases hv : startVersion (line.drop (pos + 1)) with
        | none => exact ⟨_, rfl, rfl, rfl⟩
        | some v =>
          obtain ⟨rest, hrest⟩ := startVersion_eq_some hv
          refine hs.elim ⟨m, x, line.take pos, v, rest, hno, ?_⟩
          rw [hrest, ← hpeek]
          simpa using hsplit

/-- A text is split in one way only. -/
theorem Split.unique {text : Bytes} (s t : Split text) : s = t := by
  obtain ⟨m, x, target, v, rest, hsp, heq⟩ := s
  obtain ⟨m', x', target', v', rest', hsp', heq'⟩ := t
  have hm := startMethod_text m (x :: (target ++ SP :: (v.text ++ rest)))
  rw [← heq, heq', startMethod_text] at hm
  obtain ⟨rfl, -⟩ := Prod.mk.inj (Option.some.inj hm)
  obtain ⟨rfl, hline⟩ := List.cons.inj (List.append_cancel_left (heq.symm.trans heq'))
  have hpos := find_singleton hsp (v.text ++ rest)
  rw [hline, find_singleton hsp'] at hpos
  obtain ⟨rfl, htail⟩ := List.append_inj hline (Option.some.inj hpos).symm
  have hbehind := (List.cons.inj htail).2
  have hv := startVersion_text v rest
  rw [hbehind, startVersion_text] at hv
  obtain rfl := Option.some.inj hv
  obtain rfl := List.append_cancel_left hbehind
  rfl

/-- Without a line end in the target there is none before the end of the version. -/
theorem not_crlf_line {m : HttpMethod} {target : Bytes} {v : HttpVersion}
    (ht : ¬ CRLF <:+: target) : ¬ CRLF <:+: m.text ++ SP :: (target ++ SP :: v.text) := by
  have hm : CR ∉ m.text ++ [SP] := by cases m <;> decide
  have hv : CR ∉ SP :: v.text ∧ LF ∉ SP :: v.text := by cases v <;> decide
  intro h
  rw [← List.singleton_append, ← List.append_assoc] at h
  have h := infix_of_infix_append hm h
  rcases List.infix_append_iff_ne_nil.mp h with h | h | ⟨l₁, l₂, h₁, h₂, hl, -, hpre⟩
  · exact ht h
  · exact hv.1 (h.subset (.head _))
  · -- the end of the target and the space behind it are no line end
    have hmem : LF ∈ l₂ := by
      cases l₁ with
      | nil => exact absurd rfl h₁
      | cons a l₁ =>
        obtain ⟨-, hl⟩ := List.cons.inj hl
        cases l₁ with
        | nil =>
          have hl : [LF] = l₂ := hl
          rw [← hl]
          exact List.mem_singleton_self LF
        | cons c l₁ =>
          obtain ⟨-, hl⟩ := List.cons.inj hl
          exact absurd (List.append_eq_nil_iff.mp hl.symm).2 h₂
    exact hv.2 (hpre.subset hmem)

/-- The first line is a request line just when the text is split with nothing else in
the skipped places. -/
theorem requestLine_firstLine_iff {text : Bytes} (hc : CRLF <:+: text) :
    RequestLine (firstLine text) ↔ ∃ s : Split text, s.Sound := by
  constructor
  · intro h
    obtain ⟨m, target, v, hsp, hline⟩ := h
    unfold firstLine at hline
    cases hf : find CRLF text with
    | none => exact absurd hc (find_eq_none hf)
    | some pos =>
      obtain ⟨hsplit, hno⟩ := find_split (by simp [CRLF]) hf
      have htake : text.take (pos + 2) = text.take pos ++ CRLF :=
        take_of_find (by simp [CRLF]) hf
      rw [hf] at hline
      dsimp only at hline
      have hu : text.take pos = m.text ++ SP :: (target ++ SP :: v.text) := by
        apply (List.append_left_inj CRLF).mp
        rw [← htake, hline]
        simp
      have ht : ¬ CRLF <:+: target := by
        intro h
        refine hno (h.trans ⟨m.text ++ [SP], SP :: v.text, ?_⟩)
        rw [hu]
        simp
      have heq : text = m.text ++ SP :: (target ++ SP :: (v.text ++
          (CRLF ++ text.drop (pos + 2)))) := by
        rw [hu] at hsplit
        apply hsplit.trans
        simp [CRLF]
      exact ⟨⟨m, SP, target, v, _, hsp, heq⟩, rfl, ht, List.prefix_append _ _⟩
  · intro h
    obtain ⟨⟨m, x, target, v, rest, hsp, heq⟩, hx, ht, rest', rfl⟩ := h
    dsimp only at hx ht
    subst hx
    refine ⟨m, target, v, hsp, ?_⟩
    have hfind : find CRLF text = some (m.text ++ SP :: (target ++ SP :: v.text)).length := by
      have h := find_pair CR_ne_LF (not_crlf_line (m := m) (v := v) ht) rest'
      rw [heq, ← h]
      simp [CRLF]
    rw [firstLine, hfind]
    refine (take_of_find (by simp [CRLF]) hfind).trans ?_
    have hfront : m.text ++ SP :: (target ++ SP :: v.text) <+: text := by
      refine ⟨CRLF ++ rest', ?_⟩
      rw [heq]
      simp
    rw [← List.prefix_iff_eq_take.mp hfront]
    simp

/-- The request line is parsed by its grammar only where the bytes that the parser
skips are those of a request line. -/
theorem LineByGrammar.sound {r : HttpRequest} (hc : CRLF <:+: r.recver.peek)
    (h : r.LineByGrammar) (s : Split r.recver.peek) : s.Sound := by
  have hparse := parseRequestLine_split r s
  by_contra hs
  have hline : ¬ RequestLine (firstLine r.recver.peek) := by
    intro hl
    obtain ⟨t, ht⟩ := (requestLine_firstLine_iff hc).mp hl
    exact hs (s.unique t ▸ ht)
  obtain ⟨r', hr', hcode, -⟩ := h.2 hline
  by_cases hlen : 2 ≤ s.rest.length
  · obtain ⟨r'', hr'', hdone⟩ := hparse.1 hlen
    obtain rfl := Except.ok.inj (hr'.symm.trans hr'')
    rw [hcode] at hdone
    cases hdone
  · rw [hparse.2 (not_le.mp hlen)] at hr'
    cases hr'

/-- On a buffer that holds a line end, the request line is parsed by its grammar just
when the byte behind the method is a space, the target holds no line end and the version
is followed by one, wherever the parser finds a method, a target and a version. -/
theorem lineByGrammar_iff (r : HttpRequest) (hc : CRLF <:+: r.recver.peek) :
    r.LineByGrammar ↔ ∀ s : Split r.recver.peek, s.Sound := by
  constructor
  · exact LineByGrammar.sound hc
  · intro h
    refine ⟨fun hl ↦ ?_, fun hl ↦ ?_⟩
    · obtain ⟨s, -, -, hrest⟩ := (requestLine_firstLine_iff hc).mp hl
      exact (parseRequestLine_split r s).1 hrest.length_le
    · have hs : IsEmpty (Split r.recver.peek) := by
        refine ⟨fun s ↦ hl ?_⟩
        exact (requestLine_firstLine_iff hc).mpr ⟨s, h s⟩
      obtain ⟨r', hr', hcode, hrecver⟩ := parseRequestLine_refused r hc hs
      exact ⟨r', hr', hcode, by rw [hrecver]⟩

theorem lineByGrammar_iff_get :
    (init (Buffer.init.append (ascii "GET / HTTP/1.1\r\n"))).LineByGrammar := by
  have hpeek : (init (Buffer.init.append (ascii "GET / HTTP/1.1\r\n"))).recver.peek =
      ascii "GET / HTTP/1.1\r\n" := by
    rw [init, Buffer.peek_append, Buffer.peek_init]
    rfl
  refine (lineByGrammar_iff _ (by rw [hpeek]; decide)).mpr fun s ↦ ?_
  have htarget : ¬ CRLF <:+: ascii "/" := by decide
  rw [s.unique ⟨.get, SP, ascii "/", .http11, CRLF, by decide, hpeek⟩]
  exact ⟨rfl, htarget, List.prefix_rfl⟩

/-- Any byte stands for the space behind the method. -/
theorem not_lineByGrammar :
    ¬ (init (Buffer.init.append (ascii "GET+/ HTTP/1.1\r\n"))).LineByGrammar := by
  intro h
  have hpeek : (init (Buffer.init.append (ascii "GET+/ HTTP/1.1\r\n"))).recver.peek =
      ascii "GET+/ HTTP/1.1\r\n" := by
    rw [init, Buffer.peek_append, Buffer.peek_init]
    rfl
  let s : Split (init (Buffer.init.append (ascii "GET+/ HTTP/1.1\r\n"))).recver.peek :=
    ⟨.get, '+'.toUInt8, ascii "/", .http11, CRLF, by decide, hpeek⟩
  have hskipped : '+'.toUInt8 = SP := (h.sound (by rw [hpeek]; decide) s).1
  exact absurd hskipped (by decide)

end Socnet.Http.HttpRequest
