import Socnet.Http.RequestHead

namespace Socnet.Http.HttpRequest

open Lib Sequence Net RequestHead

/-- Reads fed one by one to a request, with the codes its parser returns. -/
def feed (store : HttpPassStore) (r : HttpRequest) :
    List Bytes → Except Fault (List RetCode × HttpRequest)
  | [] => .ok ([], r)
  | b :: chunks => do
    let (code, r) ← (r.received b).parseRequest store
    let (codes, r) ← feed store r chunks
    .ok (code :: codes, r)

/-- The bytes of a request head in reads none of which is empty, with a cut in
the start line. -/
def CutInStartLine (q : RequestHead) (chunks : List Bytes) : Prop :=
  (∀ b ∈ chunks, b ≠ []) ∧ chunks.flatten = q.text ∧
    ∃ i < chunks.length, 0 < i ∧ (chunks.take i).flatten.length < q.startLine.length

instance (q : RequestHead) : DecidablePred (CutInStartLine q) := fun _ ↦
  inferInstanceAs (Decidable (_ ∧ _ ∧ _))

/-- No bad request on the way, and in the end the head that one read gives. -/
def SegmentationIndependent (store : HttpPassStore) (q : RequestHead) (chunks : List Bytes) :
    Prop :=
  ∃ codes r code r₁, (init Buffer.init).feed store chunks = .ok (codes, r) ∧
    .badRequest ∉ codes ∧ (init Buffer.init).feed store [q.text] = .ok ([code], r₁) ∧
    r.method = r₁.method ∧ r.reqUrl = r₁.reqUrl ∧ r.version = r₁.version ∧ r.header = r₁.header

theorem startMethod_append {b : Bytes} {p : HttpMethod × ℕ} (h : startMethod b = some p)
    (t : Bytes) : startMethod (b ++ t) = some p := by
  obtain ⟨m, i⟩ := p
  obtain ⟨⟨rest, rfl⟩, rfl⟩ := startMethod_eq_some h
  rw [List.append_assoc, startMethod_text]

theorem parseRequestLine_cases (r : HttpRequest) :
    r.parseRequestLine = .error .pastEnd ∨
    (∃ r', r.parseRequestLine = .ok r' ∧ r'.retCode = .badRequest) ∨
    ∃ m i pos, startMethod r.recver.peek = some (m, i) ∧ i ≤ r.recver.peek.length ∧
      find [SP] (r.recver.peek.drop i) = some pos ∧ i + (pos + 1) + 10 ≤ r.recver.peek.length := by
  unfold parseRequestLine
  cases hm : startMethod r.recver.peek with
  | none => exact .inr (.inl ⟨_, rfl, rfl⟩)
  | some p =>
    obtain ⟨m, i⟩ := p
    by_cases hi : i ≤ r.recver.peek.length
    · simp only [removePrefix_of_le hi, bind, Except.bind]
      cases hp : find [SP] (r.recver.peek.drop i) with
      | none => exact .inr (.inl ⟨_, rfl, rfl⟩)
      | some pos =>
        have hlen : pos + 1 ≤ (r.recver.peek.drop i).length := find_length hp
        simp only [removePrefix_of_le hlen]
        cases startVersion ((r.recver.peek.drop i).drop (pos + 1)) with
        | none => exact .inr (.inl ⟨_, rfl, rfl⟩)
        | some v =>
          by_cases hten : 10 ≤ ((r.recver.peek.drop i).drop (pos + 1)).length
          · refine .inr (.inr ⟨m, i, pos, rfl, hi, hp, ?_⟩)
            simp only [List.length_drop] at hten hlen
            omega
          · simp only [removePrefix_of_lt (not_le.mp hten)]
            exact .inl trivial
    · simp only [removePrefix_of_lt (not_le.mp hi), bind, Except.bind]
      exact .inl trivial

theorem parseRequestLine_cut (r : HttpRequest) (q : RequestHead)
    (hpre : r.recver.peek <+: q.startLine)
    (hlen : r.recver.peek.length < q.startLine.length) :
    r.parseRequestLine = .error .pastEnd ∨
      ∃ r', r.parseRequestLine = .ok r' ∧ r'.retCode = .badRequest := by
  rcases r.parseRequestLine_cases with h | h | ⟨m, i, pos, hm, hi, hpos, hend⟩
  · exact .inl h
  · exact .inr h
  · exfalso
    obtain ⟨t, ht⟩ := hpre
    have hmethod := startMethod_append hm t
    rw [ht, startLine, startMethod_text] at hmethod
    cases hmethod
    have hspace := find_append hpos t
    rw [← List.drop_append_of_le_length hi, ht, startLine] at hspace
    have hdrop : (q.method.text ++ SP :: (q.target ++ SP :: (q.version.text ++ CRLF))).drop
        (q.method.text.length + 1) = q.target ++ SP :: (q.version.text ++ CRLF) := by
      simp [← List.drop_drop]
    rw [hdrop, find_singleton q.space_notMem] at hspace
    cases hspace
    rw [length_startLine] at hlen
    omega

theorem parseRequest_cut (store : HttpPassStore) (r : HttpRequest) (q : RequestHead)
    (hcode : r.retCode = .noRequest) (hpre : r.recver.peek <+: q.startLine)
    (hlen : r.recver.peek.length < q.startLine.length) :
    r.parseRequest store = .error .pastEnd ∨
      ∃ r', r.parseRequest store = .ok (.badRequest, r') := by
  rw [parseRequest_eq, turn, hcode]
  rcases parseRequestLine_cut r q hpre hlen with h | ⟨r', h, hbad⟩
  · exact .inl (by simp [h, bind, Except.bind])
  · refine .inr ⟨r', ?_⟩
    simp only [h, bind, Except.bind]
    rw [parseRequest_eq, turn, hbad]

theorem first_chunk {q : RequestHead} {chunks : List Bytes} (h : CutInStartLine q chunks) :
    ∃ b rest, chunks = b :: rest ∧ b <+: q.startLine ∧ b.length < q.startLine.length := by
  obtain ⟨-, hcat, i, hi, hpos, hcut⟩ := h
  cases chunks with
  | nil => simp at hi
  | cons b rest =>
    obtain ⟨j, rfl⟩ : ∃ j, i = j + 1 := ⟨i - 1, by omega⟩
    rw [List.take_succ_cons, List.flatten_cons, List.length_append] at hcut
    have hb : b.length < q.startLine.length := by omega
    refine ⟨b, rest, rfl, ?_, hb⟩
    have hpre : b <+: q.text := by
      rw [← hcat, List.flatten_cons]
      exact List.prefix_append _ _
    exact List.prefix_of_prefix_length_le hpre (List.prefix_append _ _) hb.le

theorem feed_cut (store : HttpPassStore) {q : RequestHead} {chunks : List Bytes}
    (h : CutInStartLine q chunks) {codes : List RetCode} {r : HttpRequest}
    (hf : (init Buffer.init).feed store chunks = .ok (codes, r)) : .badRequest ∈ codes := by
  obtain ⟨b, rest, rfl, hpre, hlen⟩ := first_chunk h
  have hpeek : ((init Buffer.init).received b).recver.peek = b := by simp [received, init]
  obtain ⟨⟨code, r₁⟩, h₁, hf⟩ := bind_eq_ok.mp hf
  obtain ⟨⟨codes', r₂⟩, -, hf⟩ := bind_eq_ok.mp hf
  cases hf
  rw [← hpeek] at hpre hlen
  rcases parseRequest_cut store _ q rfl hpre hlen with he | ⟨r', he⟩
  · rw [he] at h₁
    cases h₁
  · rw [he] at h₁
    cases h₁
    exact List.mem_cons_self

/-- No cut in the start line is survived. -/
theorem startLine_not_segmentable (store : HttpPassStore) (q : RequestHead) (chunks : List Bytes)
    (h : CutInStartLine q chunks) : ¬ SegmentationIndependent store q chunks := by
  rintro ⟨codes, r, code, r₁, hf, hno, -⟩
  exact hno (feed_cut store h hf)

theorem startLine_not_segmentable_target : ¬ SegmentationIndependent ⟨id, [], ∅⟩
    ⟨.post, ascii "/a?b=c", .http10, [], by decide⟩
    [ascii "POST", ascii " /a?b=c HTTP/1.0\r", ascii "\n\r\n"] :=
  startLine_not_segmentable _ _ _ (by decide)

/-- The start line is cut in its version. -/
theorem cut_in_version :
    CutInStartLine ⟨.get, ascii "/", .http11, [], by decide⟩
      [ascii "GET / HT", ascii "TP/1.1\r\n\r\n"] ∧
    ¬ SegmentationIndependent ⟨id, [], ∅⟩ ⟨.get, ascii "/", .http11, [], by decide⟩
      [ascii "GET / HT", ascii "TP/1.1\r\n\r\n"] := by
  have hcut : CutInStartLine ⟨.get, ascii "/", .http11, [], by decide⟩
      [ascii "GET / HT", ascii "TP/1.1\r\n\r\n"] := by decide
  refine ⟨hcut, ?_⟩
  rintro ⟨codes, r, code, r₁, hf, hno, -⟩
  exact hno (feed_cut _ hcut hf)

end Socnet.Http.HttpRequest
