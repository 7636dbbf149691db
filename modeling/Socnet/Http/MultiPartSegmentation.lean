import Socnet.Http.MultiPartTermination
import Socnet.Http.RequestHead

namespace Socnet.Http.HttpRequest

open Lib Net HttpMultiPart

variable (r : HttpRequest)

/-- `parseRequestContent` after each of a sequence of reads, and what it returns. -/
def contentReads (r : HttpRequest) : List Bytes → Except Fault (List RetCode × HttpRequest)
  | [] => .ok ([], r)
  | b :: reads => do
    let r ← (r.received b).parseRequestContent
    let (codes, r') ← contentReads r reads
    .ok (r.retCode :: codes, r')

/-- The bytes that end a multipart body. -/
def eob : Bytes := ascii "--" ++ r.multipart.boundary ++ ascii "--" ++ CRLF

/-- What is readable at each of a sequence of reads that leave everything in the
buffer, put together. -/
def retried (seen : Bytes) : List Bytes → Bytes
  | [] => []
  | b :: reads => seen ++ b ++ retried (seen ++ b) reads

theorem retried_nil_iff (reads : List Bytes) : retried [] reads = [] ↔ ∀ b ∈ reads, b = [] := by
  induction reads with
  | nil => simp [retried]
  | cons b reads ih =>
    rw [retried, List.nil_append, List.append_eq_nil_iff, List.forall_mem_cons]
    constructor
    · intro h
      obtain ⟨rfl, h⟩ := h
      exact ⟨rfl, ih.mp h⟩
    · intro h
      obtain ⟨rfl, h⟩ := h
      exact ⟨rfl, ih.mpr h⟩

/-- A request whose body has come in part. -/
def waiting (reads : List Bytes) : HttpRequest :=
  { r with
    recver := reads.foldl Buffer.append r.recver
    postData := r.postData ++ retried r.recver.peek reads
    retCode := if reads = [] then r.retCode else .againContent }

theorem peek_foldl_append (b : Buffer) (reads : List Bytes) :
    (reads.foldl Buffer.append b).peek = b.peek ++ reads.flatten := by
  rw [← List.flatMap_id]
  exact Buffer.peek_foldl_append id reads b

/-- A body that has not come to its end is left in the buffer and added to `post_data_`
all the same. -/
theorem parseRequestContent_again {r : HttpRequest} (hm : r.hasMultipart)
    (he : ¬ r.eob <:+ r.recver.peek) : r.parseRequestContent =
      .ok { r with postData := r.postData ++ r.recver.peek, retCode := .againContent } := by
  unfold parseRequestContent
  exact (if_pos hm).trans (if_pos he)

/-- Before the end of the body every read is answered with `AGAIN_CONTENT`, and adds
all that is readable to `post_data_`. -/
theorem contentReads_waiting {r : HttpRequest} (hm : r.hasMultipart) {reads : List Bytes}
    (he : ∀ u, u <+: r.recver.peek ++ reads.flatten → ¬ r.eob <:+ u) :
    r.contentReads reads = .ok (List.replicate reads.length .againContent, r.waiting reads) := by
  induction reads generalizing r with
  | nil => simp [contentReads, waiting, retried]
  | cons b reads ih =>
    have hpeek : (r.received b).recver.peek = r.recver.peek ++ b := by simp [received]
    have hb : ¬ (r.received b).eob <:+ (r.received b).recver.peek := by
      rw [hpeek]
      apply he _
      rw [List.flatten_cons, ← List.append_assoc]
      exact List.prefix_append _ _
    let s : HttpRequest := { r.received b with
      postData := r.postData ++ (r.received b).recver.peek, retCode := .againContent }
    have hagain : (r.received b).parseRequestContent = .ok s :=
      parseRequestContent_again (r := r.received b) hm hb
    have hrest : s.contentReads reads =
        .ok (List.replicate reads.length .againContent, s.waiting reads) := by
      apply ih (r := s) hm
      change ∀ u, u <+: (r.received b).recver.peek ++ reads.flatten → ¬ r.eob <:+ u
      rwa [hpeek, List.append_assoc, ← List.flatten_cons]
    have hwaiting : s.waiting reads = r.waiting (b :: reads) := by
      simp [s, waiting, retried, received]
    rw [contentReads, hagain]
    simp only [bind, Except.bind, hrest, hwaiting]
    rfl

/-- Reads one after the other. -/
theorem contentReads_append {r r' : HttpRequest} {reads : List Bytes} {codes : List RetCode}
    (h : r.contentReads reads = .ok (codes, r')) (more : List Bytes) :
    r.contentReads (reads ++ more) =
      (r'.contentReads more).map fun p ↦ (codes ++ p.1, p.2) := by
  induction reads generalizing r codes with
  | nil =>
    cases h
    rw [List.nil_append]
    cases r'.contentReads more <;> rfl
  | cons b reads ih =>
    rw [contentReads] at h
    obtain ⟨r₁, h₁, h⟩ := bind_eq_ok.mp h
    obtain ⟨⟨codes₁, r₂⟩, h₂, h⟩ := bind_eq_ok.mp h
    cases h
    rw [List.cons_append, contentReads, h₁]
    simp only [bind, Except.bind, ih h₂]
    cases r'.contentReads more <;> rfl

theorem parseRequestContent_done {r : HttpRequest} (hm : r.hasMultipart)
    (he : r.eob <:+ r.recver.peek) : r.parseRequestContent =
      (r.multipart.parse r.recver.peek r.recver.memory).map fun multipart ↦
        { r with
          postData := r.postData ++ r.recver.peek
          multipart
          recver := r.recver.retiredAll
          retCode := .requestContentDone } := by
  unfold parseRequestContent
  apply ((if_pos hm).trans (if_neg (not_not.mpr he))).trans
  cases r.multipart.parse r.recver.peek r.recver.memory with
  | error e => rfl
  | ok multipart => rfl

/-- The body comes in reads of which the last brings its end, and is taken up as it
would be in one read: each read before the last is answered with `AGAIN_CONTENT`, and
at the end `post_data_` is the body and the form is the same. -/
def SameAsWhole (reads : List Bytes) (last : Bytes) : Prop :=
  (∃ r', r.contentReads reads = .ok (List.replicate reads.length .againContent, r')) ∧
    ∀ whole, (r.received (reads.flatten ++ last)).parseRequestContent = .ok whole →
      ∃ r', r.contentReads (reads ++ [last]) =
          .ok (List.replicate reads.length .againContent ++ [.requestContentDone], r') ∧
        r'.postData = reads.flatten ++ last ∧ r'.multipart = whole.multipart

/-- The request after its last read, as far as its body has been parsed. -/
def completed (r : HttpRequest) (reads : List Bytes) (last : Bytes) (multipart : HttpMultiPart) :
    HttpRequest :=
  { (r.waiting reads).received last with
    postData := r.postData ++ retried [] reads ++ (reads.flatten ++ last)
    multipart
    recver := ((r.waiting reads).received last).recver.retiredAll
    retCode := .requestContentDone }

theorem waiting_recver_of_nil {reads : List Bytes} (h : ∀ b ∈ reads, b = []) :
    (r.waiting reads).recver = r.recver := by
  have hfold (b : Buffer) : reads.foldl Buffer.append b = b := by
    induction reads with
    | nil => rfl
    | cons d reads ih =>
      obtain ⟨rfl, hreads⟩ := List.forall_mem_cons.mp h
      exact ih hreads
  exact hfold r.recver

section Whole

variable {r : HttpRequest} (hm : r.hasMultipart) (hpeek : r.recver.peek = [])
  (hpost : r.postData = []) {reads : List Bytes} {last : Bytes} (hlast : last ≠ [])
  (heob : r.eob <:+ reads.flatten ++ last)
  (honce : ∀ u, u <+: reads.flatten ++ last → r.eob <:+ u → u = reads.flatten ++ last)
include hm hpeek hlast honce

theorem contentReads_before_last :
    r.contentReads reads = .ok (List.replicate reads.length .againContent, r.waiting reads) := by
  refine contentReads_waiting hm fun u hu he ↦ hlast ?_
  rw [hpeek, List.nil_append] at hu
  have hwhole := honce u (hu.trans (List.prefix_append _ _)) he
  have hle := hu.length_le
  rw [hwhole, List.length_append] at hle
  exact List.eq_nil_of_length_eq_zero (by omega)

include heob in
/-- What the last read completes. -/
theorem contentReads_last :
    r.contentReads (reads ++ [last]) =
      (r.multipart.parse (reads.flatten ++ last)
        ((r.waiting reads).received last).recver.memory).map fun multipart ↦
          (List.replicate reads.length .againContent ++ [.requestContentDone],
            completed r reads last multipart) := by
  have hbefore := contentReads_before_last hm hpeek hlast honce
  have hwhole : ((r.waiting reads).received last).recver.peek = reads.flatten ++ last := by
    simp [waiting, received, peek_foldl_append, hpeek]
  have hpost : ((r.waiting reads).received last).postData = r.postData ++ retried [] reads := by
    simp [waiting, received, hpeek]
  have hdone : ((r.waiting reads).received last).parseRequestContent =
      (r.multipart.parse (reads.flatten ++ last)
        ((r.waiting reads).received last).recver.memory).map (completed r reads last) := by
    have h := parseRequestContent_done (r := (r.waiting reads).received last) hm (hwhole ▸ heob)
    rw [hwhole, hpost] at h
    exact h
  rw [contentReads_append hbefore, contentReads, hdone]
  cases r.multipart.parse (reads.flatten ++ last)
    ((r.waiting reads).received last).recver.memory <;> rfl

omit hlast honce in
include heob in
theorem parseRequestContent_whole :
    (r.received (reads.flatten ++ last)).parseRequestContent =
      (r.multipart.parse (reads.flatten ++ last)
        (r.received (reads.flatten ++ last)).recver.memory).map fun multipart ↦
          { r.received (reads.flatten ++ last) with
            postData := r.postData ++ (reads.flatten ++ last)
            multipart
            recver := (r.received (reads.flatten ++ last)).recver.retiredAll
            retCode := .requestContentDone } := by
  have hbody : (r.received (reads.flatten ++ last)).recver.peek = reads.flatten ++ last := by
    simp [received, hpeek]
  have hend : (r.received (reads.flatten ++ last)).eob <:+
      (r.received (reads.flatten ++ last)).recver.peek := by
    rw [hbody]
    exact heob
  have h := parseRequestContent_done (r := r.received (reads.flatten ++ last)) hm hend
  rw [hbody] at h
  exact h

include heob hpost

/-- A body that the parser gets through is taken up once only if it is undivided. -/
theorem SameAsWhole.reads_nil (h : r.SameAsWhole reads last)
    (hf : FormText r.multipart.boundary (r.received (reads.flatten ++ last)).recver.memory
      (reads.flatten ++ last)) : ∀ b ∈ reads, b = [] := by
  have hlastRead := contentReads_last hm hpeek hlast heob honce
  have hwhole := parseRequestContent_whole hm hpeek heob
  obtain ⟨m, hparse⟩ := (parseLoop_ok_iff (start r.multipart (reads.flatten ++ last)) rfl).mpr hf
  change r.multipart.parse (reads.flatten ++ last) _ = .ok m at hparse
  rw [hparse] at hwhole
  obtain ⟨r', hr', hpost', -⟩ := h.2 _ hwhole
  rw [hlastRead] at hr'
  cases hp : r.multipart.parse (reads.flatten ++ last)
      ((r.waiting reads).received last).recver.memory with
  | error e =>
    rw [hp] at hr'
    cases hr'
  | ok m' =>
    rw [hp] at hr'
    cases hr'
    rw [completed, hpost, List.nil_append] at hpost'
    exact (retried_nil_iff reads).mp (List.append_left_eq_self.mp hpost')

/-- A multipart body that comes in several reads is taken up as in one read just when
nothing of it comes before the last; a body that the parser does not get through is never
taken up. -/
theorem sameAsWhole_iff :
    r.SameAsWhole reads last ↔
      (FormText r.multipart.boundary (r.received (reads.flatten ++ last)).recver.memory
        (reads.flatten ++ last) → ∀ b ∈ reads, b = []) := by
  constructor
  · intro h hf
    exact h.reads_nil hm hpeek hpost hlast heob honce hf
  · intro h
    refine ⟨⟨_, contentReads_before_last hm hpeek hlast honce⟩, fun whole hw ↦ ?_⟩
    rw [parseRequestContent_whole hm hpeek heob] at hw
    cases hp : r.multipart.parse (reads.flatten ++ last)
        (r.received (reads.flatten ++ last)).recver.memory with
    | error e =>
      rw [hp] at hw
      cases hw
    | ok m =>
      rw [hp] at hw
      cases hw
      have hempty := h ((parseLoop_ok_iff (start r.multipart (reads.flatten ++ last)) rfl).mp ⟨m, hp⟩)
      have hflat : reads.flatten = [] := List.flatten_eq_nil_iff.mpr hempty
      have hrecver : ((r.waiting reads).received last).recver =
          (r.received (reads.flatten ++ last)).recver := by
        simp only [received, waiting_recver_of_nil r hempty, hflat, List.nil_append]
      refine ⟨completed r reads last m, ?_, ?_, rfl⟩
      · rw [contentReads_last hm hpeek hlast heob honce, hrecver, hp]
        rfl
      · rw [completed, hpost, (retried_nil_iff reads).mpr hempty]
        rfl

end Whole

/-- A request whose header has announced a multipart body with boundary `X`. -/
def formRequest : HttpRequest :=
  { init Buffer.init with
    retCode := .requestHeaderDone, hasMultipart := true, multipart := ⟨ascii "X", ∅, ∅⟩ }

theorem formRequest_once {u : Bytes} (hu : u <+: ascii "--X--\r\n") (he : formRequest.eob <:+ u) :
    u = ascii "--X--\r\n" :=
  hu.eq_of_length_le he.length_le

theorem sameAsWhole_iff_once :
    formRequest.SameAsWhole [[]] (ascii "--X--\r\n") :=
  (sameAsWhole_iff rfl (Buffer.peek_init _) rfl (by decide) (List.suffix_refl _)
    fun _ hu he ↦ formRequest_once hu he).mpr fun _ ↦ by simp

/-- A body without parts that comes in two reads. -/
theorem not_sameAsWhole : ¬ formRequest.SameAsWhole [ascii "--X"] (ascii "--\r\n") := by
  intro h
  have hform : FormText (ascii "X") (formRequest.received (ascii "--X--\r\n")).recver.memory
      (ascii "--X--\r\n") := by
    have hmatch := cstrEq_self_append id (s := ascii "X") (by decide)
      (ascii "--\r\n" ++ (formRequest.received (ascii "--X--\r\n")).recver.memory)
    exact .close (t := ascii "X--\r\n") (.last hmatch (.inr (.inr (by decide)))) (.inr (by decide))
  have hnil := h.reads_nil rfl (Buffer.peek_init _) rfl (by decide) (List.suffix_refl _)
    (fun _ hu he ↦ formRequest_once hu he) hform
  exact absurd (hnil _ (.head [])) (by decide)

end Socnet.Http.HttpRequest
