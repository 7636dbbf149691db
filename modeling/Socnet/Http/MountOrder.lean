import Socnet.Http.HttpServer
import Socnet.Lib.FirstMatch

namespace Socnet.Http

open Lib

/-- The response code and the file handed to the response. -/
def HttpResponse.outcome (resp : HttpResponse) : ℕ × Bytes := (resp.code, resp.fileName)

namespace HttpServer

/-- Servers that differ in the enumeration order of their mounts alone. -/
structure Reordered (s s' : HttpServer) : Prop where
  mountDir : s'.mountDir.entries.Perm s.mountDir.entries
  defaultPages : s'.defaultPages = s.defaultPages
  enablePhp : s'.enablePhp = s.enablePhp

section Order

variable (isRegular : Bytes → Bool) (php : Bytes → HttpRequest → HttpResponse → HttpResponse)
  (s : HttpServer) (req : HttpRequest) (resp : HttpResponse)

/-- The outcome that a mount leads to, unless it does not match the URL or passes. -/
def answer (mount : (_ : Bytes) × Bytes) : Option (ℕ × Bytes) :=
  if mount.1 <+: req.url then
    match s.dispatchFile isRegular php req mount.1 req.url mount.2 resp with
    | (true, resp, _) => some resp.outcome
    | (false, _, _) => none
  else none

def outcome : ℕ × Bytes := (s.dispatchMountDir isRegular php req resp).2.1.outcome

theorem dispatchFile_passed {pfx dir : Bytes}
    (h : (s.dispatchFile isRegular php req pfx req.url dir resp).1 = false) :
    (s.dispatchFile isRegular php req pfx req.url dir resp).2.1 = resp := by
  unfold dispatchFile at h ⊢
  dsimp only at h ⊢
  split_ifs at h ⊢
  · split at h <;> cases h
  · rfl

/-- The response that a mount leaves, unless it does not match the URL or passes. -/
def respond (mount : (_ : Bytes) × Bytes) : Option HttpResponse :=
  if mount.1 <+: req.url then
    match s.dispatchFile isRegular php req mount.1 req.url mount.2 resp with
    | (true, resp, _) => some resp
    | (false, _, _) => none
  else none

theorem answer_eq : s.answer isRegular php req resp =
    Option.map HttpResponse.outcome ∘ s.respond isRegular php req resp := by
  funext mount
  rw [Function.comp_apply, answer, respond]
  split_ifs
  · split <;> rfl
  · rfl

/-- The loop ends with the first mount that answers. -/
theorem dispatchEach_eq (mounts : List ((_ : Bytes) × Bytes)) :
    match mounts.findSome? (s.respond isRegular php req resp) with
    | some r => (s.dispatchEach isRegular php req resp mounts).1 = true ∧
        (s.dispatchEach isRegular php req resp mounts).2.1 = r
    | none => (s.dispatchEach isRegular php req resp mounts).1 = false ∧
        (s.dispatchEach isRegular php req resp mounts).2.1 = resp := by
  induction mounts with
  | nil => exact ⟨rfl, rfl⟩
  | cons mount mounts ih =>
    obtain ⟨pfx, dir⟩ := mount
    by_cases hp : pfx <+: req.url
    · have hpassed := @s.dispatchFile_passed isRegular php req resp pfx dir
      cases hf : s.dispatchFile isRegular php req pfx req.url dir resp with
      | mk status r =>
        obtain ⟨resp', calls⟩ := r
        cases status with
        | true =>
          have ha : s.respond isRegular php req resp ⟨pfx, dir⟩ = some resp' := by
            simp only [respond, if_pos hp, hf]
          rw [List.findSome?_cons, ha]
          simp only [dispatchEach, if_pos hp, hf, and_self]
        | false =>
          have ha : s.respond isRegular php req resp ⟨pfx, dir⟩ = none := by
            simp only [respond, if_pos hp, hf]
          rw [hf] at hpassed
          obtain rfl : resp' = resp := hpassed rfl
          rw [List.findSome?_cons, ha]
          simpa only [dispatchEach, if_pos hp, hf] using ih
    · have ha : s.respond isRegular php req resp ⟨pfx, dir⟩ = none := if_neg hp
      rw [List.findSome?_cons, ha]
      simpa only [dispatchEach, if_neg hp] using ih

/-- The response of the first mount that answers, or else 404. -/
theorem dispatchMountDir_eq (hne : s.mountDir.entries ≠ []) :
    (s.dispatchMountDir isRegular php req resp).2.1 =
      (s.mountDir.entries.findSome? (s.respond isRegular php req resp)).getD
        (resp.setCode HttpStatus.NOT_FOUND) := by
  have heach := s.dispatchEach_eq isRegular php req resp s.mountDir.entries
  rw [dispatchMountDir, if_neg hne]
  cases hf : s.mountDir.entries.findSome? (s.respond isRegular php req resp) with
  | some r =>
    rw [hf] at heach
    dsimp only at heach ⊢
    rw [if_pos heach.1]
    exact heach.2
  | none =>
    rw [hf] at heach
    dsimp only at heach ⊢
    rw [heach.1, if_neg (by simp), heach.2]
    rfl

/-- What `dispatchMountDir` leads to, in terms of the first mount that answers. -/
theorem outcome_eq (hne : s.mountDir.entries ≠ []) :
    s.outcome isRegular php req resp =
      (s.mountDir.entries.findSome? (s.answer isRegular php req resp)).getD
        (HttpStatus.NOT_FOUND, resp.fileName) := by
  rw [outcome, dispatchMountDir_eq _ _ _ _ _ hne, answer_eq, ← List.map_findSome?]
  cases s.mountDir.entries.findSome? (s.respond isRegular php req resp) <;> rfl

/-- All mounts that match the URL and do not pass lead to one outcome. -/
def AnswersAgree : Prop :=
  ∀ m ∈ s.mountDir.entries, ∀ m' ∈ s.mountDir.entries, ∀ o o',
    s.answer isRegular php req resp m = some o → s.answer isRegular php req resp m' = some o' →
      o = o'

theorem Reordered.answer_eq {s s' : HttpServer} (h : Reordered s s') :
    s'.answer isRegular php req resp = s.answer isRegular php req resp := by
  funext mount
  simp only [answer, dispatchFile, dispatchFound, h.defaultPages, h.enablePhp]

/-- The server with its mounts in another order. -/
def reorder (mounts : List ((_ : Bytes) × Bytes)) (h : mounts.Perm s.mountDir.entries) :
    HttpServer where
  mountDir := ⟨mounts, (List.perm_nodupKeys h).mpr s.mountDir.nodupKeys⟩
  mounted e he := s.mounted e (h.mem_iff.mp he)
  defaultPages := s.defaultPages
  enablePhp := s.enablePhp

/-- The enumeration order of the mounts makes no difference to the outcome just when the
mounts that answer agree. -/
theorem outcome_reordered_iff :
    (∀ s', Reordered s s' →
      s'.outcome isRegular php req resp = s.outcome isRegular php req resp) ↔
      s.AnswersAgree isRegular php req resp := by
  by_cases hne : s.mountDir.entries = []
  · refine iff_of_true (fun s' h ↦ ?_) ?_
    · have hnil' : s'.mountDir.entries = [] := List.perm_nil.mp (hne ▸ h.mountDir)
      simp only [outcome, dispatchMountDir, hne, hnil', if_true]
    · intro m hm
      rw [hne] at hm
      cases hm
  · rw [AnswersAgree, ← FirstMatch.findSome?_perm_iff (HttpStatus.NOT_FOUND, resp.fileName),
      ← s.outcome_eq isRegular php req resp hne]
    constructor
    · intro h mounts hperm
      have hs' : Reordered s (s.reorder mounts hperm) := ⟨hperm, rfl, rfl⟩
      have hne' : (s.reorder mounts hperm).mountDir.entries ≠ [] :=
        fun hnil ↦ hne (List.nil_perm.mp (hnil ▸ hperm))
      rw [← h _ hs', outcome_eq _ _ _ _ _ hne', hs'.answer_eq]
      rfl
    · intro h s' hs'
      have hne' : s'.mountDir.entries ≠ [] :=
        fun hnil ↦ hne (List.nil_perm.mp (hnil ▸ hs'.mountDir))
      rw [outcome_eq _ _ _ _ _ hne', hs'.answer_eq]
      exact h _ hs'.mountDir

end Order

/-- A directory for all URLs, and one for those below `/x/`. -/
def twoMounts : HttpServer where
  mountDir := ⟨[⟨ascii "/", ascii "/a/"⟩, ⟨ascii "/x/", ascii "/b/"⟩], by
    unfold List.NodupKeys
    decide⟩
  mounted := by
    intro e he
    rcases List.mem_pair.mp he with rfl | rfl
    · exact ⟨by decide, ⟨ascii "/a", by decide, by decide⟩, rfl⟩
    · exact ⟨by decide, ⟨ascii "/b", by decide, by decide⟩, rfl⟩
  defaultPages := []
  enablePhp := false

/-- A URL that both mounts have a file for. -/
theorem not_outcome_reordered :
    ∃ s', Reordered twoMounts s' ∧
      twoMounts.outcome (fun _ ↦ true) (fun _ _ resp ↦ resp)
        { HttpRequest.init .init with url := ascii "/x/f" } .init = (200, ascii "/a/x/f") ∧
      s'.outcome (fun _ ↦ true) (fun _ _ resp ↦ resp)
        { HttpRequest.init .init with url := ascii "/x/f" } .init = (200, ascii "/b/f") :=
  ⟨twoMounts.reorder [⟨ascii "/x/", ascii "/b/"⟩, ⟨ascii "/", ascii "/a/"⟩] (.swap _ _ _),
    ⟨.swap _ _ _, rfl, rfl⟩, by decide +kernel, by decide +kernel⟩

end HttpServer

end Socnet.Http
