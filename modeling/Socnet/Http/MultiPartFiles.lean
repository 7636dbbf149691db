import Socnet.Http.MultiPartRoundTrip

namespace Socnet.Http.HttpMultiPart

open Lib

def getFile (m : HttpMultiPart) (name : Bytes) (index : ℕ) : Option Part :=
  if m.files.contain name then
    let parts := (m.files.get name).getD []
    if parts.length ≤ index then none else parts[index]?
  else none

theorem getFile_eq (m : HttpMultiPart) (name : Bytes) (index : ℕ) :
    m.getFile name index = ((m.files.get name).getD [])[index]? := by
  unfold getFile HttpMap.contain
  cases m.files.get name with
  | none => rfl
  | some parts =>
    simp only [Option.isSome_some, if_true, Option.getD_some]
    split_ifs with h
    · exact (List.getElem?_eq_none h).symm
    · rfl

/-- The files of a form under one name, in the order of the body. -/
def filesNamed (parts : List FormPart) (name : Bytes) : List Part :=
  (fileParts parts).filter (·.name = name)

/-- Only the first file of a name is kept. -/
theorem foldl_addPart_getFile (b : Bytes) (parts : List FormPart) (name : Bytes) (index : ℕ) :
    (parts.foldl addPart ⟨b, ∅, ∅⟩).getFile name index =
      ((filesNamed parts name).take 1)[index]? := by
  rw [getFile_eq, foldl_addPart_files, filesNamed, ← List.head?_filter]
  cases (fileParts parts).filter (·.name = name) with
  | nil => rfl
  | cons p ps => rfl

theorem length_filesNamed (parts : List FormPart) (name : Bytes) :
    (filesNamed parts name).length = ((fileParts parts).map (·.name)).count name := by
  rw [filesNamed, ← List.countP_eq_length_filter, List.count, List.countP_map]
  apply List.countP_congr
  intro p _
  simp

/-- The first files of the names are all the files just when no name is repeated. -/
theorem take_one_iff (parts : List FormPart) :
    (∀ (name : Bytes) (index : ℕ),
      ((filesNamed parts name).take 1)[index]? = (filesNamed parts name)[index]?) ↔
      ((fileParts parts).map (·.name)).Nodup := by
  rw [List.nodup_iff_count_le_one]
  constructor
  · intro h name
    have hlen : ((filesNamed parts name).take 1).length = (filesNamed parts name).length :=
      congrArg List.length (List.ext_getElem? (h name))
    rw [← length_filesNamed, ← hlen, List.length_take]
    exact min_le_left 1 _
  · intro h name index
    rw [List.take_of_length_le]
    rw [length_filesNamed]
    exact h name

/-- The files of a body are found by name and index just when no two of them have
the same name. -/
theorem getFile_iff {b : Bytes} (hb : b ≠ []) (hcr : CR ∉ b) (h0 : 0 ∉ b) {parts : List FormPart}
    (hv : ∀ p ∈ parts, p.Valid b) (memory : Bytes) :
    (∃ m, parse ⟨b, ∅, ∅⟩ (renderBody b parts) memory = .ok m ∧
      ∀ name index, m.getFile name index = (filesNamed parts name)[index]?) ↔
      ((fileParts parts).map (·.name)).Nodup := by
  have hparse : parse ⟨b, ∅, ∅⟩ (renderBody b parts) memory =
      .ok (parts.foldl addPart ⟨b, ∅, ∅⟩) := parseLoop_renderBody hb hcr h0 hv rfl
  rw [← take_one_iff]
  constructor
  · intro h name index
    obtain ⟨m, hm, hfile⟩ := h
    obtain rfl := Except.ok.inj (hparse.symm.trans hm)
    rw [← hfile, foldl_addPart_getFile]
  · intro h
    refine ⟨_, hparse, fun name index ↦ ?_⟩
    rw [foldl_addPart_getFile, h]

/-- A photo and a second file. -/
def twoFiles (name : Bytes) : List FormPart :=
  [.file (ascii "photo") (ascii "1.png") (ascii "image/png") (ascii "one"),
    .file name (ascii "2.png") (ascii "image/png") (ascii "two")]

theorem twoFiles_valid {n : Bytes} (hn : Quotable n) :
    ∀ p ∈ twoFiles n, p.Valid (ascii "X") := by
  intro p hp
  rcases List.mem_pair.mp hp with rfl | rfl
  · exact ⟨⟨by decide, by decide, by decide⟩, ⟨by decide, by decide, by decide⟩, by decide,
      by decide⟩
  · exact ⟨hn, ⟨by decide, by decide, by decide⟩, by decide, by decide⟩

theorem getFile_iff_scan :
    ∃ m, parse ⟨ascii "X", ∅, ∅⟩ (renderBody (ascii "X") (twoFiles (ascii "scan"))) [] = .ok m ∧
      ∀ (name : Bytes) (index : ℕ),
        m.getFile name index = (filesNamed (twoFiles (ascii "scan")) name)[index]? := by
  have hv := twoFiles_valid (n := ascii "scan") ⟨by decide, by decide, by decide⟩
  exact (getFile_iff (by decide) (by decide) (by decide) hv []).mpr (by decide)

/-- The second of two photos is lost. -/
theorem not_getFile_second :
    ∃ m, parse ⟨ascii "X", ∅, ∅⟩ (renderBody (ascii "X") (twoFiles (ascii "photo"))) [] = .ok m ∧
      m.getFile (ascii "photo") 1 = none ∧
      (filesNamed (twoFiles (ascii "photo")) (ascii "photo"))[1]? =
        some ⟨ascii "photo", ascii "2.png", ascii "image/png", ascii "two"⟩ := by
  have hv := twoFiles_valid (n := ascii "photo") ⟨by decide, by decide, by decide⟩
  refine ⟨_, parseLoop_renderBody (by decide) (by decide) (by decide) hv rfl, ?_, rfl⟩
  rw [foldl_addPart_getFile]
  rfl

end Socnet.Http.HttpMultiPart
