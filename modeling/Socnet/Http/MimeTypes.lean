import Mathlib.Data.List.Nodup
import Socnet.Http.HttpUtil

namespace Socnet.Http

/-- How `mappingMimeType` ends. -/
def withCharset (type : Bytes) : Bytes :=
  if ascii "text" <+: type ∨ ascii "xml" <:+ type ∨ ascii "javascript" <:+ type ∨
      ascii "json" <:+ type then
    type ++ ascii " ;charset=utf-8"
  else type

/-- The types by the hashes of their extensions, as `Content_Type` holds them. -/
def findType (hash : UInt64) : Option (String × String) :=
  contentType.find? fun e ↦ hashExt (ascii e.1) = hash

theorem findLastOf_append {c : UInt8} {s : Bytes} (hs : c ∉ s) (dir : Bytes) :
    findLastOf c (dir ++ c :: s) = some dir.length := by
  have hrev : (dir ++ c :: s).reverse = s.reverse ++ c :: dir.reverse := by simp
  have hfind := Lib.Sequence.find_singleton (fun h ↦ hs (List.mem_reverse.mp h)) dir.reverse
  rw [findLastOf, hrev, hfind, Option.map_some, List.length_append, List.length_cons,
    List.length_reverse]
  congr 1
  omega

theorem mappingMimeType_append {ext : Bytes} (hext : '.'.toUInt8 ∉ ext) (dir : Bytes) :
    mappingMimeType (dir ++ '.'.toUInt8 :: ext) = withCharset
      (((findType (hashExt ext)).map fun e ↦ ascii e.2).getD (ascii "application/octet-stream")) := by
  have hdrop : (dir ++ '.'.toUInt8 :: ext).drop (dir.length + 1) = ext := by
    rw [← List.drop_drop, List.drop_left, List.drop_one, List.tail_cons]
  rw [mappingMimeType, findLastOf_append hext]
  dsimp only
  rw [hdrop, findType]
  cases contentType.find? fun e ↦ hashExt (ascii e.1) = hashExt ext with
  | none => rfl
  | some e => rfl

/-- No two of the listed extensions have one hash. -/
theorem nodup_hashExt : (contentType.map fun e ↦ hashExt (ascii e.1)).Nodup := by
  decide +kernel

theorem findType_of_mem {e : String × String} (he : e ∈ contentType) :
    findType (hashExt (ascii e.1)) = some e := by
  have hsome : (findType (hashExt (ascii e.1))).isSome :=
    List.find?_isSome.mpr ⟨e, he, decide_eq_true rfl⟩
  obtain ⟨e', he'⟩ := Option.isSome_iff_exists.mp hsome
  have hmem : e' ∈ contentType := List.mem_of_find?_eq_some he'
  have hhash : hashExt (ascii e'.1) = hashExt (ascii e.1) := by
    simpa using List.find?_some he'
  rw [he', List.inj_on_of_nodup_map nodup_hashExt hmem he hhash]

theorem findType_eq_none {hash : UInt64} :
    findType hash = none ↔ ∀ e ∈ contentType, hashExt (ascii e.1) ≠ hash := by
  rw [findType, List.find?_eq_none]
  simp

theorem withCharset_octetStream :
    withCharset (ascii "application/octet-stream") = ascii "application/octet-stream" := by decide

/-- A path gets the type of the listed extension whose hash its own extension has, and the
one listed has its own. -/
theorem mappingMimeType_hash {ext : Bytes} (hext : '.'.toUInt8 ∉ ext) (dir : Bytes) :
    (∀ e ∈ contentType, ascii e.1 = ext →
      mappingMimeType (dir ++ '.'.toUInt8 :: ext) = withCharset (ascii e.2)) ∧
    (∀ e ∈ contentType, hashExt (ascii e.1) = hashExt ext →
      mappingMimeType (dir ++ '.'.toUInt8 :: ext) = withCharset (ascii e.2)) ∧
    ((∀ e ∈ contentType, hashExt (ascii e.1) ≠ hashExt ext) →
      mappingMimeType (dir ++ '.'.toUInt8 :: ext) = ascii "application/octet-stream") := by
  have hsame : ∀ e ∈ contentType, hashExt (ascii e.1) = hashExt ext →
      mappingMimeType (dir ++ '.'.toUInt8 :: ext) = withCharset (ascii e.2) := by
    intro e he hhash
    rw [mappingMimeType_append hext, ← hhash, findType_of_mem he]
    rfl
  refine ⟨fun e he hlisted ↦ hsame e he (congrArg hashExt hlisted), hsame, fun hother ↦ ?_⟩
  rw [mappingMimeType_append hext, findType_eq_none.mpr hother]
  exact withCharset_octetStream

theorem mappingMimeType_hash_html :
    (∀ e ∈ contentType, ascii e.1 = ascii "html" →
      mappingMimeType (ascii "index" ++ '.'.toUInt8 :: ascii "html") = withCharset (ascii e.2)) ∧
    (∀ e ∈ contentType, hashExt (ascii e.1) = hashExt (ascii "html") →
      mappingMimeType (ascii "index" ++ '.'.toUInt8 :: ascii "html") = withCharset (ascii e.2)) ∧
    ((∀ e ∈ contentType, hashExt (ascii e.1) ≠ hashExt (ascii "html")) →
      mappingMimeType (ascii "index" ++ '.'.toUInt8 :: ascii "html") =
        ascii "application/octet-stream") :=
  mappingMimeType_hash (by decide) (ascii "index")

/-- An extension that is not listed and has the hash of one that is. -/
theorem mappingMimeType_htnM : (∀ e ∈ contentType, ascii e.1 ≠ ascii "htnM") ∧
    mappingMimeType (ascii "index.htnM") = ascii "text/html ;charset=utf-8" ∧
    mappingMimeType (ascii "index.html") ≠ ascii "text/html" := by
  decide +kernel

end Socnet.Http
