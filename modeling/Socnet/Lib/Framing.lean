import Mathlib.Data.List.Basic

namespace Socnet.Lib.Framing

variable {α ρ : Type} (next : List α → Option (ρ × List α))

/-- The records that follow one another up to the end of a sequence. A record takes at
least one symbol. -/
def decode (l : List α) : Option (List ρ) :=
  if l = [] then some []
  else match next l with
    | none => none
    | some (r, rest) =>
      if rest.length < l.length then (decode rest).map (r :: ·) else none
termination_by l.length

@[simp] theorem decode_nil : decode next [] = some [] := by
  rw [decode, if_pos rfl]

theorem decode_of_next {next : List α → Option (ρ × List α)} {l rest : List α} {r : ρ}
    (h : next l = some (r, rest)) (hlt : rest.length < l.length) :
    decode next l = (decode next rest).map (r :: ·) := by
  have hne : l ≠ [] := by
    rintro rfl
    simp at hlt
  rw [decode, if_neg hne, h]
  exact if_pos hlt

/-- A successful decoding is at its end or reads a record. -/
theorem decode_cases {next : List α → Option (ρ × List α)} {l : List α} {rs : List ρ}
    (h : decode next l = some rs) :
    l = [] ∧ rs = [] ∨ ∃ r rest rs', next l = some (r, rest) ∧ rest.length < l.length ∧
      decode next rest = some rs' ∧ rs = r :: rs' := by
  rw [decode] at h
  split at h
  · rename_i hl
    exact .inl ⟨hl, (Option.some.inj h).symm⟩
  · split at h
    · cases h
    · rename_i r rest hnext
      split at h
      · rename_i hlt
        obtain ⟨rs', hrs', rfl⟩ := Option.map_eq_some_iff.mp h
        exact .inr ⟨r, rest, rs', hnext, hlt, hrs', rfl⟩
      · cases h

theorem decode_flatMap_append {next : List α → Option (ρ × List α)} {encode : ρ → List α}
    (rs : List ρ) (hne : ∀ r ∈ rs, encode r ≠ [])
    (hnext : ∀ r ∈ rs, ∀ rest, next (encode r ++ rest) = some (r, rest)) (l : List α) :
    decode next (rs.flatMap encode ++ l) = (decode next l).map (rs ++ ·) := by
  induction rs with
  | nil => simp
  | cons r rs ih =>
    have hpos : 0 < (encode r).length := List.length_pos_iff.mpr (hne r List.mem_cons_self)
    have hr := hnext r List.mem_cons_self (rs.flatMap encode ++ l)
    rw [List.flatMap_cons, List.append_assoc,
      decode_of_next hr (by rw [@List.length_append _ (encode r)]; omega),
      ih (fun s hs ↦ hne s (List.mem_cons_of_mem r hs))
        fun s hs ↦ hnext s (List.mem_cons_of_mem r hs), Option.map_map]
    rfl

/-- What can be read back one record at a time can be read back in full. -/
theorem decode_flatMap {next : List α → Option (ρ × List α)} {encode : ρ → List α}
    (rs : List ρ) (hne : ∀ r ∈ rs, encode r ≠ [])
    (hnext : ∀ r ∈ rs, ∀ rest, next (encode r ++ rest) = some (r, rest)) :
    decode next (rs.flatMap encode) = some rs := by
  simpa using decode_flatMap_append rs hne hnext []

/-- What is read one record at a time as it was written was written so in full. -/
theorem eq_flatMap_of_decode {next : List α → Option (ρ × List α)} {encode : ρ → List α}
    (hnext : ∀ l r rest, next l = some (r, rest) → l = encode r ++ rest)
    {l : List α} {rs : List ρ} (h : decode next l = some rs) : l = rs.flatMap encode := by
  induction rs generalizing l with
  | nil =>
    obtain ⟨rfl, -⟩ | ⟨r, rest, rs', -, -, -, hrs⟩ := decode_cases h
    · rfl
    · cases hrs
  | cons r rs ih =>
    obtain ⟨-, hrs⟩ | ⟨r', rest, rs', hr, -, hrest, hrs⟩ := decode_cases h
    · cases hrs
    · obtain ⟨rfl, rfl⟩ := List.cons.inj hrs
      rw [hnext l r rest hr, ih hrest, List.flatMap_cons]

end Socnet.Lib.Framing
