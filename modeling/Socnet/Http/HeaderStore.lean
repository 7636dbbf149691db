import Mathlib.Logic.Function.Basic
import Socnet.Http.HeaderNormalForm
import Socnet.Lib.Run

namespace Socnet.Http

open Lib Utility.EncodeUtil

namespace HttpHeader

theorem WellFormed.erase {h : HttpHeader} (hw : h.WellFormed) (k : Bytes) :
    WellFormed (h.erase k) := by
  refine ⟨fun e he ↦ hw.lower e (List.mem_of_mem_filter he), fun k' hk' ↦ ?_⟩
  by_cases hk : k = k'
  · rw [hk, Multimap.values_erase_self]
    exact Nat.zero_le 1
  · rw [Multimap.values_erase_of_ne h hk]
    exact hw.single k' hk'

theorem remove_eq (h : HttpHeader) (key : Bytes) : h.remove key = h.erase (toLowers key) := by
  unfold remove
  dsimp only
  split
  · rfl
  · rename_i hf
    apply Multimap.ext_values
    intro k
    by_cases hk : toLowers key = k
    · have hnone : h.find k = none := by simpa [hk] using hf
      rw [hk, Multimap.values_erase_self, Multimap.find_eq_none_iff.mp hnone]
    · rw [Multimap.values_erase_of_ne h hk]

theorem WellFormed.foldl_add {α : Type} (name f : α → Bytes) {h : HttpHeader} (hw : h.WellFormed)
    (items : List α) : (items.foldl (fun h a ↦ h.add (name a) (f a)) h).WellFormed := by
  induction items generalizing h with
  | nil => exact hw
  | cons a items ih => exact ih (hw.add (name a) (f a))

theorem WellFormed.parse {h h' : HttpHeader} {header : Bytes} {i : ℤ} (hw : h.WellFormed)
    (hp : h.parse header = .ok (i, h')) : h'.WellFormed := by
  obtain ⟨-, ls, rfl⟩ := (parse_length header h).2 i h' hp
  exact hw.foldl_add HeaderLine.name HeaderLine.value ls

/-- A multimap that answers as a map whose keys have no case, except that the
`set-cookie` keys keep all their values. -/
structure CaseInsensitive (h : HttpHeader) : Prop where
  lower : ∀ e ∈ h.entries, toLowers e.1 = e.1
  once : ∀ k, ¬ setCookie <+: k → (h.entries.filter (·.1 = k)).length ≤ 1
  add_get : ∀ key value, ¬ setCookie <+: toLowers key → ∀ key', toLowers key' = toLowers key →
    (h.add key value).get key' = some value ∧ (h.add key value).contain key'
  add_cookie : ∀ key value, setCookie <+: toLowers key →
    (h.add key value).values (toLowers key) = h.values (toLowers key) ++ [value]
  add_other : ∀ key value, (h.add key value).entries.filter (·.1 ≠ toLowers key) =
    h.entries.filter (·.1 ≠ toLowers key)
  remove_all : ∀ key, (h.remove key).entries =
    h.entries.filter fun e ↦ toLowers e.1 ≠ toLowers key

theorem erase_add (h : HttpHeader) (key value : Bytes) :
    (h.add key value).erase (toLowers key) = h.erase (toLowers key) := by
  apply Multimap.ext_values
  intro k
  by_cases hk : toLowers key = k
  · rw [hk, Multimap.values_erase_self, Multimap.values_erase_self]
  · rw [Multimap.values_erase_of_ne _ hk, Multimap.values_erase_of_ne _ hk, values_add, if_neg hk]

theorem WellFormed.caseInsensitive {h : HttpHeader} (hw : h.WellFormed) : h.CaseInsensitive where
  lower := hw.lower
  once k hk := by
    have hle := hw.single k hk
    rw [hw.values_eq, List.length_map] at hle
    rwa [List.filter_congr fun e he ↦ by rw [hw.lower e he]] at hle
  add_get key value hc key' hkey' := by
    have hget : (h.add key value).get key' = some value := by
      rw [get, hkey']
      exact get_add_same h value hc
    refine ⟨hget, ?_⟩
    rw [contain]
    rw [get] at hget
    rw [hget]
    rfl
  add_cookie key value hc := by rw [values_add, if_pos rfl, if_neg fun hv ↦ hv.1 hc]
  add_other key value := by
    have herase := congrArg Multimap.entries (erase_add h key value)
    simpa [Multimap.erase] using herase
  remove_all key := by
    rw [remove_eq, Multimap.erase]
    refine List.filter_congr fun e he ↦ ?_
    rw [hw.lower e he]
    simp

/-- The operations on header objects, which are named by `ι`. -/
inductive Op (ι : Type)
  | add (i : ι) (key value : Bytes)
  | addHeader (i j : ι)
  | parse (i : ι) (header : Bytes)
  | remove (i : ι) (key : Bytes)
  | clear (i : ι)

variable {ι : Type} [DecidableEq ι]

/-- Adding an object to itself locks one mutex twice: `std::lock` never has both. -/
def apply (s : ι → HttpHeader) : Op ι → Except Fault (ι → HttpHeader)
  | .add i key value => .ok (Function.update s i ((s i).add key value))
  | .addHeader i j =>
    if i = j then .error .hang else .ok (Function.update s i ((s i).addHeader (s j)))
  | .parse i header => do
    let (_, h) ← (s i).parse header
    .ok (Function.update s i h)
  | .remove i key => .ok (Function.update s i ((s i).remove key))
  | .clear i => .ok (Function.update s i (s i).clear)

theorem wellFormed_update {s : ι → HttpHeader} (hs : ∀ i, (s i).WellFormed) {j : ι} {h : HttpHeader}
    (hw : h.WellFormed) (i : ι) : (Function.update s j h i).WellFormed := by
  by_cases hi : i = j
  · rw [hi, Function.update_self]
    exact hw
  · rw [Function.update_of_ne hi]
    exact hs i

theorem apply_wellFormed {s s' : ι → HttpHeader} {op : Op ι} (hs : ∀ i, (s i).WellFormed)
    (h : apply s op = .ok s') (i : ι) : (s' i).WellFormed := by
  cases op with
  | add j key value =>
    cases h
    exact wellFormed_update hs ((hs j).add key value) i
  | addHeader j j' =>
    rw [apply] at h
    split at h
    · cases h
    · cases h
      exact wellFormed_update hs ((hs j).foldl_add Prod.fst Prod.snd (s j').entries) i
  | parse j header =>
    obtain ⟨⟨index, h'⟩, hp, h⟩ := bind_eq_ok.mp h
    cases h
    exact wellFormed_update hs ((hs j).parse hp) i
  | remove j key =>
    cases h
    rw [remove_eq]
    exact wellFormed_update hs ((hs j).erase (toLowers key)) i
  | clear j =>
    cases h
    exact wellFormed_update hs WellFormed.empty i

theorem run_wellFormed {ops : List (Op ι)} {s s' : ι → HttpHeader} (hs : ∀ i, (s i).WellFormed)
    (h : ops.foldlM apply s = .ok s') (i : ι) : (s' i).WellFormed := by
  induction ops generalizing s with
  | nil =>
    cases h
    exact hs i
  | cons op ops ih =>
    rw [List.foldlM_cons] at h
    obtain ⟨s₁, h₁, h⟩ := bind_eq_ok.mp h
    exact ih (apply_wellFormed hs h₁) h

/-- Header objects that start empty are maps without case after every sequence of
operations on them. -/
theorem run_caseInsensitive {ops : List (Op ι)} {s : ι → HttpHeader}
    (h : ops.foldlM apply (fun _ ↦ Multimap.empty) = .ok s) (i : ι) : (s i).CaseInsensitive :=
  (run_wellFormed (fun _ ↦ WellFormed.empty) h i).caseInsensitive

def mergeOps : List (Op Bool) :=
  [.add false (ascii "Set-Cookie") (ascii "a"), .add false (ascii "Host") (ascii "b"),
    .addHeader true false, .remove false (ascii "HOST")]

theorem run_caseInsensitive_merge : ∃ s, mergeOps.foldlM apply (fun _ ↦ Multimap.empty) = .ok s ∧
    (s true).CaseInsensitive := by
  obtain ⟨s, hs⟩ : ∃ s, mergeOps.foldlM apply (fun _ ↦ Multimap.empty) = .ok s := ⟨_, rfl⟩
  exact ⟨s, hs, run_caseInsensitive hs true⟩

end HttpHeader

end Socnet.Http
