import Mathlib.Data.List.AList
import Socnet.Lib.Multimap
import Socnet.Utility.EncodeUtil

namespace Socnet.Http

open Utility.EncodeUtil

/-- An unordered map with one value a key. The order of the entries stands for
the enumeration order of the underlying table, which nothing fixes. -/
abbrev HttpMap (κ ν : Type) := AList fun _ : κ ↦ ν

namespace HttpMap

variable {κ ν : Type} [DecidableEq κ]

def add (m : HttpMap κ ν) (key : κ) (value : ν) : HttpMap κ ν := AList.insert key value m
def get (m : HttpMap κ ν) (key : κ) : Option ν := AList.lookup key m
def remove (m : HttpMap κ ν) (key : κ) : HttpMap κ ν := AList.erase key m
def contain (m : HttpMap κ ν) (key : κ) : Bool := (m.get key).isSome

@[simp] theorem get_add_self (m : HttpMap κ ν) (key : κ) (value : ν) :
    (m.add key value).get key = some value := AList.lookup_insert m

theorem get_add_of_ne (m : HttpMap κ ν) {key key' : κ} (value : ν) (h : key' ≠ key) :
    (m.add key value).get key' = m.get key' := AList.lookup_insert_ne h

theorem get_remove_self (m : HttpMap κ ν) (key : κ) : (m.remove key).get key = none :=
  AList.lookup_erase key m

theorem get_remove_of_ne (m : HttpMap κ ν) {key key' : κ} (h : key' ≠ key) :
    (m.remove key).get key' = m.get key' := AList.lookup_erase_ne h

theorem get_remove_eq_some {m : HttpMap κ ν} {key key' : κ} {value : ν} :
    (m.remove key).get key' = some value ↔ key' ≠ key ∧ m.get key' = some value := by
  by_cases h : key' = key
  · rw [h, get_remove_self]
    simp
  · rw [get_remove_of_ne m h, and_iff_right h]

end HttpMap

abbrev HttpHeader := Lib.Multimap Bytes Bytes

namespace HttpHeader

def setCookie : Bytes := ascii "set-cookie"

def add (h : HttpHeader) (key value : Bytes) : HttpHeader :=
  let k := toLowers key
  if ¬ setCookie <+: k ∧ (h.find k).isSome then h.assign k value else h.emplace k value

def get (h : HttpHeader) (key : Bytes) : Option Bytes := h.find (toLowers key)

/-- What a list of pairs leaves under a key: every value of a `set-cookie` key,
and otherwise the last one. -/
def stored (pairs : List (Bytes × Bytes)) (k : Bytes) : List Bytes :=
  let vs := (pairs.filter (toLowers ·.1 = k)).map Prod.snd
  if setCookie <+: k then vs else vs.getLast?.toList

theorem values_add (h : HttpHeader) (key value k : Bytes) :
    (h.add key value).values k =
      if toLowers key = k then
        if ¬ setCookie <+: k ∧ h.values k ≠ [] then value :: (h.values k).tail
        else h.values k ++ [value]
      else h.values k := by
  have hf : (h.find (toLowers key)).isSome ↔ h.values (toLowers key) ≠ [] := by
    rw [Option.isSome_iff_ne_none, Ne, Lib.Multimap.find_eq_none_iff]
  unfold add
  by_cases hk : toLowers key = k
  · subst hk
    simp only [hf, if_true]
    split
    · rename_i hc
      exact Lib.Multimap.values_assign_self h _ _ hc.2
    · exact Lib.Multimap.values_emplace_self h _ _
  · rw [if_neg hk]
    dsimp only
    split
    · exact Lib.Multimap.values_assign_of_ne h _ hk
    · exact Lib.Multimap.values_emplace_of_ne h _ hk

theorem get_add_same (h : HttpHeader) {key : Bytes} (value : Bytes)
    (hc : ¬ setCookie <+: toLowers key) : (h.add key value).get key = some value := by
  rw [get, Lib.Multimap.find, values_add, if_pos rfl]
  by_cases hv : h.values (toLowers key) = []
  · simp [hv]
  · rw [if_pos ⟨hc, hv⟩]
    rfl

theorem get_add_other (h : HttpHeader) {key key' : Bytes} (value : Bytes)
    (hne : toLowers key ≠ toLowers key') : (h.add key value).get key' = h.get key' := by
  rw [get, Lib.Multimap.find, values_add, if_neg hne]
  rfl

/-- Adding pairs one by one keeps the last value of each name, and all values
of the `set-cookie` names in order. -/
theorem values_foldl_add (pairs : List (Bytes × Bytes)) (k : Bytes) :
    (pairs.foldl (fun h p ↦ add h p.1 p.2) Lib.Multimap.empty).values k = stored pairs k := by
  induction pairs using List.reverseRecOn with
  | nil => simp [stored]
  | append_singleton pairs p ih =>
    rw [List.foldl_append, List.foldl_cons, List.foldl_nil, values_add, ih]
    by_cases hk : toLowers p.1 = k
    · by_cases hc : setCookie <+: k
      · simp [stored, hk, hc]
      · simp only [stored, hk, hc, if_false, if_true, not_false_eq_true, true_and,
          List.filter_append, List.map_append]
        cases ((pairs.filter (toLowers ·.1 = k)).map Prod.snd).getLast? <;> simp [hk]
    · simp [stored, hk]

end HttpHeader

end Socnet.Http
