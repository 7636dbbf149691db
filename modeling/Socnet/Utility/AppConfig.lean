import Mathlib.Data.List.AList
import Socnet.Libjson.FormattedFile

namespace Socnet.Utility

open Libjson

variable {F : Type}

/-- `AppConfig::Values`. -/
inductive Values
  | string (s : Bytes)
  | int (n : ℤ)
  | bool (b : Bool)
  | strings (l : List Bytes)
  deriving DecidableEq

/-- `config_`, from a key and a subkey to a value. -/
abbrev AppConfig := AList fun _ : Bytes ↦ AList fun _ : Bytes ↦ Values

namespace AppConfig

/-- `config_[key][subkey] = value`. -/
def set (c : AppConfig) (key subkey : Bytes) (value : Values) : AppConfig :=
  AList.insert key (AList.insert subkey value ((AList.lookup key c).getD ∅)) c

def find (c : AppConfig) (key subkey : Bytes) : Option Values :=
  (AList.lookup key c).bind (AList.lookup subkey)

def get (c : AppConfig) (key subkey : Bytes) : Except Fault Values :=
  match c.find key subkey with
  | none => .error .outOfRange
  | some value => .ok value

def exist (c : AppConfig) (key subkey : Bytes) : Bool := (c.find key subkey).isSome

/-- `value<std::string>` of a value, which is empty for one that is no string. -/
def word : Json F → Except Fault Bytes
  | .string s => .ok s.value
  | .nullptr => .error .badRead
  | _ => .ok []

def words : Elements F → Except Fault (List Bytes)
  | .nil => .ok []
  | .cons val elements => do
    let s ← word val
    let values ← words elements
    .ok (s :: values)

/-- The `switch` over the type of a value. `value<int>` of a fraction is zero. -/
def ofValue : Json F → Except Fault (Option Values)
  | .string s => .ok (some (.string s.value))
  | .number n => .ok (some (.int n))
  | .float _ => .ok (some (.int 0))
  | .boolean b => .ok (some (.bool b))
  | .array elements => do
    let values ← words elements
    .ok (some (.strings values))
  | .object _ | .null => .ok none
  | .nullptr => .error .badRead

def loadSection (key : Bytes) : Members F → AppConfig → Except Fault AppConfig
  | .nil, c => .ok c
  | .cons subkey subvalue members, c => do
    match ← ofValue subvalue with
    | none => loadSection key members c
    | some value => loadSection key members (c.set key subkey.value value)

/-- `toJsonObject` of any other value is a null pointer. -/
def load : Members F → AppConfig → Except Fault AppConfig
  | .nil, c => .ok c
  | .cons key (.object value) members, c => do
    let c ← loadSection key.value value c
    load members c
  | .cons _ _ _, _ => .error .badRead

def ofJson : Json F → Except Fault AppConfig
  | .object sections => load sections ∅
  | _ => .error .badRead

/-- The constructor, from what the file holds. -/
def ofFile (toDouble : Bytes → F) (file : Bytes) : Except Fault AppConfig := do
  let root ← JsonParser.parseFile toDouble true file
  ofJson root

@[simp] theorem find_set (c : AppConfig) (key subkey key' subkey' : Bytes) (value : Values) :
    (c.set key subkey value).find key' subkey' =
      if (key', subkey') = (key, subkey) then some value else c.find key' subkey' := by
  rw [find, set]
  by_cases hk : key' = key
  · subst hk
    rw [AList.lookup_insert, Option.bind_some]
    by_cases hs : subkey' = subkey
    · subst hs
      rw [AList.lookup_insert, if_pos rfl]
    · rw [AList.lookup_insert_ne hs, if_neg (by simp [hs]), find]
      cases AList.lookup key' c with
      | none => rfl
      | some section' => rfl
  · rw [AList.lookup_insert_ne hk, if_neg (by simp [hk]), find]

/-- The value that a member stands for: null and objects stand for none. -/
def setting : Json F → Option Values
  | .string s => some (.string s.value)
  | .number n => some (.int n)
  | .float _ => some (.int 0)
  | .boolean b => some (.bool b)
  | .array elements => some (.strings (texts elements))
  | .object _ | .null | .nullptr => none
where
  texts : Elements F → List Bytes
    | .nil => []
    | .cons (.string s) elements => s.value :: texts elements
    | .cons _ elements => [] :: texts elements

/-- What the members of a section set, in their order. -/
def settings (key : Bytes) : Members F → List ((Bytes × Bytes) × Values)
  | .nil => []
  | .cons subkey value members =>
    ((setting value).map fun v ↦ ((key, subkey.value), v)).toList ++ settings key members

def allSettings : Members F → List ((Bytes × Bytes) × Values)
  | .nil => []
  | .cons key (.object value) members => settings key.value value ++ allSettings members
  | .cons _ _ members => allSettings members

/-- All sections are objects. -/
def Sectioned : Members F → Prop
  | .nil => True
  | .cons _ (.object _) members => Sectioned members
  | .cons _ _ _ => False

theorem words_eq (elements : Elements F) (h : elements.NoNull) :
    words elements = .ok (setting.texts elements) := by
  cases elements with
  | nil => rfl
  | cons value elements =>
    have ih := words_eq elements h.2
    cases value with
    | nullptr => exact h.1.elim
    | _ =>
      rw [words, ih]
      rfl

theorem ofValue_eq {v : Json F} (h : v.NoNull) : ofValue v = .ok (setting v) := by
  cases v with
  | array elements =>
    rw [ofValue, words_eq elements (by simpa [Json.NoNull] using h)]
    rfl
  | nullptr => exact h.elim
  | _ => rfl

/-- `config_[key][subkey] = value` for all of a list. -/
def setAll (c : AppConfig) (l : List ((Bytes × Bytes) × Values)) : AppConfig :=
  l.foldl (fun c s ↦ c.set s.1.1 s.1.2 s.2) c

theorem setAll_append (c : AppConfig) (l l' : List ((Bytes × Bytes) × Values)) :
    c.setAll (l ++ l') = (c.setAll l).setAll l' := List.foldl_append

theorem loadSection_eq (key : Bytes) (members : Members F) (h : members.NoNull) (c : AppConfig) :
    loadSection key members c = .ok (c.setAll (settings key members)) := by
  cases members with
  | nil => rfl
  | cons subkey value members =>
    have ih := loadSection_eq key members h.2
    rw [loadSection, ofValue_eq h.1, settings]
    cases setting value with
    | none => exact ih c
    | some v => exact ih _

theorem load_eq (sections : Members F) (h : sections.NoNull) (hs : Sectioned sections)
    (c : AppConfig) : load sections c = .ok (c.setAll (allSettings sections)) := by
  cases sections with
  | nil => rfl
  | cons key value members =>
    cases value with
    | object value =>
      have hvalue : value.NoNull := by simpa [Json.NoNull] using h.1
      rw [load, loadSection_eq key.value value hvalue, allSettings, setAll_append]
      exact load_eq members h.2 hs _
    | _ => exact hs.elim

theorem sectioned_of_load (sections : Members F) {c c' : AppConfig} (h : load sections c = .ok c') :
    Sectioned sections := by
  cases sections with
  | nil => trivial
  | cons key value members =>
    cases value with
    | object value =>
      rw [load] at h
      obtain ⟨c₁, -, h⟩ := bind_eq_ok.mp h
      exact sectioned_of_load members h
    | _ => cases h

theorem find_setAll (l : List ((Bytes × Bytes) × Values)) (key subkey : Bytes) :
    (setAll ∅ l).find key subkey = l.reverse.lookup (key, subkey) := by
  induction l using List.reverseRecOn with
  | nil => rfl
  | append_singleton l s ih =>
    rw [setAll, List.foldl_append, List.foldl_cons, List.foldl_nil, find_set, List.reverse_append,
      List.reverse_singleton, List.singleton_append, List.lookup_cons]
    rw [setAll] at ih
    by_cases hs : (key, subkey) = s.1
    · rw [if_pos hs, beq_iff_eq.mpr hs]
    · rw [if_neg hs, beq_eq_false_iff_ne.mpr hs, ih]

theorem sectioned_mapStrings (g : Bytes → Bytes) (sections : Members F) :
    Sectioned (sections.mapStrings g) ↔ Sectioned sections := by
  cases sections with
  | nil => exact Iff.rfl
  | cons key value members =>
    cases value with
    | object value => exact sectioned_mapStrings g members
    | _ => exact Iff.rfl

end AppConfig

end Socnet.Utility
