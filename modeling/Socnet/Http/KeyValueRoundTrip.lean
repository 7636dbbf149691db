import Socnet.Http.KeyValue

namespace Socnet.Http

open Lib Sequence Utility.EncodeUtil

namespace HttpMap

variable {κ ν : Type} [DecidableEq κ]

/-- The value that the last pair with a key gives it. -/
def lastValue (pairs : List (κ × ν)) (key : κ) : Option ν :=
  ((pairs.filter (·.1 = key)).map Prod.snd).getLast?

theorem get_foldl_add (pairs : List (κ × ν)) (key : κ) :
    (pairs.foldl (fun c p ↦ add c p.1 p.2) ∅).get key = lastValue pairs key := by
  induction pairs using List.reverseRecOn with
  | nil => exact AList.lookup_empty key
  | append_singleton pairs p ih =>
    rw [List.foldl_append, List.foldl_cons, List.foldl_nil]
    by_cases hp : p.1 = key
    · subst hp
      rw [get_add_self]
      simp [lastValue]
    · rw [get_add_of_ne _ _ (Ne.symm hp), ih]
      simp [lastValue, hp]

end HttpMap

namespace HttpRequest

def pairText (p : Bytes × Bytes) : Bytes := urlEncode p.1 ++ '='.toUInt8 :: urlEncode p.2

/-- The pairs as a client writes them: each joint has the separator and any number
of blanks. -/
def joined (s2 : UInt8) (p : Bytes × Bytes) (rest : List (ℕ × (Bytes × Bytes))) : Bytes :=
  pairText p ++ rest.flatMap fun j ↦ s2 :: (List.replicate j.1 SP ++ pairText j.2)

theorem notMem_urlEncode {x : UInt8} (hx : x ∈ ascii "=&;? ") (s : Bytes) : x ∉ urlEncode s := by
  intro hm
  have hno : ∀ x ∈ ascii "=&;? ", ¬ unreserved x ∧ x ≠ '%'.toUInt8 := by decide +kernel
  cases mem_urlEncode hm with
  | inl hu => exact (hno x hx).1 hu
  | inr hp => exact (hno x hx).2 hp

theorem notMem_pairText {x : UInt8} (hx : x ∈ ascii "&; ") (p : Bytes × Bytes) :
    x ∉ pairText p := by
  have hsub : ∀ x ∈ ascii "&; ", x ∈ ascii "=&;? " ∧ x ≠ '='.toUInt8 := by decide +kernel
  obtain ⟨hx, hne⟩ := hsub x hx
  rw [pairText, List.mem_append, List.mem_cons, not_or, not_or]
  exact ⟨notMem_urlEncode hx p.1, hne, notMem_urlEncode hx p.2⟩

theorem find_pairText (p : Bytes × Bytes) :
    find ['='.toUInt8] (pairText p) = some (urlEncode p.1).length :=
  find_singleton (notMem_urlEncode (by decide) p.1) _

theorem blanks_pairText (p : Bytes × Bytes) (m : Bytes) : blanks (pairText p ++ m) = .ok 0 := by
  have hsp := notMem_pairText (show SP ∈ ascii "&; " by decide) p
  cases hp : pairText p with
  | nil => simp [pairText] at hp
  | cons x t =>
    rw [hp] at hsp
    have hx : x ≠ SP := fun hx ↦ hsp (hx ▸ List.mem_cons_self)
    rw [List.cons_append, blanks, if_neg hx]

theorem decode_pairText (p : Bytes × Bytes) :
    urlDecode ((pairText p).take (urlEncode p.1).length) = p.1 ∧
      urlDecode ((pairText p).drop ((urlEncode p.1).length + 1)) = p.2 := by
  rw [pairText]
  constructor
  · rw [List.take_left' rfl, urlDecode_urlEncode]
  · rw [← List.drop_drop, List.drop_left' rfl, List.drop_one, List.tail_cons, urlDecode_urlEncode]

theorem joined_cons (s2 : UInt8) (p : Bytes × Bytes) (j : ℕ × (Bytes × Bytes))
    (rest : List (ℕ × (Bytes × Bytes))) :
    joined s2 p (j :: rest) =
      pairText p ++ s2 :: (List.replicate j.1 SP ++ joined s2 j.2 rest) := by
  simp [joined]

/-- The loop reads one pair a turn and stands in front of the next one. -/
theorem parseKeyValue_joined {s2 : UInt8} (hs2 : s2 ∈ ascii "&;") (memory : Bytes)
    (p : Bytes × Bytes) (rest : List (ℕ × (Bytes × Bytes))) (c : HttpMap Bytes Bytes) :
    parseKeyValue memory '='.toUInt8 s2 (joined s2 p rest) c =
      .ok ((p :: rest.map Prod.snd).foldl (fun c p ↦ c.add p.1 p.2) c) := by
  have hs2 : s2 ∈ ascii "&; " := List.mem_append_left [SP] hs2
  induction rest generalizing p c with
  | nil =>
    have hfind : find [s2] (pairText p) = none := find_singleton_none.mpr (notMem_pairText hs2 p)
    have hne : pairText p ≠ [] := by simp [pairText]
    obtain ⟨hkey, hvalue⟩ := decode_pairText p
    rw [joined, List.flatMap_nil, List.append_nil, parseKeyValue, dif_neg hne]
    simp only [hfind, find_pairText, hkey, hvalue]
    rfl
  | cons j rest ih =>
    have hfind : find [s2] (joined s2 p (j :: rest)) = some (pairText p).length := by
      rw [joined_cons]
      exact find_singleton (notMem_pairText hs2 p) _
    have hne : joined s2 p (j :: rest) ≠ [] := by simp [joined_cons]
    have htake : (joined s2 p (j :: rest)).take (pairText p).length = pairText p := by
      rw [joined_cons, List.take_left' rfl]
    have hdrop : (joined s2 p (j :: rest)).drop ((pairText p).length + 1) =
        List.replicate j.1 SP ++ joined s2 j.2 rest := by
      rw [joined_cons, ← List.drop_drop, List.drop_left' rfl, List.drop_one, List.tail_cons]
    have hlen : (joined s2 p (j :: rest)).length =
        (pairText p).length + 1 + (j.1 + (joined s2 j.2 rest).length) := by
      simp only [joined_cons, List.length_append, List.length_cons, List.length_replicate]
      omega
    have hblanks : blanks ((joined s2 p (j :: rest) ++ memory).drop ((pairText p).length + 1)) =
        .ok j.1 := by
      rw [List.drop_append_of_le_length (by omega), hdrop, joined, List.append_assoc,
        List.append_assoc, blanks_replicate, blanks_pairText]
      exact congrArg Except.ok (Nat.zero_add j.1)
    have hnext : (joined s2 p (j :: rest)).drop ((pairText p).length + j.1 + 1) =
        joined s2 j.2 rest := by
      rw [Nat.add_right_comm, ← List.drop_drop, hdrop, List.drop_left' (by simp)]
    obtain ⟨hkey, hvalue⟩ := decode_pairText p
    rw [parseKeyValue, dif_neg hne]
    simp only [hfind, htake, find_pairText, hkey, hvalue, hblanks, hnext]
    rw [if_pos (by omega), ih]
    rfl

/-- Parsing gives back what was encoded: on its own, whatever lies behind the text (also
nothing, where a byte read there is a `badRead`), and behind the path of a target. -/
theorem parse_joined (p : Bytes × Bytes) (rest : List (ℕ × (Bytes × Bytes))) :
    (∀ s2 ∈ ascii "&;", ∃ c, (∀ memory,
        parseKeyValue memory '='.toUInt8 s2 (joined s2 p rest) ∅ = .ok c) ∧
      ∀ key, c.get key = HttpMap.lastValue (p :: rest.map Prod.snd) key) ∧
    ∀ (path : Bytes) (r : HttpRequest), r.query = ∅ →
      r.reqUrl = urlEncode path ++ '?'.toUInt8 :: joined '&'.toUInt8 p rest →
      ∃ r', r.parseUrlQuery = .ok r' ∧ r'.url = path ∧
        r'.queryS = joined '&'.toUInt8 p rest ∧
        ∀ key, r'.query.get key = HttpMap.lastValue (p :: rest.map Prod.snd) key := by
  refine ⟨fun s2 hs2 ↦ ⟨_, fun memory ↦ parseKeyValue_joined hs2 memory p rest ∅,
    HttpMap.get_foldl_add _⟩, fun path r hq hurl ↦ ?_⟩
  have hfind : find (ascii "?") r.reqUrl = some (urlEncode path).length := by
    rw [hurl]
    exact find_singleton (notMem_urlEncode (by decide) path) _
  have hdrop : r.reqUrl.drop ((urlEncode path).length + 1) = joined '&'.toUInt8 p rest := by
    rw [hurl, ← List.drop_drop, List.drop_left' rfl, List.drop_one, List.tail_cons]
  have htake : r.reqUrl.take (urlEncode path).length = urlEncode path := by
    rw [hurl, List.take_left' rfl]
  have hview : removePrefix ((urlEncode path).length + 1) r.reqUrl =
      .ok (joined '&'.toUInt8 p rest) := by
    rw [removePrefix_of_le (by rw [hurl]; simp), hdrop]
  have hquery := parseKeyValue_joined (show '&'.toUInt8 ∈ ascii "&;" by decide) terminator p rest ∅
  refine ⟨{ r with
      queryS := joined '&'.toUInt8 p rest
      query := (p :: rest.map Prod.snd).foldl (fun c p ↦ c.add p.1 p.2) ∅
      url := path }, ?_, rfl, rfl, HttpMap.get_foldl_add _⟩
  rw [parseUrlQuery, hfind]
  simp only [hview, hq, hquery, htake, urlDecode_urlEncode, bind, Except.bind]

end HttpRequest

end Socnet.Http
