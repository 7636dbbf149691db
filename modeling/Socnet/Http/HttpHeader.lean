import Socnet.Http.HttpResponse
import Socnet.Http.KeyValue

namespace Socnet.Http

open Lib Sequence Net Utility.EncodeUtil

namespace HttpHeader

def remove (h : HttpHeader) (key : Bytes) : HttpHeader :=
  let k := toLowers key
  if (h.find k).isSome then h.erase k else h

def contain (h : HttpHeader) (key : Bytes) : Bool := (h.find (toLowers key)).isSome

def clear (_ : HttpHeader) : HttpHeader := Multimap.empty

/-- `add` of the entries of another header. -/
def addHeader (h header : HttpHeader) : HttpHeader :=
  header.entries.foldl (fun h e ↦ h.add e.1 e.2) h

def toString (h : HttpHeader) : Bytes :=
  h.entries.foldl (fun str e ↦ str ++ (e.1 ++ ascii ": " ++ e.2 ++ CRLF)) []

def store (h : HttpHeader) : Option Buffer → Option Buffer
  | none => none
  | some sender => some (h.entries.foldl
      (fun sender e ↦ sender.append (e.1 ++ ascii ": " ++ e.2 ++ CRLF)) sender)

section Stored

variable {α : Type} (name f : α → Bytes)

/-- The items whose value stays under a key when items are added one by one: all of
a `set-cookie` key, and otherwise the last one. -/
def shown (items : List α) (k : Bytes) : List α :=
  let items := items.filter fun a ↦ toLowers (name a) = k
  if setCookie <+: k then items else items.getLast?.toList

theorem mem_of_mem_shown {name : α → Bytes} {items : List α} {k : Bytes} {a : α}
    (h : a ∈ shown name items k) : a ∈ items ∧ toLowers (name a) = k := by
  have hf : a ∈ items.filter fun a ↦ toLowers (name a) = k := by
    simp only [shown] at h
    split at h
    · exact h
    · exact List.mem_of_getLast? (Option.mem_toList.mp h)
  simpa using hf

theorem shown_append_of_ne {a : α} {k : Bytes} (hk : toLowers (name a) ≠ k) (items : List α) :
    shown name (items ++ [a]) k = shown name items k := by
  simp [shown, hk]

theorem shown_append_self {a : α} {k : Bytes} (hk : toLowers (name a) = k) (items : List α) :
    shown name (items ++ [a]) k = if setCookie <+: k then shown name items k ++ [a] else [a] := by
  by_cases hc : setCookie <+: k
  · simp [shown, hk, hc]
  · simp [shown, hk, hc]

theorem values_foldl (items : List α) (h : HttpHeader) (k : Bytes) :
    (items.foldl (fun h a ↦ h.add (name a) (f a)) h).values k =
      if setCookie <+: k ∨ shown name items k = [] then
        h.values k ++ (shown name items k).map f
      else (shown name items k).map f ++ (h.values k).tail := by
  induction items using List.reverseRecOn with
  | nil => simp [shown]
  | append_singleton items a ih =>
    rw [List.foldl_append, List.foldl_cons, List.foldl_nil, values_add, ih]
    by_cases hk : toLowers (name a) = k
    · rw [shown_append_self name hk]
      by_cases hc : setCookie <+: k
      · simp [hk, hc]
      · by_cases hs : shown name items k = []
        · by_cases hv : h.values k = []
          · simp [hk, hc, hs, hv]
          · simp [hk, hc, hs, hv]
        · obtain ⟨x, hx⟩ : ∃ x, shown name items k = [x] := by
            simp only [shown, hc, if_false] at hs ⊢
            cases hl : (items.filter fun a ↦ toLowers (name a) = k).getLast? with
            | none => simp [hl] at hs
            | some x => exact ⟨x, rfl⟩
          simp [hk, hc, hx]
    · rw [if_neg hk, shown_append_of_ne name hk]

end Stored

/-- What a turn of the loop of `parse` finds at the front of its view: the blank
line, no complete line or one without a colon, or a header line of `len` bytes. -/
inductive ParseTurn
  | blank
  | stop
  | line (key value : Bytes) (len : ℕ)

def parseTurn (header : Bytes) : Except Fault ParseTurn :=
  if CRLF <+: header then .ok .blank
  else
    match find CRLF header with
    | none => .ok .stop
    | some pos =>
      let line := header.take pos
      match find (ascii ":") line with
      | none => .ok .stop
      | some pos2 => do
        -- `line_header[pos2 + 1]` may lie behind the line, in the rest of the header
        let n ← HttpRequest.blanks (header.drop (pos2 + 1))
        let value ← substr line (pos2 + n + 1) (pos - (pos2 + n + 1))
        .ok (.line (line.take pos2) value (pos + 2))

theorem parseTurn_len {header key value : Bytes} {len : ℕ}
    (h : parseTurn header = .ok (.line key value len)) : 2 ≤ len ∧ len ≤ header.length := by
  unfold parseTurn at h
  split_ifs at h
  · cases h
  · cases hpos : find CRLF header with
    | none =>
      rw [hpos] at h
      cases h
    | some pos =>
      rw [hpos] at h
      dsimp only at h
      split at h
      · cases h
      · obtain ⟨n, -, h⟩ := bind_eq_ok.mp h
        obtain ⟨v, -, h⟩ := bind_eq_ok.mp h
        cases h
        exact ⟨Nat.le_add_left 2 pos, find_length hpos⟩

/-- `index` is an `int`: the sum with a `size_t` is converted back to it, while the
sum with 2 may leave its range. -/
def parseLoop (header : Bytes) (index : ℤ) (h : HttpHeader) : Except Fault (ℤ × HttpHeader) :=
  match _h : parseTurn header with
  | .error e => .error e
  | .ok .blank => if index + 2 < 2 ^ 31 then .ok (index + 2, h) else .error .overflow
  | .ok .stop => .ok (index, h)
  | .ok (.line key value len) =>
    parseLoop (header.drop len) (Int.bmod (index + len) (2 ^ 32)) (h.add key value)
termination_by header.length
decreasing_by
  have := parseTurn_len _h
  rw [List.length_drop]
  omega

def parse (h : HttpHeader) (header : Bytes) : Except Fault (ℤ × HttpHeader) :=
  parseLoop header 0 h

theorem parseLoop_eq (header : Bytes) (index : ℤ) (h : HttpHeader) :
    parseLoop header index h =
      match parseTurn header with
      | .error e => .error e
      | .ok .blank => if index + 2 < 2 ^ 31 then .ok (index + 2, h) else .error .overflow
      | .ok .stop => .ok (index, h)
      | .ok (.line key value len) =>
        parseLoop (header.drop len) (Int.bmod (index + len) (2 ^ 32)) (h.add key value) := by
  rw [parseLoop]
  split <;> simp_all only

end HttpHeader

/-- A line of a header block: a name without a colon, and what stands behind its
first colon. -/
structure HeaderLine where
  name : Bytes
  rest : Bytes
  colon_notMem : ':'.toUInt8 ∉ name
  name_crlf : ¬ CRLF <:+: name
  rest_crlf : ¬ CRLF <:+: rest

namespace HeaderLine

def text (l : HeaderLine) : Bytes := l.name ++ ':'.toUInt8 :: l.rest

/-- What is left of a line without the blanks behind its colon. -/
def value (l : HeaderLine) : Bytes := l.rest.dropWhile (· = SP)

def lines (ls : List HeaderLine) : Bytes := ls.flatMap fun l ↦ l.text ++ CRLF

theorem text_crlf (l : HeaderLine) : ¬ CRLF <:+: l.text := by
  rw [text, CRLF, pair_infix_append_cons (by decide) (by decide), not_or]
  exact ⟨l.name_crlf, l.rest_crlf⟩

theorem length_text (l : HeaderLine) : l.text.length = l.name.length + 1 + l.rest.length := by
  simp only [text, List.length_append, List.length_cons]
  omega

theorem find_colon (l : HeaderLine) : find (ascii ":") l.text = some l.name.length :=
  find_singleton l.colon_notMem l.rest

theorem find_crlf (l : HeaderLine) (t : Bytes) :
    find CRLF (l.text ++ (CRLF ++ t)) = some l.text.length := find_pair CR_ne_LF l.text_crlf t

theorem not_blank (l : HeaderLine) (t : Bytes) : ¬ CRLF <+: l.text ++ (CRLF ++ t) := by
  intro hp
  have h : find CRLF (l.text ++ (CRLF ++ t)) = some 0 := by
    obtain ⟨u, hu⟩ := hp
    rw [← hu]
    rfl
  rw [find_crlf, length_text] at h
  simp at h

theorem drop_line (l : HeaderLine) (t : Bytes) :
    (l.text ++ (CRLF ++ t)).drop (l.text.length + 2) = t := by
  rw [← List.append_assoc, List.drop_left' (by simp [CRLF])]

theorem drop_text (l : HeaderLine) (n : ℕ) :
    l.text.drop (l.name.length + n + 1) = l.rest.drop n := by
  rw [text, Nat.add_assoc, List.drop_append, List.drop_eq_nil_of_le (by omega), List.nil_append,
    Nat.add_sub_cancel_left, List.drop_succ_cons]

theorem take_text (l : HeaderLine) : l.text.take l.name.length = l.name := List.take_left' rfl

theorem exists_text_eq {s : Bytes} (hc : ':'.toUInt8 ∈ s) (hs : ¬ CRLF <:+: s) :
    ∃ l : HeaderLine, l.text = s := by
  cases hcolon : find (ascii ":") s with
  | none => exact absurd hc (find_singleton_none.mp hcolon)
  | some pos =>
    obtain ⟨hsplit, hno⟩ := find_split (by decide) hcolon
    have hline : s = s.take pos ++ ':'.toUInt8 :: s.drop (pos + 1) := by
      conv_lhs => rw [hsplit]
      rw [List.append_assoc]
      rfl
    rw [hline, CRLF, pair_infix_append_cons (by decide) (by decide), not_or] at hs
    exact ⟨⟨s.take pos, s.drop (pos + 1), mt (List.singleton_infix_iff _ _).mpr hno, hs.1, hs.2⟩,
      hline.symm⟩

theorem lines_cons (l : HeaderLine) (ls : List HeaderLine) (t : Bytes) :
    lines (l :: ls) ++ t = l.text ++ (CRLF ++ (lines ls ++ t)) := by
  simp [lines]

theorem length_lines_cons (l : HeaderLine) (ls : List HeaderLine) :
    (lines (l :: ls)).length = l.text.length + 2 + (lines ls).length := by
  have h := congrArg List.length (lines_cons l ls [])
  simp only [List.append_nil, List.length_append, CRLF, List.length_cons, List.length_nil] at h
  omega

end HeaderLine

namespace HttpHeader

open HttpRequest HeaderLine

/-- The blanks behind the colon end at the latest in front of the `CR` of the line. -/
theorem parseTurn_text (l : HeaderLine) (t : Bytes) :
    parseTurn (l.text ++ (CRLF ++ t)) = .ok (.line l.name l.value (l.text.length + 2)) := by
  have hd : (l.text ++ (CRLF ++ t)).drop (l.name.length + 1) = l.rest ++ CR :: (LF :: t) := by
    rw [List.drop_append_of_le_length (by rw [length_text]; omega)]
    exact congrArg (· ++ (CRLF ++ t)) (l.drop_text 0)
  have hle := lead_le l.rest
  have hlen := l.length_text
  have hvalue : substr l.text (l.name.length + lead l.rest + 1)
      (l.text.length - (l.name.length + lead l.rest + 1)) = .ok l.value := by
    rw [substr_of_le (by omega), drop_text, List.take_of_length_le (by simp; omega)]
    have hs := List.takeWhile_append_dropWhile (p := (· = SP)) (l := l.rest)
    conv_lhs => rw [← hs]
    rw [lead, List.drop_left' (by rw [hs])]
    rfl
  unfold parseTurn
  rw [if_neg (l.not_blank t), l.find_crlf t]
  dsimp only
  rw [List.take_left' rfl, l.find_colon]
  dsimp only
  rw [hd, blanks_append l.rest (by decide), l.take_text]
  simp only [bind, Except.bind, hvalue]

/-- A view starts with a blank line or with a header line, or the loop stops there. -/
theorem parseTurn_cases (header : Bytes) :
    (∃ t, header = CRLF ++ t ∧ parseTurn header = .ok .blank) ∨
    (∃ (l : HeaderLine) (t : Bytes), header = l.text ++ (CRLF ++ t)) ∨
    parseTurn header = .ok .stop := by
  by_cases hb : CRLF <+: header
  · obtain ⟨t, rfl⟩ := hb
    exact .inl ⟨t, rfl, if_pos (List.prefix_append _ _)⟩
  · cases hpos : find CRLF header with
    | none => exact .inr (.inr (by rw [parseTurn, if_neg hb, hpos]))
    | some pos =>
      cases hcolon : find (ascii ":") (header.take pos) with
      | none =>
        refine .inr (.inr ?_)
        rw [parseTurn, if_neg hb, hpos]
        dsimp only
        rw [hcolon]
      | some pos2 =>
        obtain ⟨hs, hno⟩ := find_split (by decide) hpos
        obtain ⟨l, hl⟩ := exists_text_eq (mem_of_find hcolon) hno
        refine .inr (.inl ⟨l, header.drop (pos + 2), ?_⟩)
        rw [hl, ← List.append_assoc]
        exact hs

/-- A header with lines stored in it as `parse` does. -/
def storeLines (h : HttpHeader) (ls : List HeaderLine) : HttpHeader :=
  ls.foldl (fun h l ↦ h.add l.name l.value) h

theorem parseLoop_lines (ls : List HeaderLine) (t : Bytes) {index : ℤ}
    (hi : Int.bmod index (2 ^ 32) = index) (h : HttpHeader) :
    parseLoop (lines ls ++ t) index h =
      parseLoop t (Int.bmod (index + (lines ls).length) (2 ^ 32)) (storeLines h ls) := by
  induction ls generalizing index h with
  | nil =>
    change _ = parseLoop t (Int.bmod (index + (0 : ℕ)) (2 ^ 32)) h
    rw [Int.natCast_zero, Int.add_zero, hi]
    rfl
  | cons l ls ih =>
    rw [lines_cons, parseLoop_eq, parseTurn_text]
    dsimp only
    rw [drop_line, ih Int.bmod_bmod, Int.bmod_add_bmod, Int.add_assoc, ← Int.natCast_add,
      length_lines_cons]
    rfl

/-- Every text is made of header lines and a tail at which the loop ends. -/
theorem exists_lines (header : Bytes) : ∃ (ls : List HeaderLine) (t : Bytes),
    header = lines ls ++ t ∧ (CRLF <+: t ∨ parseTurn t = .ok .stop) := by
  induction hn : header.length using Nat.strong_induction_on generalizing header with
  | _ n ih =>
    subst hn
    rcases parseTurn_cases header with ⟨t, rfl, -⟩ | ⟨l, t, rfl⟩ | hstop
    · exact ⟨[], CRLF ++ t, rfl, .inl (List.prefix_append _ _)⟩
    · obtain ⟨ls, t', ht, hend⟩ := ih t.length (by simp [length_text]; omega) t rfl
      exact ⟨l :: ls, t', by rw [lines_cons, ← ht], hend⟩
    · exact ⟨[], header, rfl, .inr hstop⟩

end HttpHeader

end Socnet.Http
