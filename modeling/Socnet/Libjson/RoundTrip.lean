import Socnet.Libjson.JsonFormatter
import Socnet.Libjson.Layout

namespace Socnet.Libjson

open JsonLexer JsonParser JsonFormatter

variable {F : Type} {toDouble : Bytes → F} {showDouble : F → Bytes}

theorem scanString_cons {c : UInt8} (hq : c ≠ quote) (hb : c ≠ backslash) {text raw rest : Bytes}
    (h : scanString text = .ok (raw, rest)) : scanString (c :: text) = .ok (c :: raw, rest) := by
  rw [scanString.eq_def]
  simp [hq, hb, h, bind, Except.bind]

theorem scanString_escape {e : UInt8} (he : isValidNextEscapeCharacter e = true)
    {text raw rest : Bytes} (h : scanString text = .ok (raw, rest)) :
    scanString (backslash :: e :: text) = .ok (backslash :: e :: raw, rest) := by
  have hq : backslash ≠ quote := by decide
  rw [scanString.eq_def]
  simp [hq, he, h, bind, Except.bind]

theorem scanString_quote (rest : Bytes) : scanString (quote :: rest) = .ok ([], rest) := by
  rw [scanString.eq_def]
  simp

/-- A string that was escaped is read back. -/
theorem spells_unescapeString (s : Bytes) : Spells (unescapeString s) s := by
  refine ⟨fun rest ↦ ?_, escapeString_unescapeString s⟩
  induction s with
  | nil => exact scanString_quote rest
  | cons c s ih =>
    rw [unescapeString, List.flatMap_cons, unescapeCharacter]
    cases h : escapes.lookup c with
    | some l =>
      have hmem : (c, l) ∈ escapes := by
        obtain ⟨l₁, l₂, hl, -⟩ := List.lookup_eq_some_iff.mp h
        rw [hl]
        simp
      have hall : ∀ p ∈ escapes, isValidNextEscapeCharacter p.2.toUInt8 = true := by decide
      exact scanString_escape (hall _ hmem) ih
    | none =>
      have hne (x : UInt8) (hx : (escapes.lookup x).isSome) : c ≠ x := by
        rintro rfl
        rw [h] at hx
        cases hx
      exact scanString_cons (hne quote (by decide)) (hne backslash (by decide)) ih

theorem setBuffer_of_lt {s : Bytes} (h : s.length < 2 ^ 31) : setBuffer s = .ok s := by
  unfold setBuffer
  rw [bmod_of_lt h]
  simp

theorem setBuffer_of_ge {s : Bytes} (h : 2 ^ 31 ≤ s.length) (h' : s.length < 2 ^ 32) :
    setBuffer s = .error .exception := by
  have hm : Int.bmod s.length (2 ^ 32) < 0 := by
    rw [Int.bmod_def]
    omega
  unfold setBuffer
  exact if_pos hm

theorem setBuffer_eq_ok {s text : Bytes} (h : setBuffer s = .ok text) :
    ∃ m : ℕ, text = s.take m ∧ m < 2 ^ 31 ∧ (s.length < 2 ^ 31 ∨ m + 2 ^ 32 ≤ s.length) := by
  unfold setBuffer at h
  dsimp only at h
  split_ifs at h with hm
  refine ⟨(Int.bmod s.length (2 ^ 32)).toNat, (Except.ok.inj h).symm, ?_, ?_⟩
  · rw [Int.bmod_def] at hm ⊢
    omega
  · rw [Int.bmod_def] at hm ⊢
    omega

/-- The text of a plain tree in any layout is parsed back, unless it is too long
for the reader. -/
theorem parse_text (L : Layout) {spell : Bytes → Bytes} {root : Json F}
    (hp : root.Plain) (hs : ∀ s ∈ root.strings, Spells (spell s) s) (d : ℕ)
    (hlen : (root.text L spell d).length < 2 ^ 31) :
    parse toDouble true (root.text L spell d) = .ok root := by
  have hbuffer := setBuffer_of_lt hlen
  have hf : Follows [] := by simp [Follows]
  have htokens : getTokens toDouble true (root.text L spell d) = .ok root.tokens :=
    getTokens_of_reads (Json.getTokens_text L root hp hs d hf)
  rw [parse, hbuffer]
  simp only [bind, Except.bind, htokens]
  exact parseTokens_written (Json.Plain.written root hp)

theorem isWhite_replicate {n : ℕ} {c : UInt8} (hc : c ∈ List.replicate n SP) :
    isWhite c = true := by
  rw [List.eq_of_mem_replicate hc]
  rfl

/-- One line an item, indented by its depth. -/
def indented (indent : ℕ) : Layout where
  newline d := LF :: List.replicate (d * indent) SP
  gap := [SP]
  newline_le d := by
    simp only [List.length_cons, List.length_replicate]
    exact Nat.succ_le_succ (Nat.mul_le_mul_right indent (Nat.sub_le d 1))
  newline_white d c hc := by
    cases hc with
    | head => rfl
    | tail _ hc => exact isWhite_replicate hc
  gap_white c hc := by
    rw [List.mem_singleton.mp hc]
    rfl

section Format

variable (indent : ℕ) {escape : Bool} {spell : Bytes → Bytes}

theorem spaces_of_lt {n : ℕ} (h : n < 2 ^ 31) : spaces n = .ok (List.replicate n SP) := if_pos h

theorem ascii_newline : ascii "\n" = [LF] := rfl

theorem ascii_colon : ascii ": " = ascii ":" ++ [SP] := rfl

theorem closing_empty {d : ℕ} {empty : Bool} (he : empty = true ∨ d = 1 ∧ empty = false) :
    closingSpaces indent d empty = .ok [] := by
  obtain rfl | ⟨rfl, rfl⟩ := he
  · rfl
  · rw [closingSpaces, if_neg (by simp), Nat.sub_self, Nat.zero_mul]
    rfl

/-- `x` gives the text `t` or nothing, and gives it if it is short enough for the
counters. -/
structure Formats (x : Except Fault Bytes) (t : Bytes) : Prop where
  eq_of_ok : ∀ s, x = .ok s → s = t
  eq_ok : t.length < 2 ^ 31 → x = .ok t

namespace Formats

variable {x : Except Fault Bytes} {s t : Bytes}

theorem of_eq (h : s = t) : Formats (.ok s) t := by
  subst h
  exact ⟨fun s' h ↦ (Except.ok.inj h).symm, fun _ ↦ rfl⟩

theorem bind {f : Bytes → Except Fault Bytes} (hx : Formats x s) (hle : s.length ≤ t.length)
    (hf : Formats (f s) t) : Formats (x >>= f) t := by
  constructor
  · intro s' h
    obtain ⟨a, ha, h⟩ := bind_eq_ok.mp h
    rw [hx.eq_of_ok a ha] at h
    exact hf.eq_of_ok s' h
  · intro hlen
    rw [hx.eq_ok (hle.trans_lt hlen)]
    exact hf.eq_ok hlen

end Formats

theorem formats_spaces (n : ℕ) : Formats (spaces n) (List.replicate n SP) := by
  constructor
  · intro s h
    unfold spaces at h
    split_ifs at h
    exact (Except.ok.inj h).symm
  · intro h
    rw [List.length_replicate] at h
    exact spaces_of_lt h

theorem closing_nonempty {d : ℕ} {empty : Bool} (he : empty = false ∨ d = 1 ∧ empty = false) :
    Formats (closingSpaces indent d empty) (List.replicate ((d - 1) * indent) SP) := by
  obtain rfl : empty = false := he.elim id And.right
  exact formats_spaces _

/-- The lines between the brackets of a container. -/
theorem formats_container {d : ℕ} {empty : Bool} (he : empty = false ∨ d = 1 ∧ empty = false)
    {open_ text close : Bytes} {x : Except Fault Bytes}
    (hx : Formats x (List.replicate (d * indent) SP ++ text ++ [LF])) :
    Formats (x >>= fun lines ↦ closingSpaces indent d empty >>= fun space ↦
        .ok (open_ ++ ascii "\n" ++ lines ++ space ++ close))
      (open_ ++ ((indented indent).newline d ++ text ++ (indented indent).newline (d - 1)) ++
        close) := by
  refine hx.bind ?_ ((closing_nonempty indent he).bind ?_ (.of_eq ?_))
  · simp [indented]
    omega
  · simp [indented]
    omega
  · simp [indented, ascii_newline]

/-- The formatter spells decoded strings by `spell`. -/
def FormatsStrings (escape : Bool) (spell : Bytes → Bytes) : Prop :=
  ∀ s : JsonString, s.isEscaped = true → s.toStringEscape escape = .ok (quoted (spell s.value))

mutual

/-- The formatter writes the indented text, if that is short enough for its counters. -/
theorem Json.format_text (hspell : FormatsStrings escape spell) (v : Json F) (hv : v.Plain) (d : ℕ)
    (empty : Bool) (he : empty = v.empty ∨ d = 1 ∧ empty = false) :
    Formats (recursiveFormatter showDouble indent escape d empty v)
      (v.text (indented indent) spell d) := by
  cases v with
  | object members =>
    rw [Json.text, recursiveFormatter]
    cases members with
    | nil =>
      rw [closing_empty indent he]
      exact .of_eq rfl
    | cons key value members =>
      have hm := Members.format_text hspell (.cons key value members)
        (by simpa [Json.Plain] using hv) d rfl
      exact formats_container indent he hm
  | array elements =>
    rw [Json.text, recursiveFormatter]
    cases elements with
    | nil =>
      rw [closing_empty indent he]
      exact .of_eq rfl
    | cons value elements =>
      have hm := Elements.format_text hspell (.cons value elements)
        (by simpa [Json.Plain] using hv) d rfl
      exact formats_container indent he hm
  | string s =>
    rw [recursiveFormatter, hspell s hv]
    exact .of_eq rfl
  | number n => exact .of_eq rfl
  | boolean b => exact .of_eq rfl
  | null => exact .of_eq rfl
  | float x => exact hv.elim
  | nullptr => exact hv.elim

theorem Members.format_text (hspell : FormatsStrings escape spell) (m : Members F) (hm : m.Plain)
    (d : ℕ) (hne : m.empty = false) :
    Formats (formatMembers showDouble indent escape d m)
      (List.replicate (d * indent) SP ++ m.text (indented indent) spell d ++ [LF]) := by
  cases m with
  | nil => cases hne
  | cons key value members =>
    obtain ⟨hkey, hvalue, hmembers⟩ := hm
    have hv := Json.format_text hspell value hvalue (d + 1) value.empty (.inl rfl)
    rw [formatMembers, hspell key hkey, Members.text]
    refine (formats_spaces _).bind ?_ (hv.bind ?_ ?_)
    · simp
    · simp
      omega
    · cases members with
      | nil =>
        exact .of_eq (by simp [Members.empty, indented, ascii_newline, ascii_colon])
      | cons key' value' members' =>
        have hrest := Members.format_text hspell (.cons key' value' members') hmembers d rfl
        refine hrest.bind ?_ (.of_eq ?_)
        · simp [Members.empty, indented]
          omega
        · simp [Members.empty, indented, ascii_newline, ascii_colon]

theorem Elements.format_text (hspell : FormatsStrings escape spell) (e : Elements F) (he : e.Plain)
    (d : ℕ) (hne : e.empty = false) :
    Formats (formatElements showDouble indent escape d e)
      (List.replicate (d * indent) SP ++ e.text (indented indent) spell d ++ [LF]) := by
  cases e with
  | nil => cases hne
  | cons value elements =>
    have hv := Json.format_text hspell value he.1 (d + 1) value.empty (.inl rfl)
    rw [formatElements, Elements.text]
    refine (formats_spaces _).bind ?_ (hv.bind ?_ ?_)
    · simp
    · simp
      omega
    · cases elements with
      | nil => exact .of_eq (by simp [Elements.empty, ascii_newline])
      | cons value' elements' =>
        have hrest := Elements.format_text hspell (.cons value' elements') he.2 d rfl
        refine hrest.bind ?_ (.of_eq ?_)
        · simp [Elements.empty, indented]
          omega
        · simp [Elements.empty, indented, ascii_newline]

end

end Format

theorem formatsStrings_unescape : FormatsStrings false unescapeString := by
  intro s hs
  simp [JsonString.toStringEscape, hs, bind, Except.bind, quoted]

/-- Formatting with any indentation and parsing give back the tree, if the text
is not too long for the `int` that holds its length. -/
theorem parse_format (toDouble : Bytes → F) (showDouble : F → Bytes) {root : Json F}
    (hr : Root root) (hp : root.Plain) {indent : ℤ} (hi : 0 < indent)
    (hlen : (root.text (indented indent.toNat) unescapeString 1).length < 2 ^ 31) :
    ∃ text, format showDouble indent false root = .ok text ∧
      parse toDouble true text = .ok root := by
  refine ⟨root.text (indented indent.toNat) unescapeString 1, ?_,
    parse_text _ hp (fun s _ ↦ spells_unescapeString s) 1 hlen⟩
  have hf : Formats (recursiveFormatter showDouble indent.toNat false 1 false root) _ :=
    Json.format_text indent.toNat formatsStrings_unescape root hp 1 false (.inr ⟨rfl, rfl⟩)
  cases root with
  | object members => rw [format, if_neg (by omega), hf.eq_ok hlen]
  | array elements => rw [format, if_neg (by omega), hf.eq_ok hlen]
  | string s => exact hr.elim
  | number n => exact hr.elim
  | float x => exact hr.elim
  | boolean b => exact hr.elim
  | null => exact hr.elim
  | nullptr => exact hr.elim

theorem parse_format_null :
    ∃ text, format (fun _ : ℕ ↦ []) 2 false (.array (.cons .null .nil)) = .ok text ∧
      parse (fun _ ↦ 0) true text = .ok (.array (.cons .null .nil)) :=
  have hr : Root (.array (.cons .null .nil) : Json ℕ) := trivial
  parse_format _ _ hr ⟨trivial, trivial⟩ (by decide) (by decide)

/-- The formatted text of `[null]` with an indentation of `n`. -/
theorem format_null {n : ℕ} (h0 : 0 < n) (h : n < 2 ^ 31) :
    format (fun _ : ℕ ↦ []) n false (.array (.cons .null .nil)) =
      .ok (ascii "[\n" ++ List.replicate n SP ++ ascii "null\n]") := by
  have hcond : ¬ (n : ℤ) ≤ 0 := by omega
  rw [format, if_neg hcond, Int.toNat_natCast, recursiveFormatter, formatElements, Nat.one_mul,
    spaces_of_lt h, closing_empty n (.inr ⟨rfl, rfl⟩)]
  simp [recursiveFormatter, Json.toString, formatElements, Elements.empty, bind, Except.bind, ascii]

/-- A text of `2 ^ 31` bytes or more is not read. -/
theorem not_parse_format :
    ¬ ∀ (root : Json ℕ) (indent : ℤ), Root root → root.Plain → 0 < indent →
      indent ≤ 2147483647 → ∃ text, format (fun _ ↦ []) indent false root = .ok text ∧
        parse (fun _ ↦ 0) true text = .ok root := by
  intro h
  obtain ⟨text, hf, hp⟩ := h (.array (.cons .null .nil)) 2147483647 trivial ⟨trivial, trivial⟩
    (by decide) (by decide)
  have hnull := format_null (n := 2147483647) (by decide) (by decide)
  obtain rfl := Except.ok.inj (hf.symm.trans hnull)
  have hlen : (ascii "[\n" ++ List.replicate 2147483647 SP ++ ascii "null\n]").length =
      2147483655 := by
    rw [List.length_append, List.length_append, List.length_replicate]
    rfl
  rw [parse, setBuffer_of_ge (by rw [hlen]; decide) (by rw [hlen]; decide)] at hp
  cases hp

end Socnet.Libjson
