import Socnet.Libjson.ParserCompleteness

namespace Socnet.Libjson

open JsonLexer

variable {F : Type} {toDouble : Bytes → F}

/-- How a text is spaced: what stands in front of a line at a depth, and what
stands behind a colon. -/
structure Layout where
  newline : ℕ → Bytes
  gap : Bytes
  newline_le : ∀ d, (newline (d - 1)).length ≤ (newline d).length
  newline_white : ∀ d, ∀ c ∈ newline d, isWhite c = true
  gap_white : ∀ c ∈ gap, isWhite c = true

def quoted (raw : Bytes) : Bytes := quote :: (raw ++ [quote])

section Text

variable (L : Layout) (spell : Bytes → Bytes)

mutual

/-- The text of a tree whose strings are spelled by `spell`. -/
def Json.text (d : ℕ) : Json F → Bytes
  | .object members =>
    ascii "\x7b" ++ (if members.empty then []
      else L.newline d ++ members.text d ++ L.newline (d - 1)) ++ ascii "\x7d"
  | .array elements =>
    ascii "[" ++ (if elements.empty then []
      else L.newline d ++ elements.text d ++ L.newline (d - 1)) ++ ascii "]"
  | .string s => quoted (spell s.value)
  | .number n => intText n
  | .boolean b => if b then ascii "true" else ascii "false"
  | .null => ascii "null"
  | .float _ => []
  | .nullptr => []

def Members.text (d : ℕ) : Members F → Bytes
  | .nil => []
  | .cons key value members =>
    quoted (spell key.value) ++ (ascii ":" ++ L.gap) ++ value.text (d + 1) ++
      if members.empty then [] else ascii "," ++ L.newline d ++ members.text d

def Elements.text (d : ℕ) : Elements F → Bytes
  | .nil => []
  | .cons value elements =>
    value.text (d + 1) ++ if elements.empty then [] else ascii "," ++ L.newline d ++ elements.text d

end

end Text

mutual

/-- The keys and strings of a tree, in their order. -/
def Json.strings : Json F → List Bytes
  | .object members => members.strings
  | .array elements => elements.strings
  | .string s => [s.value]
  | .number _ => []
  | .boolean _ => []
  | .null => []
  | .float _ => []
  | .nullptr => []

def Members.strings : Members F → List Bytes
  | .nil => []
  | .cons key value members => key.value :: (value.strings ++ members.strings)

def Elements.strings : Elements F → List Bytes
  | .nil => []
  | .cons value elements => value.strings ++ elements.strings

end

theorem Members.tokens_of_empty (m : Members F) (h : m.empty = true) : m.tokens = [] := by
  cases m with
  | nil => rfl
  | cons key value members => cases h

theorem Elements.tokens_of_empty (e : Elements F) (h : e.empty = true) : e.tokens = [] := by
  cases e with
  | nil => rfl
  | cons value elements => cases h

theorem Members.strings_of_empty (m : Members F) (h : m.empty = true) : m.strings = [] := by
  cases m with
  | nil => rfl
  | cons key value members => cases h

theorem Elements.strings_of_empty (e : Elements F) (h : e.empty = true) : e.strings = [] := by
  cases e with
  | nil => rfl
  | cons value elements => cases h

/-- Tokens read before the tokens of a rest. -/
def prepend (tokens : List (Token F)) (rest : Except Fault (List (Token F))) :
    Except Fault (List (Token F)) := rest >>= fun ts ↦ .ok (tokens ++ ts)

theorem prepend_nil (x : Except Fault (List (Token F))) : prepend [] x = x := by
  cases x with
  | error e => rfl
  | ok ts => rfl

theorem prepend_prepend (ks ks' : List (Token F)) (x : Except Fault (List (Token F))) :
    prepend ks (prepend ks' x) = prepend (ks ++ ks') x := by
  cases x with
  | error e => rfl
  | ok ts => simp [prepend, bind, Except.bind]

theorem prepend_eq_ok {tokens ks : List (Token F)} {x : Except Fault (List (Token F))}
    (h : prepend tokens x = .ok ks) : ∃ ks', x = .ok ks' ∧ ks = tokens ++ ks' := by
  obtain ⟨ks', hx, h⟩ := bind_eq_ok.mp h
  cases h
  exact ⟨ks', hx, rfl⟩

section Reads

variable (toDouble) in
/-- The lexer reads `text` in front of `rest` as `tokens`. -/
def Reads (text : Bytes) (tokens : List (Token F)) (rest : Bytes) : Prop :=
  getTokens toDouble true (text ++ rest) = prepend tokens (getTokens toDouble true rest)

variable {Y Z : Bytes} {ts : List (Token F)}

theorem getTokens_of_reads (hr : Reads toDouble Y ts []) : getTokens toDouble true Y = .ok ts := by
  rw [Reads, List.append_nil, getTokens_empty] at hr
  rw [hr]
  simp [prepend, bind, Except.bind]

theorem Reads.append {us : List (Token F)} {rest : Bytes} (hY : Reads toDouble Y ts (Z ++ rest))
    (hZ : Reads toDouble Z us rest) : Reads toDouble (Y ++ Z) (ts ++ us) rest := by
  rw [Reads, List.append_assoc, hY, hZ, prepend_prepend]

end Reads

section Lexing

variable {rest : Bytes}

theorem getTokens_white {w : Bytes} (hw : ∀ c ∈ w, isWhite c = true) {escape : Bool}
    (rest : Bytes) : getTokens toDouble escape (w ++ rest) = getTokens toDouble escape rest := by
  have hdrop : (w ++ rest).dropWhile isWhite = rest.dropWhile isWhite :=
    List.dropWhile_append_of_pos hw
  cases h : rest.dropWhile isWhite with
  | nil => rw [getTokens_nil (hdrop.trans h), getTokens_nil h]
  | cons c text => rw [getTokens_eq (hdrop.trans h), getTokens_eq h]

theorem getTokens_analysis {c : UInt8} {text : Bytes} {escape : Bool} (hc : isWhite c = false) :
    getTokens toDouble escape (c :: text) = analysis toDouble escape c text >>= fun x ↦
      prepend x.1.toList (getTokens toDouble escape x.2) := by
  have hdrop : (c :: text).dropWhile isWhite = c :: text := by simp [hc]
  exact getTokens_eq hdrop

theorem getTokens_cons {c : UInt8} {text : Bytes} {token : Token F} {escape : Bool}
    (hc : isWhite c = false) (ha : analysis toDouble escape c text = .ok (some token, rest)) :
    getTokens toDouble escape (c :: text) = prepend [token] (getTokens toDouble escape rest) := by
  rw [getTokens_analysis hc, ha]
  rfl

theorem getTokens_punctuation {c : UInt8} {token : Token F} {escape : Bool}
    (h : (c, token) ∈ punctuation) :
    getTokens toDouble escape (c :: rest) = prepend [token] (getTokens toDouble escape rest) := by
  simp only [punctuation, List.mem_cons, Prod.mk.injEq, List.not_mem_nil, or_false] at h
  obtain ⟨rfl, rfl⟩ | ⟨rfl, rfl⟩ | ⟨rfl, rfl⟩ | ⟨rfl, rfl⟩ | ⟨rfl, rfl⟩ | ⟨rfl, rfl⟩ := h
  · exact getTokens_cons rfl rfl
  · exact getTokens_cons rfl rfl
  · exact getTokens_cons rfl rfl
  · exact getTokens_cons rfl rfl
  · exact getTokens_cons rfl rfl
  · exact getTokens_cons rfl rfl

theorem colon_mem : (':'.toUInt8, .keyValueSep) ∈ punctuation (F := F) := by simp [punctuation]
theorem comma_mem : (','.toUInt8, .sep) ∈ punctuation (F := F) := by simp [punctuation]
theorem objectBegin_mem : ('{'.toUInt8, .objectBegin) ∈ punctuation (F := F) := by simp [punctuation]
theorem objectEnd_mem : ('}'.toUInt8, .objectEnd) ∈ punctuation (F := F) := by simp [punctuation]
theorem arrayBegin_mem : ('['.toUInt8, .arrayBegin) ∈ punctuation (F := F) := by simp [punctuation]
theorem arrayEnd_mem : (']'.toUInt8, .arrayEnd) ∈ punctuation (F := F) := by simp [punctuation]

/-- The lexer reads `raw` between quotes as the string `s`. -/
def Spells (raw s : Bytes) : Prop :=
  (∀ rest, scanString (raw ++ quote :: rest) = .ok (raw, rest)) ∧ escapeString raw = .ok s

theorem getTokens_quoted {raw s : Bytes} (h : Spells raw s) :
    getTokens toDouble true (quoted raw ++ rest) =
      prepend [.scalar (.string s)] (getTokens toDouble true rest) := by
  have ha : analysis toDouble true quote (raw ++ quote :: rest) =
      .ok (some (.scalar (.string s)), rest) := by
    rw [analysis, if_pos rfl, stringLiteral, h.1 rest]
    simp [bind, Except.bind, decode, h.2]
  rw [quoted, List.cons_append, List.append_assoc, List.singleton_append]
  exact getTokens_cons rfl ha

theorem getTokens_identifier {c : UInt8} {word : String} {value : Scalar F} {escape : Bool}
    (hc : isWhite c = false)
    (ha : ∀ text, analysis toDouble escape c text = scanIdentifier word value text) :
    getTokens toDouble escape (c :: (ascii word ++ rest)) =
      prepend [.scalar value] (getTokens toDouble escape rest) := by
  refine getTokens_cons hc ?_
  rw [ha, scanIdentifier]
  simp only [if_pos (List.prefix_append (ascii word) rest), List.drop_left]

/-- What can follow a value: anything that no number goes on with. -/
def Follows (rest : Bytes) : Prop :=
  ∀ c ∈ rest.head?, isNumber c = false ∧ c ≠ '.'.toUInt8 ∧ isExponent c = false

theorem scan_stop {p : UInt8 → Bool} {text : Bytes} (h : ∀ c ∈ text.head?, ¬ p c = true) :
    text.takeWhile p = [] ∧ text.dropWhile p = text := by
  cases text with
  | nil => exact ⟨rfl, rfl⟩
  | cons c text =>
    have hc : ¬ p c = true := h c rfl
    exact ⟨List.takeWhile_cons_of_neg hc, List.dropWhile_cons_of_neg hc⟩

/-- A loop over the characters of one kind reads `w` where no such character follows it. -/
theorem scan_append {p : UInt8 → Bool} {w text : Bytes} (hw : ∀ c ∈ w, p c = true)
    (h : ∀ c ∈ text.head?, ¬ p c = true) :
    (w ++ text).takeWhile p = w ∧ (w ++ text).dropWhile p = text := by
  obtain ⟨htake, hdrop⟩ := scan_stop h
  constructor
  · rw [List.takeWhile_append_of_pos hw, htake, List.append_nil]
  · rw [List.dropWhile_append_of_pos hw, hdrop]

theorem not_leadingZero {c : UInt8} {digits text : Bytes} (h0 : c = '0'.toUInt8 → digits = [])
    (h : ∀ x ∈ text.head?, ¬ isNumber x = true) :
    ¬ (c = '0'.toUInt8 ∧ (digits ++ text).head?.any isNumber) := by
  rintro ⟨hc, hany⟩
  rw [h0 hc, List.nil_append] at hany
  cases text with
  | nil => cases hany
  | cons d text => exact h d rfl hany

theorem scanNumber_digits {c : UInt8} {digits : Bytes} (hd : ∀ x ∈ digits, isNumber x = true)
    (h0 : c = '0'.toUInt8 → digits = []) (hf : Follows rest) {n : ℤ} (hn : toInt c digits = .ok n) :
    scanNumber toDouble c (digits ++ rest) = .ok (.number n, rest) := by
  have hstop : ∀ x ∈ rest.head?, ¬ isNumber x = true := fun x hx ↦ by simp [(hf x hx).1]
  obtain ⟨htake, hdrop⟩ := scan_append hd hstop
  rw [scanNumber, if_neg (not_leadingZero h0 hstop)]
  simp only [htake, hdrop, hn, bind, Except.bind]
  cases rest with
  | nil => rfl
  | cons d rest =>
    obtain ⟨-, hdot, hexp⟩ := hf d rfl
    simp [hdot, hexp]

theorem lookup_punctuation {c : UInt8} (hc : c ∉ ascii ":,\x7b[\x7d]") :
    (punctuation (F := F)).lookup c = none := by
  have hkeys : (punctuation (F := F)).map Prod.fst = ascii ":,\x7b[\x7d]" := rfl
  rw [List.lookup_eq_none_iff]
  intro p hp
  have hk : p.1 ∈ ascii ":,\x7b[\x7d]" := hkeys ▸ List.mem_map_of_mem hp
  simpa using fun h : c = p.1 ↦ hc (h ▸ hk)

/-- The characters that start a number start nothing else. -/
theorem numberStart_not_mem : ∀ n < 256, isNumber n.toUInt8 || isSign n.toUInt8 →
    n.toUInt8 ∉ ascii "\"/tfn:,\x7b[\x7d] \n" ++ [9, 11] := by decide +kernel

theorem analysis_number {c : UInt8} (hc : isNumber c || isSign c) {escape : Bool} (text : Bytes) :
    isWhite c = false ∧ analysis toDouble escape c text =
      scanNumber toDouble c text >>= fun x ↦ .ok (some (.scalar x.1), x.2) := by
  have hmem : c ∉ ascii "\"/tfn:,\x7b[\x7d] \n" ++ [9, 11] := by
    have h := numberStart_not_mem c.toNat c.toNat_lt
    simpa using h (by simpa using hc)
  have hne {x : UInt8} (hx : x ∈ ascii "\"/tfn:,\x7b[\x7d] \n" ++ [9, 11]) : c ≠ x :=
    fun h ↦ hmem (h ▸ hx)
  have hlookup : (punctuation (F := F)).lookup c = none := by
    have hsub : ∀ k ∈ ascii ":,\x7b[\x7d]", k ∈ ascii "\"/tfn:,\x7b[\x7d] \n" ++ [9, 11] := by
      decide +kernel
    exact lookup_punctuation fun h ↦ hmem (hsub c h)
  constructor
  · simp only [isWhite, isSpace, isNewline, Bool.or_eq_false_iff, decide_eq_false_iff_not]
    exact ⟨⟨⟨hne (by decide), hne (by decide)⟩, hne (by decide)⟩, hne (by decide)⟩
  · rw [analysis, if_neg (hne (by decide)), if_neg (hne (by decide)), if_neg (hne (by decide)),
      if_neg (hne (by decide)), if_neg (hne (by decide)), hlookup]
    simp only [integerOrFloat]
    rw [if_pos (by simpa using hc)]

theorem getTokens_intText {n : ℤ} (hn : -2147483648 ≤ n ∧ n ≤ 2147483647) (hf : Follows rest) :
    getTokens toDouble true (intText n ++ rest) =
      prepend [.scalar (.number n)] (getTokens toDouble true rest) := by
  have hlex {c : UInt8} {digits : Bytes} (hc : isNumber c || isSign c)
      (hd : ∀ x ∈ digits, isNumber x = true) (h0 : c = '0'.toUInt8 → digits = [])
      (hi : toInt c digits = .ok n) :
      getTokens toDouble true (c :: (digits ++ rest)) =
        prepend [.scalar (.number n)] (getTokens toDouble true rest) := by
    obtain ⟨hw, ha⟩ : _ ∧ analysis toDouble true c (digits ++ rest) = _ :=
      analysis_number hc (digits ++ rest)
    refine getTokens_cons hw ?_
    rw [ha, scanNumber_digits hd h0 hf hi]
    rfl
  unfold intText
  split_ifs with hneg
  · change getTokens toDouble true ('-'.toUInt8 :: (natText n.natAbs ++ rest)) = _
    refine hlex (by decide) (fun x hx ↦ isNumber_of_mem_natText hx)
      (fun h ↦ absurd h (by decide)) ?_
    have hv : -(natValue (natText n.natAbs) : ℤ) = n := by
      rw [natValue_natText]
      omega
    simp only [toInt, if_true]
    rw [hv, if_pos hn]
  · obtain ⟨c, s, hs, hc, h0⟩ := natText_eq_cons n.natAbs
    have hv : (natValue (c :: s) : ℤ) = n := by
      rw [← hs, natValue_natText]
      omega
    have hsign : c ≠ '-'.toUInt8 ∧ c ≠ '+'.toUInt8 := by
      constructor
      · rintro rfl
        cases hc
      · rintro rfl
        cases hc
    rw [hs]
    refine hlex (by simp [hc]) (fun x hx ↦ ?_) h0 ?_
    · exact isNumber_of_mem_natText (n := n.natAbs) (by rw [hs]; exact .tail c hx)
    · simp only [toInt, if_neg hsign.1, if_neg hsign.2]
      rw [hv, if_pos hn]

theorem follows_cons {c : UInt8} (h : c ∈ ascii ":,\x7d]\n " ++ [9, 11]) : Follows (c :: rest) := by
  have hall : ∀ c ∈ ascii ":,\x7d]\n " ++ [9, 11],
      isNumber c = false ∧ c ≠ '.'.toUInt8 ∧ isExponent c = false := by decide +kernel
  intro x hx
  obtain rfl : c = x := by simpa using hx
  exact hall c h

theorem follows_white {w : Bytes} (hw : ∀ c ∈ w, isWhite c = true) (hf : Follows rest) :
    Follows (w ++ rest) := by
  cases w with
  | nil => exact hf
  | cons c w =>
    have hc := hw c (.head w)
    simp only [isWhite, isSpace, isNewline, Bool.or_eq_true, decide_eq_true_eq] at hc
    refine follows_cons ?_
    obtain ((rfl | rfl) | rfl) | rfl := hc
    · decide
    · decide
    · decide
    · decide

end Lexing

section

variable (L : Layout) {spell : Bytes → Bytes}

/-- A container: its brackets, and between them nothing or lines of text. -/
theorem getTokens_container {open_ close : UInt8} {begin_ end_ : Token F}
    (ho : (open_, begin_) ∈ punctuation) (hc : (close, end_) ∈ punctuation)
    {empty : Bool} {text : Bytes} {tokens : List (Token F)} {d : ℕ} {rest : Bytes}
    (he : empty = true → tokens = [])
    (ht : ∀ rest, Follows rest → getTokens toDouble true (text ++ rest) =
      prepend tokens (getTokens toDouble true rest)) (hf : Follows (close :: rest)) :
    getTokens toDouble true ([open_] ++ (if empty then []
      else L.newline d ++ text ++ L.newline (d - 1)) ++ [close] ++ rest) =
      prepend (begin_ :: (tokens ++ [end_])) (getTokens toDouble true rest) := by
  have hclose : getTokens toDouble true (close :: rest) = _ := getTokens_punctuation hc
  rw [List.append_assoc, List.append_assoc, List.singleton_append, List.singleton_append,
    getTokens_punctuation ho]
  cases empty with
  | true =>
    rw [if_pos rfl, List.nil_append, hclose, he rfl, prepend_prepend]
    rfl
  | false =>
    have hw := L.newline_white (d - 1)
    rw [if_neg (by simp), List.append_assoc, List.append_assoc, getTokens_white (L.newline_white d),
      ht _ (follows_white hw hf), getTokens_white hw, hclose, prepend_prepend, prepend_prepend]
    simp

/-- The rest of a container behind one of its values. -/
theorem getTokens_tail (empty : Bool) (d : ℕ) {text : Bytes} {tokens : List (Token F)}
    {rest : Bytes} (ht : getTokens toDouble true (text ++ rest) =
      prepend tokens (getTokens toDouble true rest)) (hf : Follows rest) :
    getTokens toDouble true ((if empty then [] else ascii "," ++ L.newline d ++ text) ++ rest) =
        prepend (if empty then [] else .sep :: tokens) (getTokens toDouble true rest) ∧
      Follows ((if empty then [] else ascii "," ++ L.newline d ++ text) ++ rest) := by
  cases empty with
  | true =>
    rw [if_pos rfl, if_pos rfl, prepend_nil]
    exact ⟨rfl, hf⟩
  | false =>
    have hmark {r : Bytes} : getTokens toDouble true (ascii "," ++ r) =
        prepend [.sep] (getTokens toDouble true r) :=
      getTokens_punctuation comma_mem
    rw [if_neg (by simp), if_neg (by simp), List.append_assoc, List.append_assoc]
    refine ⟨?_, follows_cons (by decide)⟩
    rw [hmark, getTokens_white (L.newline_white d), ht, prepend_prepend]
    rfl

mutual

/-- The lexer reads the text of a tree as its tokens, in any layout. -/
theorem Json.getTokens_text (v : Json F) (hv : v.Plain)
    (hs : ∀ s ∈ v.strings, Spells (spell s) s) (d : ℕ) {rest : Bytes} (hf : Follows rest) :
    getTokens toDouble true (v.text L spell d ++ rest) =
      prepend v.tokens (getTokens toDouble true rest) := by
  cases v with
  | object members =>
    rw [Json.text, Json.tokens]
    refine getTokens_container L objectBegin_mem objectEnd_mem members.tokens_of_empty
      (fun rest hf ↦ ?_) (follows_cons (by decide))
    exact Members.getTokens_text members (by simpa [Json.Plain] using hv) hs d hf
  | array elements =>
    rw [Json.text, Json.tokens]
    refine getTokens_container L arrayBegin_mem arrayEnd_mem elements.tokens_of_empty
      (fun rest hf ↦ ?_) (follows_cons (by decide))
    exact Elements.getTokens_text elements (by simpa [Json.Plain] using hv) hs d hf
  | string s => exact getTokens_quoted (hs s.value (.head []))
  | number n => exact getTokens_intText hv hf
  | boolean b =>
    cases b with
    | true => exact getTokens_identifier (c := 't'.toUInt8) rfl fun _ ↦ rfl
    | false => exact getTokens_identifier (c := 'f'.toUInt8) rfl fun _ ↦ rfl
  | null => exact getTokens_identifier (c := 'n'.toUInt8) rfl fun _ ↦ rfl
  | float x => exact hv.elim
  | nullptr => exact hv.elim

theorem Members.getTokens_text (m : Members F) (hm : m.Plain)
    (hs : ∀ s ∈ m.strings, Spells (spell s) s) (d : ℕ) {rest : Bytes} (hf : Follows rest) :
    getTokens toDouble true (m.text L spell d ++ rest) =
      prepend m.tokens (getTokens toDouble true rest) := by
  cases m with
  | nil => rw [Members.text, Members.tokens, prepend_nil, List.nil_append]
  | cons key value members =>
    simp only [Members.strings, List.mem_cons, List.mem_append] at hs
    have hmembers := Members.getTokens_text members hm.2.2 (fun s h ↦ hs s (.inr (.inr h))) d hf
    obtain ⟨htail, hf'⟩ := getTokens_tail L members.empty d hmembers hf
    have hvalue := Json.getTokens_text value hm.2.1 (fun s h ↦ hs s (.inr (.inl h))) (d + 1) hf'
    have hmark {r : Bytes} : getTokens toDouble true (ascii ":" ++ r) =
        prepend [.keyValueSep] (getTokens toDouble true r) := getTokens_punctuation colon_mem
    rw [Members.text, List.append_assoc, List.append_assoc, List.append_assoc,
      getTokens_quoted (hs key.value (.inl rfl)), List.append_assoc, hmark,
      getTokens_white L.gap_white, hvalue, htail, prepend_prepend, prepend_prepend,
      prepend_prepend, Members.tokens]
    rfl

theorem Elements.getTokens_text (e : Elements F) (he : e.Plain)
    (hs : ∀ s ∈ e.strings, Spells (spell s) s) (d : ℕ) {rest : Bytes} (hf : Follows rest) :
    getTokens toDouble true (e.text L spell d ++ rest) =
      prepend e.tokens (getTokens toDouble true rest) := by
  cases e with
  | nil => rw [Elements.text, Elements.tokens, prepend_nil, List.nil_append]
  | cons value elements =>
    simp only [Elements.strings, List.mem_append] at hs
    have helements := Elements.getTokens_text elements he.2 (fun s h ↦ hs s (.inr h)) d hf
    obtain ⟨htail, hf'⟩ := getTokens_tail L elements.empty d helements hf
    have hvalue := Json.getTokens_text value he.1 (fun s h ↦ hs s (.inl h)) (d + 1) hf'
    rw [Elements.text, List.append_assoc, hvalue, htail, prepend_prepend, Elements.tokens]

end

end

end Socnet.Libjson
