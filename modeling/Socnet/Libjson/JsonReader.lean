import Socnet.Lib.Loop
import Socnet.Libjson.RoundTrip

namespace Socnet.Libjson

open Lib.Loop JsonLexer

variable {F : Type}

/-- `EOF` as a `char`. -/
def EOF : UInt8 := 255

/-- The text, and the index of the character that is read next, `__ptr + 1`. Past the end
the index goes on to grow. -/
structure JsonReader where
  sbuffer : Bytes
  next : ℕ

namespace JsonReader

variable (r : JsonReader)

def peek : UInt8 := r.sbuffer.getD r.next EOF

def skip : JsonReader := { r with next := r.next + 1 }

def get : UInt8 × JsonReader := (r.peek, r.skip)

def back : JsonReader := { r with next := r.next - 1 }

def eof : Bool := r.sbuffer.length < r.next

def gets : ℕ → JsonReader → Bytes × JsonReader
  | 0, r => ([], r)
  | count + 1, r =>
    let (c, r) := r.get
    let (s, r) := gets count r
    (c :: s, r)

end JsonReader

/-- Where the lexer is: in the loop of `getTokens`, or in one of the loops of `analysis`,
with the locals that the loop goes on with. A `char` that is not set has no value. -/
inductive Place
  | getTokens
  | space (c : Option UInt8)
  | string (s : Bytes) (c : UInt8)
  | lineComment (c : UInt8)
  | blockComment (c : UInt8)
  | digits (sign : UInt8) (s : Bytes) (c : UInt8)
  | fraction (s : Bytes) (c : UInt8)

structure Lexing (F : Type) where
  reader : JsonReader
  tokens : List (Token F)
  place : Place

namespace Lexing

variable (toDouble : Bytes → F) (escape : Bool)

def init (text : Bytes) : Lexing F := ⟨⟨text, 0⟩, [], .getTokens⟩

def push (l : Lexing F) (reader : JsonReader) (token : Token F) : Lexing F :=
  ⟨reader, l.tokens ++ [token], .getTokens⟩

/-- `true`, `false` and `null`, behind their first character. -/
def identifier (word : String) (value : Scalar F) (l : Lexing F) : Except Fault (Lexing F) :=
  let (s, reader) := l.reader.gets (ascii word).length
  if s = ascii word then .ok (l.push reader (.scalar value)) else .error .exception

/-- The switch of `analysis` and what follows it, up to the loop that it leads to. -/
def analysis (c : UInt8) (l : Lexing F) : Except Fault (Lexing F) :=
  if c = quote then
    let (c, reader) := l.reader.get
    .ok { l with reader, place := .string [] c }
  else if c = '/'.toUInt8 then
    let (c, reader) := l.reader.get
    if c = '/'.toUInt8 then
      let (c, reader) := reader.get
      .ok { l with reader, place := .lineComment c }
    else if c = '*'.toUInt8 then
      let (c, reader) := reader.get
      .ok { l with reader, place := .blockComment c }
    else .error .exception
  else if c = 't'.toUInt8 then l.identifier "rue" (.boolean true)
  else if c = 'f'.toUInt8 then l.identifier "alse" (.boolean false)
  else if c = 'n'.toUInt8 then l.identifier "ull" .null
  else
    match punctuation.lookup c with
    | some token => .ok (l.push l.reader token)
    | none =>
      if isNumber c ∨ isSign c then
        if c = '0'.toUInt8 ∧ isNumber l.reader.peek then .error .exception
        else
          let (d, reader) := l.reader.get
          .ok { l with reader, place := .digits c [] d }
      else .ok { l with place := .getTokens }

/-- One turn of the loop that the lexer is in. -/
def turn (l : Lexing F) : Except Fault (Lexing F) :=
  match l.place with
  | .getTokens => .ok { l with place := .space none }
  | .space c =>
    if l.reader.eof then
      match c with
      | none => .error .badRead
      | some c => l.analysis c
    else
      let (c, reader) := l.reader.get
      if isWhite c then .ok { l with reader, place := .space c }
      else { l with reader }.analysis c
  | .string s c =>
    if c = quote then do
      let s ← decode escape s
      .ok (l.push l.reader (.scalar (.string s)))
    else if c = backslash then
      let (e, reader) := l.reader.get
      if isValidNextEscapeCharacter e then
        let (c', reader) := reader.get
        .ok { l with reader, place := .string (s ++ [c, e]) c' }
      else .error .exception
    else
      let (c', reader) := l.reader.get
      .ok { l with reader, place := .string (s ++ [c]) c' }
  | .lineComment c =>
    if c ≠ EOF ∧ ¬ isNewline c then
      let (c, reader) := l.reader.get
      .ok { l with reader, place := .lineComment c }
    else .ok { l with place := .getTokens }
  | .blockComment c =>
    if c = '*'.toUInt8 ∧ l.reader.peek = '/'.toUInt8 then
      .ok { l with reader := l.reader.skip, place := .getTokens }
    else
      let (c, reader) := l.reader.get
      .ok { l with reader, place := .blockComment c }
  | .digits sign s c =>
    if isNumber c then
      let (c', reader) := l.reader.get
      .ok { l with reader, place := .digits sign (s ++ [c]) c' }
    else if c = '.'.toUInt8 ∨ isExponent c then
      let (c', reader) := l.reader.get
      .ok { l with reader, place := .fraction (sign :: (s ++ [c])) c' }
    else do
      let n ← toInt sign s
      .ok (l.push l.reader.back (.scalar (.number n)))
  | .fraction s c =>
    if isNumber c ∨ isExponent c ∨ isSign c then
      let (c', reader) := l.reader.get
      .ok { l with reader, place := .fraction (s ++ [c]) c' }
    else if s.getLast?.any fun x ↦ x = '.'.toUInt8 || isExponent x then .error .exception
    else .ok (l.push l.reader.back (.scalar (.float (toDouble s))))

/-- `getTokens` ends at the end of the text. -/
def exit (l : Lexing F) : Option (List (Token F)) :=
  match l.place with
  | .getTokens => if l.reader.eof then some l.tokens else none
  | _ => none

end Lexing

namespace JsonReader

variable (r : JsonReader)

/-- The characters that have not been read. -/
def rest : Bytes := r.sbuffer.drop r.next

/-- The last character that was read, with those behind it. -/
def current : Bytes := r.sbuffer.drop (r.next - 1)

/-- `c` is what the last `get` has returned. -/
def Holds (c : UInt8) : Prop := 0 < r.next ∧ c = r.sbuffer.getD (r.next - 1) EOF

/-- The number of `get`s up to the end of the text. -/
def left : ℕ := r.sbuffer.length + 1 - r.next

theorem eof_eq_false : r.eof = false ↔ r.next ≤ r.sbuffer.length := by
  rw [eof, decide_eq_false_iff_not, not_lt]

theorem holds_skip : r.skip.Holds r.peek := ⟨Nat.succ_pos _, rfl⟩

theorem current_skip : r.skip.current = r.rest := rfl

theorem rest_cases : r.rest = r.peek :: r.skip.rest ∧ r.next < r.sbuffer.length ∨
    r.rest = [] ∧ r.peek = EOF ∧ r.skip.rest = [] ∧ r.sbuffer.length ≤ r.next := by
  rw [rest, rest, peek, skip, List.getD_eq_getElem?_getD]
  rcases Nat.lt_or_ge r.next r.sbuffer.length with h | h
  · left
    rw [List.getElem?_eq_getElem h]
    exact ⟨List.drop_eq_getElem_cons h, h⟩
  · right
    rw [List.getElem?_eq_none h, List.drop_eq_nil_of_le h, List.drop_eq_nil_of_le (Nat.le_succ_of_le h)]
    exact ⟨rfl, rfl, rfl, h⟩

theorem current_cases {r : JsonReader} {c : UInt8} (h : r.Holds c) :
    r.current = c :: r.rest ∧ r.next ≤ r.sbuffer.length ∨
      r.current = [] ∧ c = EOF ∧ r.rest = [] ∧ r.sbuffer.length < r.next := by
  obtain ⟨hpos, hc⟩ := h
  have hskip : r.back.skip = r := by rw [back, skip, Nat.sub_add_cancel hpos]
  -- A held character is the one that `back` would bring up for reading again.
  change r.back.rest = c :: r.rest ∧ _ ∨ r.back.rest = [] ∧ _
  change c = r.back.peek at hc
  rcases r.back.rest_cases with ⟨hrest, hlt⟩ | ⟨hrest, hpeek, hskipped, hge⟩
  · rw [hskip] at hrest
    exact .inl ⟨hc ▸ hrest, Nat.le_of_pred_lt hlt⟩
  · rw [hskip] at hskipped
    exact .inr ⟨hrest, hc.trans hpeek, hskipped, Nat.lt_of_le_pred hpos hge⟩

theorem current_of_ne {r : JsonReader} {c : UInt8} (h : r.Holds c) (hc : c ≠ EOF) :
    r.current = c :: r.rest ∧ r.next ≤ r.sbuffer.length :=
  (current_cases h).resolve_right fun hend ↦ hc hend.2.1

/-- A loop over the characters of one kind stops at a held character of another kind. -/
theorem current_stop {r : JsonReader} {c : UInt8} (h : r.Holds c) {p : UInt8 → Bool}
    (hc : ¬ p c = true) : ∀ x ∈ r.current.head?, ¬ p x = true := by
  intro x hx
  rcases current_cases h with ⟨hcur, -⟩ | ⟨hcur, -⟩
  · rw [hcur] at hx
    obtain rfl : c = x := Option.some.inj hx
    exact hc
  · rw [hcur] at hx
    cases hx

theorem gets_snd (count : ℕ) (r : JsonReader) : (gets count r).2 = ⟨r.sbuffer, r.next + count⟩ := by
  induction count generalizing r with
  | zero => rfl
  | succ count ih =>
    change (gets count r.skip).2 = _
    rw [ih, skip, Nat.add_assoc, Nat.add_comm 1 count]

/-- A word of characters other than `EOF` is not read past the end. -/
theorem gets_eq_iff {word : Bytes} (hw : EOF ∉ word) (r : JsonReader) :
    (gets word.length r).1 = word ↔ word <+: r.rest := by
  induction word generalizing r with
  | nil => exact iff_of_true rfl (List.nil_prefix)
  | cons c word ih =>
    rw [List.mem_cons, not_or] at hw
    change r.peek :: (gets word.length r.skip).1 = c :: word ↔ _
    rw [List.cons.injEq, ih hw.2]
    rcases r.rest_cases with ⟨hrest, -⟩ | ⟨hrest, hpeek, -⟩
    · rw [hrest, List.cons_prefix_cons, eq_comm]
    · rw [hrest, hpeek]
      exact iff_of_false (fun h ↦ hw.1 h.1) (by simp)

end JsonReader

namespace Lexing

variable (toDouble : Bytes → F) (escape : Bool)

/-- The end of a number that has a fraction or an exponent. -/
def floatValue (s rest : Bytes) : Except Fault (Scalar F × Bytes) :=
  if s.getLast?.any fun x ↦ x = '.'.toUInt8 || isExponent x then .error .exception
  else .ok (.float (toDouble s), rest)

def isFraction (c : UInt8) : Bool := isNumber c || isExponent c || isSign c

/-- The end of a number behind its digits. -/
def numberValue (sign : UInt8) (s : Bytes) : Bytes → Except Fault (Scalar F × Bytes)
  | [] => toInt sign s >>= fun n ↦ .ok (.number n, [])
  | d :: tail =>
    if d = '.'.toUInt8 ∨ isExponent d then
      floatValue toDouble (sign :: (s ++ d :: tail.takeWhile isFraction)) (tail.dropWhile isFraction)
    else toInt sign s >>= fun n ↦ .ok (.number n, d :: tail)

theorem scanNumber_eq (c : UInt8) (rest : Bytes) : scanNumber toDouble c rest =
    if c = '0'.toUInt8 ∧ rest.head?.any isNumber then .error .exception
    else numberValue toDouble c (rest.takeWhile isNumber) (rest.dropWhile isNumber) := by
  rw [scanNumber]
  congr 1
  dsimp only
  cases rest.dropWhile isNumber with
  | nil => rfl
  | cons d tail => rfl

/-- The tokens so far, and those of a value and of the text behind it. -/
def resume (tokens : List (Token F)) (x : Except Fault (Scalar F × Bytes)) :
    Except Fault (List (Token F)) :=
  x >>= fun x ↦ prepend (tokens ++ [.scalar x.1]) (getTokens toDouble escape x.2)

/-- What the lexer comes to, by the functions on the text. -/
def value (l : Lexing F) : Except Fault (List (Token F)) :=
  match l.place with
  | .getTokens | .space _ => prepend l.tokens (getTokens toDouble escape l.reader.rest)
  | .string s _ => resume toDouble escape l.tokens <| scanString l.reader.current >>= fun x ↦
      decode escape (s ++ x.1) >>= fun v ↦ .ok (.string v, x.2)
  | .lineComment _ => prepend l.tokens (getTokens toDouble escape (skipLine l.reader.current))
  | .blockComment _ => skipBlock l.reader.current >>= fun rest ↦
      prepend l.tokens (getTokens toDouble escape rest)
  | .digits sign s _ => resume toDouble escape l.tokens <| numberValue toDouble sign
      (s ++ l.reader.current.takeWhile isNumber) (l.reader.current.dropWhile isNumber)
  | .fraction s _ => resume toDouble escape l.tokens <| floatValue toDouble
      (s ++ l.reader.current.takeWhile isFraction) (l.reader.current.dropWhile isFraction)

/-- What holds between the turns. -/
def Inv (l : Lexing F) : Prop :=
  match l.place with
  | .getTokens => True
  | .space _ => l.reader.eof = false
  | .string _ c | .lineComment c | .blockComment c | .digits _ _ c | .fraction _ c =>
    l.reader.Holds c

/-- A number gives back one character, which its rank makes up for. -/
def rank : Place → ℕ
  | .space _ => 0
  | .getTokens => 1
  | .string _ _ | .lineComment _ | .blockComment _ => 2
  | .digits _ _ _ | .fraction _ _ => 6

def measure (l : Lexing F) : ℕ := 4 * l.reader.left + rank l.place

section Measure

variable {reader : JsonReader} {tokens tokens' : List (Token F)} {place place' : Place}

theorem measure_skip_lt (hle : reader.next ≤ reader.sbuffer.length) (h : rank place' ≤ rank place) :
    measure ⟨reader.skip, tokens', place'⟩ < measure ⟨reader, tokens, place⟩ := by
  simp only [measure, JsonReader.left, JsonReader.skip]
  omega

theorem measure_back_lt (hpos : 0 < reader.next) (h : rank place' + 4 < rank place) :
    measure ⟨reader.back, tokens', place'⟩ < measure ⟨reader, tokens, place⟩ := by
  simp only [measure, JsonReader.left, JsonReader.back]
  omega

end Measure

/-- A turn raises what the lexer comes to, or keeps it and comes closer to the end, which
it need not when the lexer hangs. -/
def Keeps (l : Lexing F) (x : Except Fault (Lexing F)) : Prop :=
  (∃ e, e ≠ .hang ∧ x = .error e ∧ value toDouble escape l = .error e) ∨
    ∃ l', x = .ok l' ∧ l'.Inv ∧ value toDouble escape l' = value toDouble escape l ∧
      (l'.measure < l.measure ∨ value toDouble escape l = .error .hang)

variable {toDouble escape}

theorem toInt_ne_hang (c : UInt8) (digits : Bytes) : toInt c digits ≠ .error .hang := by
  unfold toInt
  dsimp only
  split_ifs <;> simp

theorem unicodeHexToString_ne_hang (unicode : Bytes) :
    unicodeHexToString unicode ≠ .error .hang := by
  unfold unicodeHexToString
  dsimp only
  split_ifs <;> simp

theorem escapeString_ne_hang (s : Bytes) : escapeString s ≠ .error .hang := by
  fun_induction escapeString s with
  | case1 => simp
  | case2 c s _ ih =>
    intro h
    obtain h | ⟨t, -, h⟩ := bind_eq_error.mp h
    · exact ih h
    · cases h
  | case3 => simp
  | case4 c s _ _ ih =>
    intro h
    obtain h | ⟨u, -, h⟩ := bind_eq_error.mp h
    · exact unicodeHexToString_ne_hang _ h
    · obtain h | ⟨t, -, h⟩ := bind_eq_error.mp h
      · exact ih h
      · cases h
  | case5 => simp
  | case6 => simp
  | case7 c s _ _ _ ih =>
    intro h
    obtain h | ⟨t, -, h⟩ := bind_eq_error.mp h
    · exact ih h
    · cases h
  | case8 =>
    rename_i ih
    intro h
    obtain h | ⟨t, -, h⟩ := bind_eq_error.mp h
    · exact ih h
    · cases h

theorem decode_ne_hang (escape : Bool) (raw : Bytes) : decode escape raw ≠ .error .hang := by
  rw [decode]
  split_ifs
  · exact escapeString_ne_hang raw
  · simp

section Turns

variable {reader : JsonReader} {tokens : List (Token F)}

theorem keeps_lineComment {c : UInt8} (h : reader.Holds c) :
    Keeps toDouble escape ⟨reader, tokens, .lineComment c⟩
      (turn toDouble escape ⟨reader, tokens, .lineComment c⟩) := by
  right
  rcases JsonReader.current_cases h with ⟨hcur, hle⟩ | ⟨hcur, hc, hrest, -⟩
  · by_cases hstop : c = EOF ∨ isNewline c
    · refine ⟨⟨reader, tokens, .getTokens⟩, ?_, trivial, ?_, .inl ?_⟩
      · exact if_neg fun hgo ↦ hstop.elim hgo.1 hgo.2
      · have hskip : skipLine reader.current = reader.rest := by
          rw [hcur, skipLine]
          exact if_pos hstop
        change _ = prepend tokens (getTokens toDouble escape (skipLine reader.current))
        rw [hskip]
        rfl
      · exact Nat.lt_succ_self _
    · refine ⟨⟨reader.skip, tokens, .lineComment reader.peek⟩, ?_, reader.holds_skip, ?_, .inl ?_⟩
      · exact if_pos ⟨fun h ↦ hstop (.inl h), fun h ↦ hstop (.inr h)⟩
      · have hskip : skipLine reader.current = skipLine reader.rest := by
          rw [hcur, skipLine]
          exact if_neg hstop
        change prepend tokens (getTokens toDouble escape (skipLine reader.skip.current)) =
          prepend tokens (getTokens toDouble escape (skipLine reader.current))
        rw [hskip, reader.current_skip]
      · exact measure_skip_lt hle le_rfl
  · refine ⟨⟨reader, tokens, .getTokens⟩, ?_, trivial, ?_, .inl ?_⟩
    · exact if_neg (by simp [hc])
    · change prepend tokens (getTokens toDouble escape reader.rest) =
        prepend tokens (getTokens toDouble escape (skipLine reader.current))
      rw [hcur, hrest, skipLine]
    · exact Nat.lt_succ_self _

theorem keeps_blockComment {c : UInt8} (h : reader.Holds c) :
    Keeps toDouble escape ⟨reader, tokens, .blockComment c⟩
      (turn toDouble escape ⟨reader, tokens, .blockComment c⟩) := by
  right
  rcases JsonReader.current_cases h with ⟨hcur, hle⟩ | ⟨hcur, hc, hrest, hlt⟩
  · have hpeek : reader.peek = '/'.toUInt8 ↔ reader.rest.head? = some '/'.toUInt8 := by
      rcases reader.rest_cases with ⟨hr, -⟩ | ⟨hr, hpeek, -⟩
      · rw [hr, List.head?_cons, Option.some_inj]
      · rw [hr, hpeek]
        exact iff_of_false (by decide) (by simp)
    by_cases hstop : c = '*'.toUInt8 ∧ reader.peek = '/'.toUInt8
    · refine ⟨⟨reader.skip, tokens, .getTokens⟩, if_pos hstop, trivial, ?_, .inl ?_⟩
      · have hskip : skipBlock reader.current = .ok reader.skip.rest := by
          rw [hcur, skipBlock, if_pos ⟨hstop.1, hpeek.mp hstop.2⟩]
          rcases reader.rest_cases with ⟨hr, -⟩ | ⟨-, hend, -⟩
          · rw [hr]
            rfl
          · exact absurd (hend.symm.trans hstop.2) (by decide)
        change _ = skipBlock reader.current >>= _
        rw [hskip]
        rfl
      · exact measure_skip_lt hle (Nat.le_succ 1)
    · refine ⟨⟨reader.skip, tokens, .blockComment reader.peek⟩, if_neg hstop, reader.holds_skip, ?_,
        .inl ?_⟩
      · have hskip : skipBlock reader.current = skipBlock reader.rest := by
          rw [hcur, skipBlock, if_neg fun hgo ↦ hstop ⟨hgo.1, hpeek.mpr hgo.2⟩]
        change skipBlock reader.skip.current >>= _ = skipBlock reader.current >>= _
        rw [hskip, reader.current_skip]
      · exact measure_skip_lt hle le_rfl
  · have hhang : skipBlock reader.current = .error .hang := by rw [hcur, skipBlock]
    have hhang' : skipBlock reader.skip.current = .error .hang := by
      rw [reader.current_skip, hrest, skipBlock]
    refine ⟨⟨reader.skip, tokens, .blockComment reader.peek⟩, ?_, reader.holds_skip, ?_, .inr ?_⟩
    · exact if_neg fun hgo ↦ absurd (hc.symm.trans hgo.1) (by decide)
    · change skipBlock reader.skip.current >>= _ = skipBlock reader.current >>= _
      rw [hhang, hhang']
    · change skipBlock reader.current >>= _ = _
      rw [hhang]
      rfl

theorem keeps_fraction {s : Bytes} {c : UInt8} (h : reader.Holds c) :
    Keeps toDouble escape ⟨reader, tokens, .fraction s c⟩
      (turn toDouble escape ⟨reader, tokens, .fraction s c⟩) := by
  by_cases hgo : isNumber c ∨ isExponent c ∨ isSign c
  · have hfraction : isFraction c = true := by
      simpa [isFraction, or_assoc] using hgo
    obtain ⟨hcur, hle⟩ := JsonReader.current_of_ne h (by rintro rfl; revert hgo; decide)
    refine .inr ⟨⟨reader.skip, tokens, .fraction (s ++ [c]) reader.peek⟩, if_pos hgo,
      reader.holds_skip, ?_, .inl ?_⟩
    · change resume toDouble escape tokens (floatValue toDouble
          (s ++ [c] ++ reader.skip.current.takeWhile isFraction)
          (reader.skip.current.dropWhile isFraction)) =
        resume toDouble escape tokens (floatValue toDouble (s ++ reader.current.takeWhile isFraction)
          (reader.current.dropWhile isFraction))
      rw [hcur, reader.current_skip, List.takeWhile_cons_of_pos hfraction,
        List.dropWhile_cons_of_pos hfraction, List.append_assoc, List.singleton_append]
    · exact measure_skip_lt hle le_rfl
  · have hfraction : ¬ isFraction c = true := by
      simpa [isFraction, or_assoc] using hgo
    obtain ⟨htake, hdrop⟩ := scan_stop (JsonReader.current_stop h hfraction)
    have hvalue : value toDouble escape ⟨reader, tokens, .fraction s c⟩ =
        resume toDouble escape tokens (floatValue toDouble s reader.current) := by
      change resume _ _ _ (floatValue _ (s ++ reader.current.takeWhile isFraction) _) = _
      rw [htake, hdrop, List.append_nil]
    have hturn : turn toDouble escape ⟨reader, tokens, .fraction s c⟩ =
        if s.getLast?.any fun x ↦ x = '.'.toUInt8 || isExponent x then .error .exception
        else .ok ⟨reader.back, tokens ++ [.scalar (.float (toDouble s))], .getTokens⟩ := if_neg hgo
    rw [floatValue] at hvalue
    rw [hturn]
    split_ifs at hvalue ⊢ with hlast
    · exact .inl ⟨.exception, by simp, rfl, hvalue⟩
    · refine .inr ⟨_, rfl, trivial, hvalue.symm, .inl ?_⟩
      exact measure_back_lt h.1 (Nat.lt_succ_self 5)

/-- The loop over the digits stops at the last character that was read. -/
theorem value_digits {sign : UInt8} {s : Bytes} {c : UInt8} (h : reader.Holds c)
    (hstop : ¬ isNumber c) : value toDouble escape ⟨reader, tokens, .digits sign s c⟩ =
      resume toDouble escape tokens (numberValue toDouble sign s reader.current) := by
  obtain ⟨htake, hdrop⟩ := scan_stop (JsonReader.current_stop h hstop)
  change resume _ _ _ (numberValue _ _ (s ++ reader.current.takeWhile isNumber) _) = _
  rw [htake, hdrop, List.append_nil]

theorem keeps_digit {sign : UInt8} {s : Bytes} {c : UInt8} (h : reader.Holds c)
    (hgo : isNumber c) : Keeps toDouble escape ⟨reader, tokens, .digits sign s c⟩
      (turn toDouble escape ⟨reader, tokens, .digits sign s c⟩) := by
  obtain ⟨hcur, hle⟩ := JsonReader.current_of_ne h (by rintro rfl; revert hgo; decide)
  refine .inr ⟨⟨reader.skip, tokens, .digits sign (s ++ [c]) reader.peek⟩, if_pos hgo,
    reader.holds_skip, ?_, .inl (measure_skip_lt hle le_rfl)⟩
  change resume toDouble escape tokens (numberValue toDouble sign
      (s ++ [c] ++ reader.skip.current.takeWhile isNumber)
      (reader.skip.current.dropWhile isNumber)) =
    resume toDouble escape tokens (numberValue toDouble sign
      (s ++ reader.current.takeWhile isNumber) (reader.current.dropWhile isNumber))
  rw [hcur, reader.current_skip, List.takeWhile_cons_of_pos hgo, List.dropWhile_cons_of_pos hgo,
    List.append_assoc, List.singleton_append]

theorem keeps_point {sign : UInt8} {s : Bytes} {c : UInt8} (h : reader.Holds c)
    (hstop : ¬ isNumber c) (hpoint : c = '.'.toUInt8 ∨ isExponent c) :
    Keeps toDouble escape ⟨reader, tokens, .digits sign s c⟩
      (turn toDouble escape ⟨reader, tokens, .digits sign s c⟩) := by
  obtain ⟨hcur, hle⟩ := JsonReader.current_of_ne h (by rintro rfl; revert hpoint; decide)
  refine .inr ⟨⟨reader.skip, tokens, .fraction (sign :: (s ++ [c])) reader.peek⟩, ?_,
    reader.holds_skip, ?_, .inl (measure_skip_lt hle le_rfl)⟩
  · exact (if_neg hstop).trans (if_pos hpoint)
  · rw [value_digits h hstop, hcur, numberValue, if_pos hpoint]
    change resume _ _ _ (floatValue _ (sign :: (s ++ [c]) ++
      reader.skip.current.takeWhile isFraction) (reader.skip.current.dropWhile isFraction)) = _
    rw [reader.current_skip, List.cons_append, List.append_assoc, List.singleton_append]

theorem keeps_integer {sign : UInt8} {s : Bytes} {c : UInt8} (h : reader.Holds c)
    (hstop : ¬ isNumber c) (hpoint : ¬ (c = '.'.toUInt8 ∨ isExponent c)) :
    Keeps toDouble escape ⟨reader, tokens, .digits sign s c⟩
      (turn toDouble escape ⟨reader, tokens, .digits sign s c⟩) := by
  have hinteger : numberValue toDouble sign s reader.current =
      toInt sign s >>= fun n ↦ .ok (.number n, reader.current) := by
    rcases JsonReader.current_cases h with ⟨hcur, -⟩ | ⟨hcur, -⟩
    · rw [hcur, numberValue, if_neg hpoint]
    · rw [hcur, numberValue]
  have hvalue : value toDouble escape ⟨reader, tokens, .digits sign s c⟩ = _ :=
    value_digits h hstop
  have hturn : turn toDouble escape ⟨reader, tokens, .digits sign s c⟩ =
      toInt sign s >>= fun n ↦ .ok ⟨reader.back, tokens ++ [.scalar (.number n)], .getTokens⟩ :=
    (if_neg hstop).trans (if_neg hpoint)
  rw [hinteger] at hvalue
  rw [hturn]
  have hhang := toInt_ne_hang sign s
  cases hn : toInt sign s with
  | error e =>
    rw [hn] at hvalue hhang
    exact .inl ⟨e, fun he ↦ hhang (congrArg _ he), rfl, hvalue⟩
  | ok n =>
    rw [hn] at hvalue
    refine .inr ⟨_, rfl, trivial, hvalue.symm, .inl ?_⟩
    exact measure_back_lt h.1 (Nat.lt_succ_self 5)

theorem keeps_digits {sign : UInt8} {s : Bytes} {c : UInt8} (h : reader.Holds c) :
    Keeps toDouble escape ⟨reader, tokens, .digits sign s c⟩
      (turn toDouble escape ⟨reader, tokens, .digits sign s c⟩) := by
  by_cases hgo : isNumber c
  · exact keeps_digit h hgo
  · by_cases hpoint : c = '.'.toUInt8 ∨ isExponent c
    · exact keeps_point h hgo hpoint
    · exact keeps_integer h hgo hpoint

/-- What the lexer comes to in a string of which `s` has been read. -/
def stringValue (escape : Bool) (s : Bytes) (x : Except Fault (Bytes × Bytes)) :
    Except Fault (Scalar F × Bytes) :=
  x >>= fun x ↦ decode escape (s ++ x.1) >>= fun v ↦ .ok (.string v, x.2)

theorem stringValue_bind (s p : Bytes) (x : Except Fault (Bytes × Bytes)) :
    stringValue escape s (x >>= fun x ↦ .ok (p ++ x.1, x.2)) =
      (stringValue escape (s ++ p) x : Except Fault (Scalar F × Bytes)) := by
  cases x with
  | error e => rfl
  | ok x =>
    change decode escape (s ++ (p ++ x.1)) >>= _ = decode escape (s ++ p ++ x.1) >>= _
    rw [List.append_assoc]

theorem value_string {s : Bytes} {c : UInt8} :
    value toDouble escape ⟨reader, tokens, .string s c⟩ =
      resume toDouble escape tokens (stringValue escape s (scanString reader.current)) := rfl

theorem keeps_quote {s : Bytes} (h : reader.Holds quote) :
    Keeps toDouble escape ⟨reader, tokens, .string s quote⟩
      (turn toDouble escape ⟨reader, tokens, .string s quote⟩) := by
  obtain ⟨hcur, -⟩ := JsonReader.current_of_ne h (by decide)
  have hturn : turn toDouble escape ⟨reader, tokens, .string s quote⟩ =
      decode escape s >>= fun v ↦ .ok ⟨reader, tokens ++ [.scalar (.string v)], .getTokens⟩ := rfl
  have hvalue : value toDouble escape ⟨reader, tokens, .string s quote⟩ =
      resume toDouble escape tokens (decode escape s >>= fun v ↦ .ok (.string v, reader.rest)) := by
    rw [value_string, hcur, scanString_quote, stringValue]
    change resume _ _ _ (decode escape (s ++ []) >>= _) = _
    rw [List.append_nil]
  have hhang := decode_ne_hang escape s
  rw [hturn]
  cases hs : decode escape s with
  | error e =>
    rw [hs] at hvalue hhang
    exact .inl ⟨e, fun he ↦ hhang (congrArg _ he), rfl, hvalue⟩
  | ok v =>
    rw [hs] at hvalue
    exact .inr ⟨_, rfl, trivial, hvalue.symm, .inl (by simp [measure, rank])⟩

theorem keeps_escape {s : Bytes} (h : reader.Holds backslash) :
    Keeps toDouble escape ⟨reader, tokens, .string s backslash⟩
      (turn toDouble escape ⟨reader, tokens, .string s backslash⟩) := by
  have hq : backslash ≠ quote := by decide
  obtain ⟨hcur, hle⟩ := JsonReader.current_of_ne h (by decide)
  have hturn : turn toDouble escape ⟨reader, tokens, .string s backslash⟩ =
      if isValidNextEscapeCharacter reader.peek then
        .ok ⟨reader.skip.skip, tokens, .string (s ++ [backslash, reader.peek]) reader.skip.peek⟩
      else .error .exception := rfl
  have hvalue : value toDouble escape ⟨reader, tokens, .string s backslash⟩ = _ := value_string
  rw [hturn]
  rcases reader.rest_cases with ⟨hrest, -⟩ | ⟨hrest, hpeek, -⟩
  · rw [hcur, hrest, scanString.eq_def] at hvalue
    dsimp only at hvalue
    rw [if_neg hq, if_pos rfl] at hvalue
    split_ifs at hvalue ⊢ with hvalid
    · refine .inr ⟨_, rfl, reader.skip.holds_skip, ?_, .inl ?_⟩
      · rw [hvalue, value_string, JsonReader.current_skip, ← stringValue_bind]
        rfl
      · simp only [measure, rank, JsonReader.left, JsonReader.skip]
        omega
    · exact .inl ⟨.exception, by simp, rfl, hvalue⟩
  · rw [hcur, hrest, scanString.eq_def] at hvalue
    dsimp only at hvalue
    rw [if_neg hq, if_pos rfl] at hvalue
    rw [hpeek, if_neg (by decide)]
    exact .inl ⟨.exception, by simp, rfl, hvalue⟩

theorem keeps_plain {s : Bytes} {c : UInt8} (h : reader.Holds c) (hq : c ≠ quote)
    (hb : c ≠ backslash) : Keeps toDouble escape ⟨reader, tokens, .string s c⟩
      (turn toDouble escape ⟨reader, tokens, .string s c⟩) := by
  have hturn : turn toDouble escape ⟨reader, tokens, .string s c⟩ =
      .ok ⟨reader.skip, tokens, .string (s ++ [c]) reader.peek⟩ :=
    (if_neg hq).trans (if_neg hb)
  refine .inr ⟨_, hturn, reader.holds_skip, ?_, ?_⟩
  · rw [value_string, value_string, reader.current_skip]
    rcases JsonReader.current_cases h with ⟨hcur, -⟩ | ⟨hcur, -, hrest, -⟩
    · rw [hcur, scanString.eq_def (c :: reader.rest)]
      dsimp only
      rw [if_neg hq, if_neg hb, ← stringValue_bind]
      rfl
    · rw [hcur, hrest]
      rfl
  · rcases JsonReader.current_cases h with ⟨-, hle⟩ | ⟨hcur, -⟩
    · exact .inl (measure_skip_lt hle le_rfl)
    · right
      rw [value_string, hcur]
      rfl

theorem keeps_string {s : Bytes} {c : UInt8} (h : reader.Holds c) :
    Keeps toDouble escape ⟨reader, tokens, .string s c⟩
      (turn toDouble escape ⟨reader, tokens, .string s c⟩) := by
  by_cases hq : c = quote
  · subst hq
    exact keeps_quote h
  · by_cases hb : c = backslash
    · subst hb
      exact keeps_escape h
    · exact keeps_plain h hq hb

/-- The tokens so far, and those of what `analysis` finds and of the text behind it. -/
def follow (toDouble : Bytes → F) (escape : Bool) (tokens : List (Token F))
    (x : Except Fault (Option (Token F) × Bytes)) : Except Fault (List (Token F)) :=
  x >>= fun x ↦ prepend (tokens ++ x.1.toList) (getTokens toDouble escape x.2)

theorem follow_scalar (x : Except Fault (Scalar F × Bytes)) :
    follow toDouble escape tokens (x >>= fun x ↦ .ok (some (.scalar x.1), x.2)) =
      resume toDouble escape tokens x := by
  cases x with
  | error e => rfl
  | ok x => rfl

theorem follow_none (rest : Bytes) : follow toDouble escape tokens (.ok (none, rest)) =
    prepend tokens (getTokens toDouble escape rest) := by
  change prepend (tokens ++ []) _ = _
  rw [List.append_nil]

theorem getTokens_follow {text rest : Bytes} {c : UInt8} (ht : text.dropWhile isWhite = c :: rest) :
    prepend tokens (getTokens toDouble escape text) =
      follow toDouble escape tokens (JsonLexer.analysis toDouble escape c rest) := by
  rw [getTokens_eq ht]
  cases JsonLexer.analysis toDouble escape c rest with
  | error e => rfl
  | ok x => exact prepend_prepend tokens x.1.toList _

/-- Where a call of `analysis` leads to, when the text has not been read past its end. -/
def Leads (toDouble : Bytes → F) (escape : Bool) (reader : JsonReader) (tokens : List (Token F))
    (x : Except Fault (Lexing F)) (found : Except Fault (Option (Token F) × Bytes)) : Prop :=
  (∃ e, e ≠ .hang ∧ x = .error e ∧ found = .error e) ∨
    ∃ l', x = .ok l' ∧ l'.Inv ∧ value toDouble escape l' = follow toDouble escape tokens found ∧
      l'.measure < 4 * (reader.left + 1)

theorem leads_identifier (word : String) (hw : EOF ∉ ascii word) (v : Scalar F) (place : Place) :
    Leads toDouble escape reader tokens (identifier word v ⟨reader, tokens, place⟩)
      (scanIdentifier word v reader.rest) := by
  have hsnd := JsonReader.gets_snd (ascii word).length reader
  have hfst := JsonReader.gets_eq_iff hw reader
  unfold identifier scanIdentifier
  dsimp only
  by_cases hprefix : ascii word <+: reader.rest
  · rw [if_pos (hfst.mpr hprefix), if_pos hprefix, hsnd]
    refine .inr ⟨_, rfl, trivial, ?_, ?_⟩
    · change prepend _ (getTokens _ _ (reader.sbuffer.drop (reader.next + (ascii word).length))) =
        prepend _ (getTokens _ _ ((reader.sbuffer.drop reader.next).drop (ascii word).length))
      rw [List.drop_drop]
      rfl
    · simp only [push, measure, rank, JsonReader.left]
      omega
  · rw [if_neg fun h ↦ hprefix (hfst.mp h), if_neg hprefix]
    exact .inl ⟨.exception, by simp, rfl, rfl⟩

theorem leads_comment {place : Place} :
    Leads toDouble escape reader tokens (analysis '/'.toUInt8 ⟨reader, tokens, place⟩)
      (comment reader.rest) := by
  have hanalysis : analysis '/'.toUInt8 ⟨reader, tokens, place⟩ =
      if reader.peek = '/'.toUInt8 then
        .ok ⟨reader.skip.skip, tokens, .lineComment reader.skip.peek⟩
      else if reader.peek = '*'.toUInt8 then
        .ok ⟨reader.skip.skip, tokens, .blockComment reader.skip.peek⟩
      else .error .exception := rfl
  rw [hanalysis]
  rcases reader.rest_cases with ⟨hrest, hlt⟩ | ⟨hrest, hpeek, -⟩
  · rw [hrest, comment]
    split_ifs
    · refine .inr ⟨_, rfl, reader.skip.holds_skip, ?_, ?_⟩
      · rw [follow_none]
        rfl
      · simp only [measure, rank, JsonReader.left, JsonReader.skip]
        omega
    · refine .inr ⟨_, rfl, reader.skip.holds_skip, ?_, ?_⟩
      · change skipBlock reader.skip.rest >>= _ =
          follow _ _ _ (skipBlock reader.skip.rest >>= fun rest ↦ .ok (none, rest))
        cases skipBlock reader.skip.rest with
        | error e => rfl
        | ok rest => exact (follow_none rest).symm
      · simp only [measure, rank, JsonReader.left, JsonReader.skip]
        omega
    · exact .inl ⟨.exception, by simp, rfl, rfl⟩
  · rw [hpeek, hrest, if_neg (by decide), if_neg (by decide)]
    exact .inl ⟨.exception, by simp, rfl, rfl⟩

theorem leads_string {place : Place} :
    Leads toDouble escape reader tokens (analysis quote ⟨reader, tokens, place⟩)
      (stringLiteral escape reader.rest) := by
  refine .inr ⟨⟨reader.skip, tokens, .string [] reader.peek⟩, rfl, reader.holds_skip, ?_, ?_⟩
  · have hvalue : value toDouble escape ⟨reader.skip, tokens, .string [] reader.peek⟩ =
        resume toDouble escape tokens (stringValue escape [] (scanString reader.rest)) := rfl
    rw [hvalue, ← follow_scalar, stringLiteral, stringValue]
    cases scanString reader.rest with
    | error e => rfl
    | ok x =>
      change follow _ _ _ ((decode escape x.1 >>= _) >>= _) = follow _ _ _ (decode escape x.1 >>= _)
      cases decode escape x.1 with
      | error e => rfl
      | ok v => rfl
  · simp only [measure, rank, JsonReader.left, JsonReader.skip]
    omega

theorem leads_number {c : UInt8} (hle : reader.next ≤ reader.sbuffer.length) :
    Leads toDouble escape reader tokens
      (if c = '0'.toUInt8 ∧ isNumber reader.peek then .error .exception
        else .ok ⟨reader.skip, tokens, .digits c [] reader.peek⟩)
      (scanNumber toDouble c reader.rest >>= fun x ↦ .ok (some (.scalar x.1), x.2)) := by
  have hhead : (reader.rest.head?.any isNumber : Bool) = isNumber reader.peek := by
    rcases reader.rest_cases with ⟨hrest, -⟩ | ⟨hrest, hpeek, -⟩
    · rw [hrest]
      rfl
    · rw [hrest, hpeek]
      rfl
  rw [scanNumber_eq, hhead]
  split_ifs
  · exact .inl ⟨.exception, by simp, rfl, rfl⟩
  · refine .inr ⟨_, rfl, reader.holds_skip, ?_, ?_⟩
    · rw [follow_scalar]
      rfl
    · simp only [measure, rank, JsonReader.left, JsonReader.skip]
      omega

theorem leads_analysis (c : UInt8) {place : Place} (hle : reader.next ≤ reader.sbuffer.length) :
    Leads toDouble escape reader tokens (analysis c ⟨reader, tokens, place⟩)
      (JsonLexer.analysis toDouble escape c reader.rest) := by
  rw [JsonLexer.analysis]
  by_cases hquote : c = quote
  · rw [if_pos hquote, hquote]
    exact leads_string
  by_cases hslash : c = '/'.toUInt8
  · rw [if_neg hquote, if_pos hslash, hslash]
    exact leads_comment
  rw [analysis, if_neg hquote, if_neg hslash, if_neg hquote, if_neg hslash]
  by_cases ht : c = 't'.toUInt8
  · rw [if_pos ht, if_pos ht]
    exact leads_identifier "rue" (by decide) _ place
  by_cases hf : c = 'f'.toUInt8
  · rw [if_neg ht, if_pos hf, if_neg ht, if_pos hf]
    exact leads_identifier "alse" (by decide) _ place
  by_cases hn : c = 'n'.toUInt8
  · rw [if_neg ht, if_neg hf, if_pos hn, if_neg ht, if_neg hf, if_pos hn]
    exact leads_identifier "ull" (by decide) _ place
  rw [if_neg ht, if_neg hf, if_neg hn, if_neg ht, if_neg hf, if_neg hn]
  cases punctuation.lookup c with
  | some token =>
    refine .inr ⟨_, rfl, trivial, rfl, ?_⟩
    simp only [push, measure, rank]
    omega
  | none =>
    dsimp only
    rw [integerOrFloat]
    by_cases hnumber : isNumber c ∨ isSign c
    · rw [if_pos hnumber, if_pos hnumber]
      exact leads_number hle
    · rw [if_neg hnumber, if_neg hnumber]
      refine .inr ⟨_, rfl, trivial, ?_, ?_⟩
      · rw [follow_none]
        rfl
      · simp only [measure, rank]
        omega

theorem keeps_space {c : Option UInt8} (h : reader.eof = false) :
    Keeps toDouble escape ⟨reader, tokens, .space c⟩
      (turn toDouble escape ⟨reader, tokens, .space c⟩) := by
  have hle := reader.eof_eq_false.mp h
  have hturn : turn toDouble escape ⟨reader, tokens, .space c⟩ =
      if isWhite reader.peek then .ok ⟨reader.skip, tokens, .space reader.peek⟩
      else analysis reader.peek ⟨reader.skip, tokens, .space c⟩ := by
    rw [turn]
    dsimp only
    rw [h]
    rfl
  have hvalue : value toDouble escape ⟨reader, tokens, .space c⟩ =
      prepend tokens (getTokens toDouble escape reader.rest) := rfl
  rw [hturn]
  rcases reader.rest_cases with ⟨hrest, hlt⟩ | ⟨hrest, hpeek, hrest', hge⟩
  · split_ifs with hwhite
    · refine .inr ⟨_, rfl, reader.skip.eof_eq_false.mpr hlt, ?_, .inl ?_⟩
      · have hone : ∀ x ∈ [reader.peek], isWhite x = true := by simpa using hwhite
        rw [hvalue, hrest, ← List.singleton_append, getTokens_white hone]
        rfl
      · exact measure_skip_lt hle le_rfl
    · have hdrop : reader.rest.dropWhile isWhite = reader.peek :: reader.skip.rest := by
        rw [hrest, List.dropWhile_cons_of_neg hwhite]
      rw [getTokens_follow hdrop] at hvalue
      have hleads : Leads toDouble escape reader.skip tokens
          (analysis reader.peek ⟨reader.skip, tokens, .space c⟩)
          (JsonLexer.analysis toDouble escape reader.peek reader.skip.rest) :=
        leads_analysis reader.peek hlt
      rcases hleads with ⟨e, he, hx, hfound⟩ | ⟨l', hx, hinv, hl', hlt'⟩
      · rw [hfound] at hvalue
        exact .inl ⟨e, he, hx, hvalue⟩
      · refine .inr ⟨l', hx, hinv, hl'.trans hvalue.symm, .inl (hlt'.trans_le ?_)⟩
        simp only [measure, rank, JsonReader.left, JsonReader.skip]
        omega
  · rw [hpeek, if_neg (by decide)]
    refine .inr ⟨⟨reader.skip, tokens, .getTokens⟩, rfl, trivial, ?_, .inl ?_⟩
    · rw [hvalue, hrest, ← hrest']
      rfl
    · simp only [measure, rank, JsonReader.left, JsonReader.skip]
      omega

theorem keeps_turn {l : Lexing F} (h : l.Inv) (hx : l.exit = none) :
    Keeps toDouble escape l (l.turn toDouble escape) := by
  obtain ⟨reader, tokens, place⟩ := l
  cases place with
  | getTokens =>
    have hgo : reader.eof = false := by
      cases heof : reader.eof with
      | false => rfl
      | true => simp [exit, heof] at hx
    exact .inr ⟨⟨reader, tokens, .space none⟩, rfl, hgo, rfl, .inl (Nat.lt_succ_self _)⟩
  | space c => exact keeps_space h
  | string s c => exact keeps_string h
  | lineComment c => exact keeps_lineComment h
  | blockComment c => exact keeps_blockComment h
  | digits sign s c => exact keeps_digits h
  | fraction s c => exact keeps_fraction h

theorem value_exit {l : Lexing F} {ts : List (Token F)} (hx : l.exit = some ts) :
    value toDouble escape l = .ok ts := by
  obtain ⟨reader, tokens, place⟩ := l
  cases place with
  | getTokens =>
    change (if reader.eof then some tokens else none) = some ts at hx
    split_ifs at hx with heof
    obtain rfl := Option.some.inj hx
    have hend : reader.rest = [] :=
      List.drop_eq_nil_of_le (of_decide_eq_true heof).le
    change prepend tokens (getTokens toDouble escape reader.rest) = _
    rw [hend, getTokens_empty]
    exact congrArg Except.ok (List.append_nil tokens)
  | space c => cases hx
  | string s c => cases hx
  | lineComment c => cases hx
  | blockComment c => cases hx
  | digits sign s c => cases hx
  | fraction s c => cases hx

end Turns

variable (toDouble escape) in
/-- The lexer over the reader comes to what `getTokens` says of the text, and goes on for
ever where that says it hangs. -/
theorem ends_init_iff (text : Bytes) (r : Except Fault (List (Token F))) :
    Ends exit (turn toDouble escape) (init text) r ↔
      getTokens toDouble escape text = r ∧ r ≠ .error .hang := by
  have hvalue : value toDouble escape (init text) = getTokens toDouble escape text :=
    prepend_nil _
  have hexit (l : Lexing F) (ts : List (Token F)) (_ : l.Inv) (hx : l.exit = some ts) :
      value toDouble escape l = .ok ts := value_exit hx
  have hturn (l : Lexing F) (h : l.Inv) (hx : l.exit = none) :
      Keeps toDouble escape l (l.turn toDouble escape) := keeps_turn h hx
  have hinit : (init text : Lexing F).Inv := trivial
  rw [← hvalue]
  exact ends_iff hexit hturn hinit r

end Lexing

end Socnet.Libjson
