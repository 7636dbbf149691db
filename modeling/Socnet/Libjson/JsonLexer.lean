import Socnet.Libjson.JsonUtil
import Socnet.Libjson.JsonValue

namespace Socnet.Libjson

variable {F : Type}

/-- `JsonReader::set_buffer`. The length is kept in an `int`, and `new` throws
when it is negative. -/
def setBuffer (s : Bytes) : Except Fault Bytes :=
  let len := Int.bmod s.length (2 ^ 32)
  if len < 0 then .error .exception else .ok (s.take len.toNat)

namespace JsonLexer

def isWhite (c : UInt8) : Bool := isSpace c || isNewline c

/-- A string up to the quote that ends it, and the text behind that quote. At
the end of the text the reader returns `EOF` for ever. -/
def scanString : Bytes → Except Fault (Bytes × Bytes)
  | [] => .error .hang
  | c :: rest =>
    if c = quote then .ok ([], rest)
    else if c = backslash then
      match rest with
      | [] => .error .exception
      | e :: rest =>
        if isValidNextEscapeCharacter e then do
          let (s, rest) ← scanString rest
          .ok (c :: e :: s, rest)
        else .error .exception
    else do
      let (s, rest) ← scanString rest
      .ok (c :: s, rest)

/-- A byte 255 cannot be told from `EOF` and ends the comment too. -/
def skipLine : Bytes → Bytes
  | [] => []
  | c :: rest => if c = 255 ∨ isNewline c then rest else skipLine rest

def skipBlock : Bytes → Except Fault Bytes
  | [] => .error .hang
  | c :: rest =>
    if c = '*'.toUInt8 ∧ rest.head? = some '/'.toUInt8 then .ok rest.tail else skipBlock rest

def isSign (c : UInt8) : Bool := c = '-'.toUInt8 || c = '+'.toUInt8

/-- `static_cast<int>(toAny<double>(s))` of a sign or digit `c` and digits.
A sign alone is read as zero, and a value that does not fit is undefined. -/
def toInt (c : UInt8) (digits : Bytes) : Except Fault ℤ :=
  let n : ℤ := if c = '-'.toUInt8 then -natValue digits
    else if c = '+'.toUInt8 then natValue digits else natValue (c :: digits)
  if -2147483648 ≤ n ∧ n ≤ 2147483647 then .ok n else .error .overflow

/-- The number that starts with `c`. -/
def scanNumber (toDouble : Bytes → F) (c : UInt8) (rest : Bytes) :
    Except Fault (Scalar F × Bytes) :=
  if c = '0'.toUInt8 ∧ rest.head?.any isNumber then .error .exception
  else
    let digits := rest.takeWhile isNumber
    let integer : Except Fault (Scalar F × Bytes) := do
      let n ← toInt c digits
      .ok (.number n, rest.dropWhile isNumber)
    match rest.dropWhile isNumber with
    | [] => integer
    | d :: tail =>
      if d = '.'.toUInt8 ∨ isExponent d then
        let more (x : UInt8) : Bool := isNumber x || isExponent x || isSign x
        let s := c :: (digits ++ d :: tail.takeWhile more)
        if s.getLast?.any fun x ↦ x = '.'.toUInt8 || isExponent x then .error .exception
        else .ok (.float (toDouble s), tail.dropWhile more)
      else integer

def scanIdentifier (word : String) (value : Scalar F) (rest : Bytes) :
    Except Fault (Option (Token F) × Bytes) :=
  let word := ascii word
  if word <+: rest then .ok (some (.scalar value), rest.drop word.length) else .error .exception

def decode (escape : Bool) (raw : Bytes) : Except Fault Bytes :=
  if escape then escapeString raw else .ok raw

def stringLiteral (escape : Bool) (rest : Bytes) : Except Fault (Option (Token F) × Bytes) := do
  let (raw, rest) ← scanString rest
  let s ← decode escape raw
  .ok (some (.scalar (.string s)), rest)

def comment (rest : Bytes) : Except Fault (Option (Token F) × Bytes) :=
  match rest with
  | [] => .error .exception
  | c :: rest =>
    if c = '/'.toUInt8 then .ok (none, skipLine rest)
    else if c = '*'.toUInt8 then do
      let rest ← skipBlock rest
      .ok (none, rest)
    else .error .exception

def punctuation : List (UInt8 × Token F) :=
  [(':'.toUInt8, .keyValueSep), (','.toUInt8, .sep), ('{'.toUInt8, .objectBegin),
    ('['.toUInt8, .arrayBegin), ('}'.toUInt8, .objectEnd), (']'.toUInt8, .arrayEnd)]

def integerOrFloat (toDouble : Bytes → F) (c : UInt8) (rest : Bytes) :
    Except Fault (Option (Token F) × Bytes) :=
  if isNumber c ∨ isSign c then do
    let (value, rest) ← scanNumber toDouble c rest
    .ok (some (.scalar value), rest)
  else .ok (none, rest)

/-- The token that starts with `c`. A comment gives none, and neither does a
character that starts no token. -/
def analysis (toDouble : Bytes → F) (escape : Bool) (c : UInt8) (rest : Bytes) :
    Except Fault (Option (Token F) × Bytes) :=
  if c = quote then stringLiteral escape rest
  else if c = '/'.toUInt8 then comment rest
  else if c = 't'.toUInt8 then scanIdentifier "rue" (.boolean true) rest
  else if c = 'f'.toUInt8 then scanIdentifier "alse" (.boolean false) rest
  else if c = 'n'.toUInt8 then scanIdentifier "ull" .null rest
  else
    match punctuation.lookup c with
    | some token => .ok (some token, rest)
    | none => integerOrFloat toDouble c rest

theorem scanString_length {text s rest : Bytes} (h : scanString text = .ok (s, rest)) :
    rest.length < text.length := by
  fun_induction scanString text generalizing s with
  | case1 => cases h
  | case2 => cases h; simp
  | case3 => cases h
  | case4 _ e tail _ ih =>
    obtain ⟨⟨s', r⟩, hs, h⟩ := bind_eq_ok.mp h
    cases h
    have := ih hs
    simp only [List.length_cons]
    omega
  | case5 => cases h
  | case6 c tail _ _ ih =>
    obtain ⟨⟨s', r⟩, hs, h⟩ := bind_eq_ok.mp h
    cases h
    have := ih hs
    simp only [List.length_cons]
    omega

theorem skipLine_length (text : Bytes) : (skipLine text).length ≤ text.length := by
  induction text with
  | nil => exact le_rfl
  | cons c rest ih =>
    rw [skipLine]
    split_ifs
    · exact Nat.le_succ _
    · exact ih.trans (Nat.le_succ _)

theorem skipBlock_length {text rest : Bytes} (h : skipBlock text = .ok rest) :
    rest.length ≤ text.length := by
  induction text with
  | nil => cases h
  | cons c tail ih =>
    rw [skipBlock] at h
    split_ifs at h
    · cases h
      simp only [List.length_tail, List.length_cons]
      omega
    · exact (ih h).trans (Nat.le_succ _)

theorem dropWhile_length (p : UInt8 → Bool) (text : Bytes) :
    (text.dropWhile p).length ≤ text.length := (List.dropWhile_sublist p).length_le

theorem scanNumber_length {toDouble : Bytes → F} {c : UInt8} {text rest : Bytes} {value : Scalar F}
    (h : scanNumber toDouble c text = .ok (value, rest)) : rest.length ≤ text.length := by
  have hd := dropWhile_length isNumber text
  have hint {n : Except Fault ℤ}
      (h : (n >>= fun n ↦ .ok (.number n, text.dropWhile isNumber)) = .ok (value, rest)) :
      rest.length ≤ text.length := by
    obtain ⟨n, -, h⟩ := bind_eq_ok.mp h
    cases h
    exact hd
  unfold scanNumber at h
  split_ifs at h
  dsimp only at h
  split at h
  · exact hint h
  · rename_i d tail htail
    split_ifs at h
    · cases h
      rw [htail, List.length_cons] at hd
      exact (dropWhile_length _ tail).trans (by omega)
    · exact hint h

/-- A call of `analysis` takes nothing back. -/
theorem analysis_length {toDouble : Bytes → F} {escape : Bool} {c : UInt8} {text rest : Bytes}
    {token : Option (Token F)} (h : analysis toDouble escape c text = .ok (token, rest)) :
    rest.length ≤ text.length := by
  have hid {word : String} {value : Scalar F}
      (h : scanIdentifier word value text = .ok (token, rest)) : rest.length ≤ text.length := by
    unfold scanIdentifier at h
    dsimp only at h
    split_ifs at h
    cases h
    simp
  have hstring (h : stringLiteral escape text = .ok (token, rest)) :
      rest.length ≤ text.length := by
    obtain ⟨⟨raw, r⟩, hs, h⟩ := bind_eq_ok.mp h
    obtain ⟨s, -, h⟩ := bind_eq_ok.mp h
    cases h
    exact (scanString_length hs).le
  have hcomment (h : comment text = .ok (token, rest)) : rest.length ≤ text.length := by
    cases text with
    | nil => cases h
    | cons d tail =>
      simp only [comment] at h
      split_ifs at h
      · cases h
        exact (skipLine_length tail).trans (Nat.le_succ _)
      · obtain ⟨r, hr, h⟩ := bind_eq_ok.mp h
        cases h
        exact (skipBlock_length hr).trans (Nat.le_succ _)
  have hnumber (h : integerOrFloat toDouble c text = .ok (token, rest)) :
      rest.length ≤ text.length := by
    unfold integerOrFloat at h
    split_ifs at h
    · obtain ⟨⟨value, r⟩, hn, h⟩ := bind_eq_ok.mp h
      cases h
      exact scanNumber_length hn
    · cases h
      exact le_rfl
  unfold analysis at h
  split_ifs at h
  · exact hstring h
  · exact hcomment h
  · exact hid h
  · exact hid h
  · exact hid h
  · split at h
    · cases h
      exact le_rfl
    · exact hnumber h

end JsonLexer

open JsonLexer

/-- `JsonParser::getTokens`: the lexer is called until the reader is at the
end, and skips the white space before each token. -/
def getTokens (toDouble : Bytes → F) (escape : Bool) (text : Bytes) :
    Except Fault (List (Token F)) :=
  match _htext : text.dropWhile isWhite with
  | [] => .ok []
  | c :: rest =>
    match _ha : analysis toDouble escape c rest with
    | .error e => .error e
    | .ok (token, rest') => do
      let tokens ← getTokens toDouble escape rest'
      .ok (token.toList ++ tokens)
termination_by text.length
decreasing_by
  have := congrArg List.length _htext
  have := dropWhile_length isWhite text
  have := analysis_length _ha
  simp only [List.length_cons] at *
  omega

theorem getTokens_nil {toDouble : Bytes → F} {escape : Bool} {text : Bytes}
    (ht : text.dropWhile isWhite = []) : getTokens toDouble escape text = .ok [] := by
  rw [getTokens]
  split
  · rfl
  · simp_all

theorem getTokens_empty (toDouble : Bytes → F) (escape : Bool) :
    getTokens toDouble escape [] = .ok [] := getTokens_nil rfl

theorem getTokens_eq {toDouble : Bytes → F} {escape : Bool} {text rest : Bytes} {c : UInt8}
    (ht : text.dropWhile isWhite = c :: rest) :
    getTokens toDouble escape text = analysis toDouble escape c rest >>= fun x ↦
      getTokens toDouble escape x.2 >>= fun tokens ↦ .ok (x.1.toList ++ tokens) := by
  rw [getTokens]
  split
  · simp_all
  · rename_i c' rest' ht'
    rw [ht] at ht'
    cases ht'
    cases analysis toDouble escape c rest with
    | error e => rfl
    | ok x => rfl

end Socnet.Libjson
