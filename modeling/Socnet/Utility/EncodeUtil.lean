import Socnet.Bytes

namespace Socnet.Utility.EncodeUtil

def between (lo hi : Char) (c : UInt8) : Bool := lo.toUInt8 ≤ c && c ≤ hi.toUInt8

def isxdigit (c : UInt8) : Bool := between '0' '9' c || between 'a' 'f' c || between 'A' 'F' c

def hex2dec (c : UInt8) : UInt8 :=
  if between '0' '9' c then c - '0'.toUInt8
  else if between 'a' 'z' c then c - 'a'.toUInt8 + 10
  else if between 'A' 'Z' c then c - 'A'.toUInt8 + 10
  else c

/-- An escape needs two bytes behind the percent sign, so that one among the last
two bytes is copied. -/
def urlDecode : Bytes → Bytes
  | [] => []
  | [a] => [a]
  | [a, b] => [a, b]
  | c :: a :: b :: rest =>
    if c = '%'.toUInt8 ∧ isxdigit a ∧ isxdigit b then
      ((hex2dec a <<< 4) ||| hex2dec b) :: urlDecode rest
    else c :: urlDecode (a :: b :: rest)

def isalnum (c : UInt8) : Bool := between '0' '9' c || between 'a' 'z' c || between 'A' 'Z' c

def toupper (c : UInt8) : UInt8 := if between 'a' 'z' c then c - 32 else c

def dec2hex (c : UInt8) : UInt8 :=
  if c ≤ 9 then c + '0'.toUInt8
  else if 10 ≤ c ∧ c ≤ 15 then c - 10 + 'A'.toUInt8
  else c

def unreserved (c : UInt8) : Bool := isalnum c || (ascii "-_.~").contains c

def urlEncodeByte (c : UInt8) : Bytes :=
  if unreserved c then [c]
  else ['%'.toUInt8, toupper (dec2hex (c >>> 4)), toupper (dec2hex (c &&& 15))]

def urlEncode (s : Bytes) : Bytes := s.flatMap urlEncodeByte

def murmurMul : UInt32 := 0x5bd1e995

/-- Four bytes at a time, read as a little-endian word, and then the tail, whose cases
fall through to one another. -/
def murmurMix (h : UInt32) : Bytes → UInt32
  | a :: b :: c :: d :: rest =>
    let k := (a.toUInt32 ||| b.toUInt32 <<< 8 ||| c.toUInt32 <<< 16 ||| d.toUInt32 <<< 24) * murmurMul
    let k := (k ^^^ k >>> 24) * murmurMul
    murmurMix (h * murmurMul ^^^ k) rest
  | [a, b, c] => (h ^^^ c.toUInt32 <<< 16 ^^^ b.toUInt32 <<< 8 ^^^ a.toUInt32) * murmurMul
  | [a, b] => (h ^^^ b.toUInt32 <<< 8 ^^^ a.toUInt32) * murmurMul
  | [a] => (h ^^^ a.toUInt32) * murmurMul
  | [] => h

def murmurHash2 (s : Bytes) : UInt32 :=
  let h := murmurMix (0xEE6B27EB ^^^ s.length.toUInt32) s
  let h := (h ^^^ h >>> 13) * murmurMul
  h ^^^ h >>> 15

def alpha : Bytes := ascii "0123456789abcdefghijklmnopqrstuvwxyzABCDEFGHIJKLMNOPQRSTUVWXYZ"

/-- What `genRandromStr` leaves in an array of `n` characters. -/
structure RandomStr (n : ℕ) where
  bytes : Bytes
  length_eq : bytes.length = n
  mem_alpha : ∀ c ∈ bytes, c ∈ alpha

def toLower (c : UInt8) : UInt8 := if between 'A' 'Z' c then c + 32 else c

def toLowers (s : Bytes) : Bytes := s.map toLower

/-- The table `get_inverse`, with `none` for its entries `-1`. -/
def base64Inverse (c : UInt8) : Option UInt8 :=
  if between 'A' 'Z' c then some (c - 'A'.toUInt8)
  else if between 'a' 'z' c then some (c - 'a'.toUInt8 + 26)
  else if between '0' '9' c then some (c - '0'.toUInt8 + 52)
  else if c = '+'.toUInt8 then some 62
  else if c = '/'.toUInt8 then some 63
  else none

def base64Group (c4 : Bytes) : Bytes :=
  let at4 (i : ℕ) : UInt8 := c4.getD i 0
  [(at4 0 <<< 2) + ((at4 1 &&& 0x30) >>> 4),
    ((at4 1 &&& 0xf) <<< 4) + ((at4 2 &&& 0x3c) >>> 2),
    ((at4 2 &&& 0x3) <<< 6) + at4 3]

/-- `c4` holds the sextets read since the last full group. A partial group of
`i` sextets yields `i - 1` octets. -/
def base64Octets (c4 : Bytes) : Bytes → Bytes
  | [] => (base64Group c4).take (c4.length - 1)
  | c :: rest =>
    match if c = '='.toUInt8 then none else base64Inverse c with
    | none => (base64Group c4).take (c4.length - 1)
    | some v =>
      if c4.length = 3 then base64Group (c4 ++ [v]) ++ base64Octets [] rest
      else base64Octets (c4 ++ [v]) rest

/-- The destination is sized `n / 4 * 3`, which is too small when the text is
not a multiple of four bytes long. -/
def base64Decode (data : Bytes) : Except Fault Bytes :=
  let out := base64Octets [] data
  if out.length ≤ data.length / 4 * 3 then .ok out else .error .overflow

theorem forall_byte {P : UInt8 → Prop} (h : ∀ n : Fin 256, P (UInt8.ofNat n)) (c : UInt8) : P c := by
  simpa using h ⟨c.toNat, c.toNat_lt⟩

theorem toLower_toLower : ∀ c, toLower (toLower c) = toLower c := forall_byte (by decide +kernel)

theorem toLowers_toLowers (s : Bytes) : toLowers (toLowers s) = toLowers s := by
  simp [toLowers, toLower_toLower]

/-- Only letters are changed. -/
theorem toLower_eq_iff {x : UInt8} (hx : x ∈ [CR, LF, ':'.toUInt8]) :
    ∀ c, toLower c = x ↔ c = x := by
  have h : ∀ x ∈ [CR, LF, ':'.toUInt8], ∀ n : Fin 256,
      toLower (UInt8.ofNat n) = x ↔ UInt8.ofNat n = x := by decide +kernel
  exact forall_byte (h x hx)

theorem hexDigit : ∀ c : UInt8, isxdigit (toupper (dec2hex (c >>> 4))) ∧
    isxdigit (toupper (dec2hex (c &&& 15))) ∧
    (hex2dec (toupper (dec2hex (c >>> 4))) <<< 4) ||| hex2dec (toupper (dec2hex (c &&& 15))) = c :=
  forall_byte (by decide +kernel)

theorem urlDecode_cons {c : UInt8} (hc : c ≠ '%'.toUInt8) (t : Bytes) :
    urlDecode (c :: t) = c :: urlDecode t := by
  match t with
  | [] => rfl
  | [a] => rfl
  | a :: b :: t => rw [urlDecode, if_neg fun h ↦ hc h.1]

theorem urlDecode_urlEncodeByte (c : UInt8) (t : Bytes) :
    urlDecode (urlEncodeByte c ++ t) = c :: urlDecode t := by
  unfold urlEncodeByte
  split
  · rename_i hu
    refine urlDecode_cons ?_ t
    rintro rfl
    revert hu
    decide
  · obtain ⟨hhi, hlo, hc⟩ := hexDigit c
    rw [List.cons_append, List.cons_append, List.cons_append, List.nil_append, urlDecode,
      if_pos ⟨rfl, hhi, hlo⟩, hc]

theorem urlDecode_urlEncode (s : Bytes) : urlDecode (urlEncode s) = s := by
  induction s with
  | nil => rfl
  | cons c s ih =>
    rw [urlEncode, List.flatMap_cons, urlDecode_urlEncodeByte]
    exact congrArg _ ih

theorem unreserved_dec2hex : ∀ c : UInt8, unreserved (toupper (dec2hex (c >>> 4))) ∧
    unreserved (toupper (dec2hex (c &&& 15))) :=
  forall_byte (by decide +kernel)

theorem mem_urlEncodeByte {c x : UInt8} (hx : x ∈ urlEncodeByte c) :
    unreserved x ∨ x = '%'.toUInt8 := by
  unfold urlEncodeByte at hx
  split at hx
  · rename_i hu
    rw [List.mem_singleton] at hx
    exact .inl (hx ▸ hu)
  · obtain ⟨hhi, hlo⟩ := unreserved_dec2hex c
    simp only [List.mem_cons, List.not_mem_nil, or_false] at hx
    rcases hx with rfl | rfl | rfl
    · exact .inr rfl
    · exact .inl hhi
    · exact .inl hlo

theorem mem_urlEncode {s : Bytes} {x : UInt8} (h : x ∈ urlEncode s) :
    unreserved x ∨ x = '%'.toUInt8 := by
  obtain ⟨c, -, hx⟩ := List.mem_flatMap.mp h
  exact mem_urlEncodeByte hx

end Socnet.Utility.EncodeUtil
