import Socnet.Modules.StdinStream

namespace Socnet

namespace FastCgi

/-- The length of a name or of a value: a byte, or four of them with the top bit set. -/
def readLength : Bytes → Option (ℕ × Bytes)
  | [] => none
  | b₃ :: rest =>
    if b₃ < 0x80 then some (b₃.toNat, rest)
    else
      match rest with
      | b₂ :: b₁ :: b₀ :: rest =>
        some ((b₃ &&& 0x7f).toNat <<< 24 + b₂.toNat <<< 16 + b₁.toNat <<< 8 + b₀.toNat, rest)
      | _ => none

/-- The first name and value of a stream of parameters, with the bytes after them. -/
def readNameValue (l : Bytes) : Option ((Bytes × Bytes) × Bytes) := do
  let (nlen, rest) ← readLength l
  let (vlen, rest) ← readLength rest
  if nlen + vlen ≤ rest.length then
    some ((rest.take nlen, (rest.drop nlen).take vlen), rest.drop (nlen + vlen))
  else none

end FastCgi

namespace PhpFastCgi

open FastCgi

/-- `FCGI_Params`. -/
inductive Params
  | requestMethod
  | queryString
  | contentLength
  | contentType
  | scriptFilename
  | serverName
  | serverPort
  | remoteAddr
  | remoteHost
  | autorization
  | userAgent
  | phpAuthUser
  | phpAuthPw
  | phpAuthDigest

/-- `params_`, which has no entry for two of the keys: its `[]` then makes an empty one. -/
def Params.name : Params → Bytes
  | requestMethod => ascii "REQUEST_METHOD"
  | queryString => ascii "QUERY_STRING"
  | contentLength => ascii "CONTENT_LENGTH"
  | contentType => ascii "CONTENT_TYPE"
  | scriptFilename => ascii "SCRIPT_FILENAME"
  | serverName => ascii "SERVER_NAME"
  | serverPort => ascii "SERVER_PORT"
  | remoteAddr => []
  | remoteHost => ascii "REMOTE_ADDR"
  | autorization => []
  | userAgent => ascii "USER_AGENT"
  | phpAuthUser => ascii "PHP_AUTH_USER"
  | phpAuthPw => ascii "PHP_AUTH_PW"
  | phpAuthDigest => ascii "PHP_AUTH_DIGEST"

/-- An array with a pointer into it through which bytes are written. -/
structure Cursor where
  array : Bytes
  pos : ℕ
  pos_le : pos ≤ array.length

namespace Cursor

def start (array : Bytes) : Cursor := ⟨array, 0, Nat.zero_le _⟩

/-- `*body++ = c`. -/
def put (a : Cursor) (c : UInt8) : Except Fault Cursor :=
  if h : a.pos < a.array.length then
    .ok ⟨a.array.set a.pos c, a.pos + 1, by rw [List.length_set]; exact h⟩
  else .error .overflow

/-- The bytes that have been written. -/
def written (a : Cursor) : Bytes := a.array.take a.pos

/-- From `a` to `a'` the bytes of `l` have been written. -/
structure Writes (l : Bytes) (a a' : Cursor) : Prop where
  written : a'.written = a.written ++ l
  pos : a'.pos = a.pos + l.length
  length : a'.array.length = a.array.length

theorem Writes.nil (a : Cursor) : Writes [] a a := ⟨(List.append_nil _).symm, rfl, rfl⟩

theorem Writes.append {l m : Bytes} {a a' a'' : Cursor} (h : Writes l a a') (h' : Writes m a' a'') :
    Writes (l ++ m) a a'' where
  written := by rw [h'.written, h.written, List.append_assoc]
  pos := by rw [h'.pos, h.pos, List.length_append, Nat.add_assoc]
  length := h'.length.trans h.length

theorem put_of_lt {a : Cursor} (c : UInt8) (h : a.pos < a.array.length) :
    ∃ a', a.put c = .ok a' ∧ Writes [c] a a' := by
  refine ⟨_, dif_pos h, ?_, rfl, List.length_set⟩
  rw [written, List.take_add_one, List.take_set_of_le le_rfl, List.getElem?_set_self h]
  rfl

/-- The bytes go one behind the other, as far as the array has room. -/
theorem foldlM_put (l : Bytes) (a : Cursor) :
    (a.pos + l.length ≤ a.array.length ∧ ∃ a', l.foldlM put a = .ok a' ∧ Writes l a a') ∨
      a.array.length < a.pos + l.length ∧ l.foldlM put a = .error .overflow := by
  induction l generalizing a with
  | nil => exact .inl ⟨a.pos_le, a, rfl, .nil a⟩
  | cons c l ih =>
    rw [List.foldlM_cons, List.length_cons]
    by_cases h : a.pos < a.array.length
    · obtain ⟨a₁, hput, hwrites⟩ := put_of_lt c h
      have hpos := hwrites.pos
      have hlen := hwrites.length
      rw [List.length_singleton] at hpos
      rw [hput]
      rcases ih a₁ with ⟨hroom, a', hrun, hwrites'⟩ | ⟨hroom, hrun⟩
      · exact .inl ⟨by omega, a', hrun, hwrites.append hwrites'⟩
      · exact .inr ⟨by omega, hrun⟩
    · rw [put, dif_neg h]
      exact .inr ⟨by omega, rfl⟩

end Cursor

open Cursor

def putLength (n : ℕ) (body : Cursor) : Except Fault Cursor :=
  if n < 128 then body.put (.ofNat n)
  else do
    let body ← body.put (.ofNat (n >>> 24 ||| 0x80))
    let body ← body.put (.ofNat (n >>> 16))
    let body ← body.put (.ofNat (n >>> 8))
    body.put (.ofNat n)

/-- The loop over the bytes of a name or of a value. Its index is an `int`. -/
def putLoop (s : Bytes) (i : ℕ) (body : Cursor) : Except Fault Cursor :=
  if h : i < s.length then do
    let body ← body.put s[i]
    if i + 1 < 2 ^ 31 then putLoop s (i + 1) body else .error .overflow
  else .ok body
termination_by s.length - i

/-- The array that `body` points into comes back with `*bodylen`. -/
def makeNameValueBody (name value : Bytes) (body : Cursor) : Except Fault (Cursor × ℤ) := do
  let startBodyBuffPtr := body.pos
  let body ← putLength name.length body
  let body ← putLength value.length body
  let body ← putLoop name 0 body
  let body ← putLoop value 0 body
  .ok (body, Int.bmod ((body.pos : ℤ) - startBodyBuffPtr) (2 ^ 32))

def lengthText (n : ℕ) : Bytes :=
  if n < 128 then [.ofNat n]
  else [.ofNat (n >>> 24 ||| 0x80), .ofNat (n >>> 16), .ofNat (n >>> 8), .ofNat n]

/-- A name and a value as the records of parameters hold them. -/
def nameValueText (name value : Bytes) : Bytes :=
  lengthText name.length ++ (lengthText value.length ++ (name ++ value))

theorem putLength_eq (n : ℕ) (body : Cursor) : putLength n body = (lengthText n).foldlM put body := by
  rw [putLength, lengthText]
  split_ifs
  · simp
  · simp

theorem putLoop_eq {s : Bytes} (hs : s.length < 2 ^ 31) (i : ℕ) (body : Cursor) :
    putLoop s i body = (s.drop i).foldlM put body := by
  induction hn : s.length - i generalizing i body with
  | zero =>
    rw [putLoop, dif_neg (by omega), List.drop_eq_nil_of_le (by omega)]
    rfl
  | succ n ih =>
    have hi : i < s.length := by omega
    rw [putLoop, dif_pos hi, List.drop_eq_getElem_cons hi, List.foldlM_cons]
    congr 1
    funext body
    rw [if_pos (by omega), ih (i + 1) body (by omega)]

theorem length_of_putLoop {s : Bytes} {i : ℕ} {body body' : Cursor} (hi : i < 2 ^ 31)
    (h : putLoop s i body = .ok body') : s.length < 2 ^ 31 := by
  induction hn : s.length - i generalizing i body with
  | zero => omega
  | succ n ih =>
    rw [putLoop, dif_pos (by omega)] at h
    obtain ⟨body₁, -, h⟩ := bind_eq_ok.mp h
    split_ifs at h with hi'
    exact ih hi' h (by omega)

/-- A name and a value are written when the array has room for them and an `int` can
count them. -/
theorem makeNameValueBody_iff {name value : Bytes} {body : Cursor} {n : ℤ} {body' : Cursor} :
    makeNameValueBody name value body = .ok (body', n) ↔
      name.length < 2 ^ 31 ∧ value.length < 2 ^ 31 ∧
      (nameValueText name value).foldlM put body = .ok body' ∧
      n = Int.bmod (nameValueText name value).length (2 ^ 32) := by
  have hcount {b : Cursor} (hrun : (nameValueText name value).foldlM put body = .ok b) :
      (b.pos : ℤ) - body.pos = (nameValueText name value).length := by
    rcases foldlM_put (nameValueText name value) body with ⟨-, b', hb', hwrites⟩ | ⟨-, he⟩
    · obtain rfl : b = b' := Except.ok.inj (hrun.symm.trans hb')
      rw [hwrites.pos]
      omega
    · rw [he] at hrun
      cases hrun
  have hsplit (hname : name.length < 2 ^ 31) (hvalue : value.length < 2 ^ 31) :
      makeNameValueBody name value body = (nameValueText name value).foldlM put body >>=
        fun b ↦ .ok (b, Int.bmod ((b.pos : ℤ) - body.pos) (2 ^ 32)) := by
    simp only [makeNameValueBody, nameValueText, putLength_eq, putLoop_eq hname, putLoop_eq hvalue,
      List.drop_zero, List.foldlM_append, bind_assoc]
  constructor
  · intro h
    have hlen : name.length < 2 ^ 31 ∧ value.length < 2 ^ 31 := by
      obtain ⟨b₁, -, h⟩ := bind_eq_ok.mp h
      obtain ⟨b₂, -, h⟩ := bind_eq_ok.mp h
      obtain ⟨b₃, hname, h⟩ := bind_eq_ok.mp h
      obtain ⟨b₄, hvalue, h⟩ := bind_eq_ok.mp h
      exact ⟨length_of_putLoop (by decide) hname, length_of_putLoop (by decide) hvalue⟩
    rw [hsplit hlen.1 hlen.2] at h
    obtain ⟨b, hrun, h⟩ := bind_eq_ok.mp h
    rw [hcount hrun] at h
    simp only [Except.ok.injEq, Prod.mk.injEq] at h
    obtain ⟨rfl, rfl⟩ := h
    exact ⟨hlen.1, hlen.2, hrun, rfl⟩
  · rintro ⟨hname, hvalue, hrun, hn⟩
    rw [hsplit hname hvalue, bind_eq_ok]
    exact ⟨body', hrun, by rw [hcount hrun, hn]⟩

/-- The top bit that is set above a number of seven bits can be masked off again. -/
theorem toNat_flagged {m : ℕ} (hm : m < 128) :
    ¬ UInt8.ofNat (m ||| 0x80) < 0x80 ∧ (UInt8.ofNat (m ||| 0x80) &&& 0x7f).toNat = m := by
  have hor : m ||| 0x80 = 128 + m := by
    rw [Nat.or_comm]
    exact (Nat.two_pow_add_eq_or_of_lt (i := 7) hm 1).symm
  have hbyte : (UInt8.ofNat (m ||| 0x80)).toNat = 128 + m := by
    rw [hor, UInt8.toNat_ofNat']
    omega
  constructor
  · rw [UInt8.lt_iff_toNat_lt, hbyte]
    exact Nat.not_lt.mpr (Nat.le_add_right 128 m)
  · rw [UInt8.toNat_and, hbyte]
    change (128 + m) &&& (2 ^ 7 - 1) = m
    rw [Nat.and_two_pow_sub_one_eq_mod]
    omega

theorem readLength_lengthText {n : ℕ} (hn : n < 2 ^ 31) (rest : Bytes) :
    readLength (lengthText n ++ rest) = some (n, rest) := by
  rw [lengthText]
  split_ifs with hlt
  · have hbyte : (UInt8.ofNat n).toNat = n := by
      rw [UInt8.toNat_ofNat']
      omega
    have hclear : UInt8.ofNat n < 0x80 := by
      rw [UInt8.lt_iff_toNat_lt, hbyte]
      exact hlt
    rw [List.singleton_append, readLength.eq_def]
    dsimp only
    rw [if_pos hclear, hbyte]
  · have htop : n >>> 24 < 128 := by
      rw [Nat.shiftRight_eq_div_pow]
      omega
    obtain ⟨hset, hmasked⟩ := toNat_flagged htop
    rw [readLength.eq_def]
    dsimp only [List.cons_append, List.nil_append]
    rw [if_neg hset, hmasked, UInt8.toNat_ofNat', UInt8.toNat_ofNat', UInt8.toNat_ofNat']
    simp only [Nat.shiftRight_eq_div_pow, Nat.shiftLeft_eq]
    congr 2
    omega

theorem readNameValue_nameValueText {name value : Bytes} (hname : name.length < 2 ^ 31)
    (hvalue : value.length < 2 ^ 31) (rest : Bytes) :
    readNameValue (nameValueText name value ++ rest) = some ((name, value), rest) := by
  rw [nameValueText, List.append_assoc, List.append_assoc, List.append_assoc]
  rw [readNameValue, readLength_lengthText hname]
  simp only [bind, Option.bind, readLength_lengthText hvalue]
  rw [if_pos (by simp only [List.length_append]; omega), List.take_left, List.drop_left,
    List.take_left, ← List.drop_drop, List.drop_left, List.drop_left]

/-- `bodyBuff` in front of its first byte. -/
def bodyBuff : Cursor := .start (List.replicate kBufferSize 0)

/-- The record that is handed to `::write`. -/
def sendParams (c : PhpFastCgi) (param : Params) (value : Bytes) : Except Fault Bytes := do
  let (body, bodyLen) ← makeNameValueBody param.name value bodyBuff
  let nameValueHeader := c.makeHeader params c.requestId bodyLen 0
  .ok (nameValueHeader.bytes ++ body.array.take bodyLen.toNat)

/-- The body of a parameter fits into the array and into a record, and the record is
read back as the name and the value. -/
def Carried (c : PhpFastCgi) (param : Params) (value : Bytes) : Prop :=
  ∃ body bodyLen record r, makeNameValueBody param.name value bodyBuff = .ok (body, bodyLen) ∧
    bodyLen ≤ kBufferSize ∧ bodyLen ≤ maxLength ∧ c.sendParams param value = .ok record ∧
    decode record = some [r] ∧ r.header.type = params ∧
    readNameValue r.content = some ((param.name, value), [])

variable {name value : Bytes}

theorem length_le_nameValueText (name value : Bytes) :
    name.length + value.length ≤ (nameValueText name value).length := by
  simp only [nameValueText, List.length_append]
  omega

theorem length_le_of_makeNameValueBody {body : Cursor} {bodyLen : ℤ}
    (h : makeNameValueBody name value bodyBuff = .ok (body, bodyLen)) :
    (nameValueText name value).length ≤ kBufferSize := by
  obtain ⟨-, -, hrun, -⟩ := makeNameValueBody_iff.mp h
  rcases foldlM_put (nameValueText name value) bodyBuff with ⟨hroom, -⟩ | ⟨-, he⟩
  · rw [show bodyBuff.array.length = kBufferSize from List.length_replicate] at hroom
    exact (Nat.le_add_left _ _).trans hroom
  · rw [he] at hrun
    cases hrun

theorem makeNameValueBody_of_le (h : (nameValueText name value).length ≤ kBufferSize) :
    ∃ body, makeNameValueBody name value bodyBuff =
        .ok (body, ((nameValueText name value).length : ℕ)) ∧
      body.array.take (nameValueText name value).length = nameValueText name value := by
  have hsum := length_le_nameValueText name value
  have hsmall : kBufferSize < 2 ^ 31 := by decide
  rcases foldlM_put (nameValueText name value) bodyBuff with ⟨-, body, hrun, hwrites⟩ | ⟨hroom, -⟩
  · refine ⟨body, makeNameValueBody_iff.mpr ⟨by omega, by omega, hrun, ?_⟩, ?_⟩
    · rw [bmod_of_lt (h.trans_lt hsmall)]
    · have hpos := hwrites.pos
      rw [show bodyBuff.pos = 0 from rfl, Nat.zero_add] at hpos
      rw [← hpos]
      exact hwrites.written
  · rw [show bodyBuff.array.length = kBufferSize from List.length_replicate,
      show bodyBuff.pos = 0 from rfl] at hroom
    omega

theorem paddingLength_params (c : PhpFastCgi) (content : Bytes) : ([] : Bytes).length =
    (c.makeHeader params c.requestId content.length 0).paddingLength.toNat := rfl

/-- The record of a content of a length that its header can hold. -/
def paramsRecord (c : PhpFastCgi) (content : Bytes) (h : content.length ≤ maxLength) : Record where
  header := c.makeHeader params c.requestId content.length 0
  content := content
  padding := []
  length_content := (c.contentLength_makeHeader params c.requestId 0 h).symm
  length_padding := c.paddingLength_params content

theorem carried_iff_length (c : PhpFastCgi) (param : Params) (value : Bytes) :
    c.Carried param value ↔ (nameValueText param.name value).length ≤ kBufferSize := by
  constructor
  · rintro ⟨body, bodyLen, record, r, hmake, -⟩
    exact length_le_of_makeNameValueBody hmake
  · intro h
    obtain ⟨body, hmake, htake⟩ := makeNameValueBody_of_le h
    have hmax : (nameValueText param.name value).length ≤ maxLength := h.trans (by decide)
    have hsend : c.sendParams param value = .ok ([c.paramsRecord _ hmax].flatMap Record.bytes) := by
      rw [sendParams, hmake]
      change Except.ok _ = Except.ok _
      rw [Int.toNat_natCast, htake]
      simp [paramsRecord, Record.bytes]
    have hsum := length_le_nameValueText param.name value
    have hsmall : kBufferSize < 2 ^ 31 := by decide
    have hread := @readNameValue_nameValueText param.name value (by omega)
      (by omega) []
    rw [List.append_nil] at hread
    exact ⟨body, _, _, _, hmake, Int.ofNat_le.mpr h, Int.ofNat_le.mpr hmax, hsend,
      decode_flatMap_bytes _, rfl, hread⟩

theorem length_lengthText (n : ℕ) : (lengthText n).length = if n < 128 then 1 else 4 := by
  rw [lengthText]
  split_ifs
  · rfl
  · rfl

theorem Params.length_name (param : Params) : param.name.length ≤ 15 := by
  cases param <;> decide

/-- A short name takes one byte for its length, and a value too long for one byte takes
four. -/
theorem carried_iff (c : PhpFastCgi) (param : Params) (value : Bytes) :
    c.Carried param value ↔ param.name.length + value.length ≤ 2043 := by
  have hname := param.length_name
  rw [carried_iff_length, nameValueText, kBufferSize]
  simp only [List.length_append, length_lengthText]
  rw [if_pos (by omega)]
  split_ifs
  · exact iff_of_true (by omega) (by omega)
  · omega

theorem carried_iff_le (c : PhpFastCgi) (param : Params) {n : ℕ} (h : param.name.length + n = 2043) (value : Bytes) :
    c.Carried param value ↔ value.length ≤ n := by
  rw [carried_iff]
  omega

/-- The `*bodylen` bytes that the function leaves from where `body` pointed to on. -/
def encoded (body : Cursor) (result : Cursor × ℤ) : Bytes :=
  (result.1.array.drop body.pos).take result.2.toNat

theorem length_nameValueText_le (name value : Bytes) :
    (nameValueText name value).length ≤ name.length + value.length + 8 := by
  simp only [nameValueText, List.length_append, length_lengthText]
  split_ifs <;> omega

theorem encoded_eq (hlen : name.length + value.length + 8 < 2 ^ 31) {body : Cursor}
    {result : Cursor × ℤ} (h : makeNameValueBody name value body = .ok result) :
    encoded body result = nameValueText name value ∧
      result.2 = (nameValueText name value).length := by
  obtain ⟨body', n⟩ := result
  obtain ⟨-, -, hrun, hn⟩ := makeNameValueBody_iff.mp h
  have hle := length_nameValueText_le name value
  rw [bmod_of_lt (by omega)] at hn
  rcases foldlM_put (nameValueText name value) body with ⟨-, b, hb, hwrites⟩ | ⟨-, he⟩
  · obtain rfl : body' = b := Except.ok.inj (hrun.symm.trans hb)
    refine ⟨?_, hn⟩
    have hwritten := congrArg (List.drop body.pos) hwrites.written
    have hpos : body.written.length = body.pos := by
      rw [written, List.length_take, Nat.min_eq_left body.pos_le]
    rw [written, hwrites.pos, List.drop_take, Nat.add_sub_cancel_left, List.drop_left' hpos]
      at hwritten
    rw [encoded, hn, Int.toNat_natCast]
    exact hwritten
  · rw [he] at hrun
    cases hrun

/-- A pair is written into every area with room for it, what is written is read back with
whatever follows left over, and pairs that are written one behind the other are all read
back. -/
theorem makeNameValueBody_roundTrip :
    (∀ (name value : Bytes) (body : Cursor), name.length + value.length + 8 < 2 ^ 31 →
      body.pos + (nameValueText name value).length ≤ body.array.length →
      ∃ body' bodylen, makeNameValueBody name value body = .ok (body', bodylen) ∧
        ((encoded body (body', bodylen)).length : ℤ) = bodylen ∧
        ∀ rest, readNameValue (encoded body (body', bodylen) ++ rest) = some ((name, value), rest)) ∧
    ∀ (pairs : List (Bytes × Bytes)) (encodings : List Bytes),
      (∀ p ∈ pairs, p.1.length + p.2.length + 8 < 2 ^ 31) →
      List.Forall₂ (fun p bytes ↦ ∃ body result,
        makeNameValueBody p.1 p.2 body = .ok result ∧ bytes = encoded body result) pairs encodings →
      Lib.Framing.decode readNameValue encodings.flatten = some pairs := by
  constructor
  · intro name value body hlen hroom
    have hle := length_le_nameValueText name value
    rcases foldlM_put (nameValueText name value) body with ⟨-, body', hrun, -⟩ | ⟨hfull, -⟩
    · obtain ⟨n, hn⟩ : ∃ n, n = Int.bmod (nameValueText name value).length (2 ^ 32) := ⟨_, rfl⟩
      have hmake := makeNameValueBody_iff.mpr ⟨by omega, by omega, hrun, hn⟩
      obtain ⟨hbytes, hn⟩ := encoded_eq hlen hmake
      refine ⟨body', n, hmake, ?_, fun rest ↦ ?_⟩
      · rw [hbytes]
        exact hn.symm
      · rw [hbytes]
        exact readNameValue_nameValueText (by omega) (by omega) rest
    · omega
  · intro pairs encodings hlen hall
    have htext : encodings.flatten = pairs.flatMap fun p ↦ nameValueText p.1 p.2 := by
      induction hall with
      | nil => rfl
      | cons hp _ ih =>
        obtain ⟨body, result, hmake, rfl⟩ := hp
        rw [List.flatten_cons, List.flatMap_cons, ih fun q hq ↦ hlen q (.tail _ hq),
          (encoded_eq (hlen _ List.mem_cons_self) hmake).1]
    rw [htext]
    apply Lib.Framing.decode_flatMap
    · intro p _ hnil
      have hpos := congrArg List.length hnil
      simp only [nameValueText, List.length_append, length_lengthText, List.length_nil] at hpos
      split_ifs at hpos <;> omega
    · intro p hp rest
      have hp := hlen p hp
      exact readNameValue_nameValueText (by omega) (by omega) rest

end PhpFastCgi

end Socnet
