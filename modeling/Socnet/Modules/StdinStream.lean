import Socnet.Modules.PhpFastCgi

namespace Socnet.PhpFastCgi

open FastCgi

/-- Every call of the loop takes some of the bytes it is given. -/
def Accepting (kernel : ℕ → ℕ → Option ℕ) : Prop :=
  ∀ k count, ∃ n ≤ count, kernel k count = some n ∧ (0 < count → 0 < n)

/-- The records of the standard input of a request. -/
structure StdinStream (requestId : ℤ) (postdata : Bytes) (records : List Record) : Prop where
  type : ∀ r ∈ records, r.header.type = stdin
  requestId : ∀ r ∈ records, r.header.requestId = requestId
  content : records.flatMap Record.content = postdata
  last : ∃ r, records.getLast? = some r ∧ r.content = []
  nonempty : ∀ before r after, records = before ++ r :: after → r.content ≠ [] →
    ∀ r' ∈ before, r'.content ≠ []

theorem length_sendRest {kernel : ℕ → ℕ → Option ℕ} {postdata rest : Bytes} {k : ℕ} {rn : ℤ}
    (h : sendRest kernel postdata k rn = .ok rest) : rest.length ≤ rn.toNat := by
  induction hm : rn.toNat using Nat.strong_induction_on generalizing k rn rest with
  | _ m ih =>
    rw [sendRest] at h
    split at h
    · rename_i hn
      split at h
      · cases h
      · rename_i hle
        obtain ⟨rest', hrest', h⟩ := bind_eq_ok.mp h
        cases h
        have := ih _ (by omega) hrest' rfl
        rw [List.length_append, List.length_take]
        omega
    · cases h
      simp

/-- Whatever the sizes of its pieces, the loop sends all of its bytes. -/
theorem sendRest_of_accepting {kernel : ℕ → ℕ → Option ℕ} (hk : Accepting kernel)
    (postdata : Bytes) (k : ℕ) {rn : ℕ} (hle : rn ≤ postdata.length) (hlt : rn < 2 ^ 31) :
    sendRest kernel postdata k rn = .ok (postdata.drop (postdata.length - rn)) := by
  induction rn using Nat.strong_induction_on generalizing k with
  | _ rn ih =>
    have hsize : (rn : ℤ) < 2 ^ 64 := calc
      (rn : ℤ) < 2 ^ 31 := mod_cast hlt
      _ ≤ 2 ^ 64 := by decide
    have hcount : ((rn : ℤ) % 2 ^ 64).toNat = rn := by
      rw [Int.emod_eq_of_lt (Int.natCast_nonneg rn) hsize, Int.toNat_natCast]
    obtain ⟨n, hn, hkernel, hpos⟩ := hk k rn
    rw [sendRest, hcount, hkernel, Net.Outgoing.result_some (by omega)]
    by_cases h0 : 0 < rn
    · have hn0 := hpos h0
      have hsub : (rn : ℤ) - n = ((rn - n : ℕ) : ℤ) := by omega
      have hoffset : ((postdata.length : ℤ) - rn).toNat = postdata.length - rn := by omega
      have hnext : postdata.length - (rn - n) = postdata.length - rn + n := by omega
      rw [if_pos (by omega), if_neg (by omega), hsub, ih (rn - n) (by omega) _ (by omega) (by omega)]
      change Except.ok _ = Except.ok _
      rw [hoffset, Int.toNat_natCast, hnext, ← List.drop_drop, List.take_append_drop]
    · obtain rfl : rn = 0 := by omega
      obtain rfl : n = 0 := by omega
      simp

theorem toNat_bytes {x : ℤ} (h0 : 0 ≤ x) (hx : x ≤ 0xffff) :
    (UInt8.ofInt ((x >>> (8 : ℕ)) % 256)).toNat <<< 8 + (UInt8.ofInt (x % 256)).toNat = x.toNat := by
  have hbyte (y : ℤ) : (UInt8.ofInt (y % 256)).toNat = (y % 256).toNat := by
    have hlt := Int.emod_lt_of_pos y (show (0 : ℤ) < 256 by decide)
    simp [UInt8.ofInt, hlt]
  rw [hbyte, hbyte, Nat.shiftLeft_eq, Int.shiftRight_eq_div_pow]
  omega

theorem contentLength_makeHeader (c : PhpFastCgi) (type : UInt8) (request padding : ℤ) {n : ℕ}
    (hn : n ≤ maxLength) : (c.makeHeader type request n padding).contentLength = n :=
  toNat_bytes (Int.natCast_nonneg n) (Int.ofNat_le.mpr hn)

theorem requestId_makeHeader {c : PhpFastCgi} (h0 : 0 ≤ c.requestId) (hc : c.requestId ≤ 0xffff)
    (type : UInt8) (request contentlen padding : ℤ) :
    (c.makeHeader type request contentlen padding).requestId = c.requestId := by
  have h := toNat_bytes h0 hc
  change ((_ : ℕ) : ℤ) = _
  rw [Header.requestId, makeHeader, h, Int.toNat_of_nonneg h0]

/-- The record that `sendPost` sends for a content of a length that its header can hold. -/
def stdinRecord (c : PhpFastCgi) (content : Bytes) (h : content.length ≤ maxLength) : Record where
  header := c.makeHeader stdin c.requestId content.length 0
  content := content
  padding := []
  length_content := (c.contentLength_makeHeader stdin c.requestId 0 h).symm
  length_padding := rfl

theorem sendPost_of_le (c : PhpFastCgi) {kernel : ℕ → ℕ → Option ℕ} (hk : Accepting kernel)
    {postdata : Bytes} (h : postdata.length ≤ maxLength) :
    c.sendPost kernel postdata = .ok
      ([c.stdinRecord postdata h, c.stdinRecord [] (Nat.zero_le _)].flatMap Record.bytes) := by
  have hlt : postdata.length < 2 ^ 31 := by
    rw [maxLength] at h
    omega
  rw [sendPost, bmod_of_lt hlt, sendRest_of_accepting hk postdata 0 le_rfl hlt]
  change Except.ok _ = Except.ok _
  simp [stdinRecord, Record.bytes]

theorem stdinStream_pair {c : PhpFastCgi} (h0 : 0 ≤ c.requestId) (hc : c.requestId ≤ 0xffff)
    {postdata : Bytes} (h : postdata.length ≤ maxLength) :
    StdinStream c.requestId postdata
      [c.stdinRecord postdata h, c.stdinRecord [] (Nat.zero_le _)] where
  type := by simp [stdinRecord, makeHeader]
  requestId := by
    simp only [List.mem_cons, List.not_mem_nil, or_false, forall_eq_or_imp, forall_eq]
    have hid (content : Bytes) :=
      requestId_makeHeader h0 hc stdin c.requestId content.length 0
    exact ⟨hid postdata, hid []⟩
  content := by simp [stdinRecord]
  last := ⟨_, rfl, rfl⟩
  nonempty := by
    rintro (_ | ⟨r₁, _ | ⟨r₂, before⟩⟩) r after hs hr
    · simp
    · simp only [List.cons_append, List.nil_append, List.cons.injEq] at hs
      obtain ⟨-, rfl, -⟩ := hs
      exact absurd rfl hr
    · simp at hs

/-- Two headers leave room for one content, so a stream that `sendPost` sends has no more
bytes than one header can announce. -/
theorem length_le_of_stdinStream {c : PhpFastCgi} {kernel : ℕ → ℕ → Option ℕ}
    {postdata out : Bytes} {records : List Record} (hout : c.sendPost kernel postdata = .ok out)
    (hdec : decode out = some records) (hs : StdinStream c.requestId postdata records) :
    postdata.length ≤ maxLength := by
  obtain ⟨rest, hrest, hout⟩ := bind_eq_ok.mp hout
  cases hout
  have hle := length_sendRest hrest
  have hint : Int.bmod postdata.length (2 ^ 32) ≤ postdata.length := by
    rw [Int.bmod_def]
    omega
  have hroom := length_le_of_decode hdec
  rw [hs.content] at hroom
  simp only [List.length_append, Header.length_bytes, headerLen] at hroom
  obtain ⟨r, hlast, hr⟩ := hs.last
  obtain ⟨init, rfl⟩ := List.getLast?_eq_some_iff.mp hlast
  have hcontent := hs.content
  rw [List.flatMap_append, List.flatMap_singleton, hr, List.append_nil] at hcontent
  match init with
  | [] => simp [← hcontent]
  | [r₁] =>
    rw [List.flatMap_singleton] at hcontent
    rw [← hcontent, r₁.length_content]
    exact r₁.header.contentLength_le
  | r₁ :: r₂ :: init =>
    simp only [List.length_append, List.length_cons] at hroom
    omega

/-- The bytes of `sendPost` are the standard input of its request if and only if one record
can hold the post data and two bytes can hold the identifier of the request. -/
theorem stdinStream_sendPost_iff (c : PhpFastCgi) {kernel : ℕ → ℕ → Option ℕ}
    (hk : Accepting kernel) (postdata : Bytes) :
    (∃ out records, c.sendPost kernel postdata = .ok out ∧ decode out = some records ∧
      StdinStream c.requestId postdata records) ↔
      postdata.length ≤ maxLength ∧ 0 ≤ c.requestId ∧ c.requestId ≤ 0xffff := by
  constructor
  · rintro ⟨out, records, hout, hdec, hs⟩
    refine ⟨length_le_of_stdinStream hout hdec hs, ?_⟩
    obtain ⟨r, hlast, -⟩ := hs.last
    have hid := hs.requestId r (List.mem_of_getLast? hlast)
    have hle := r.header.requestId_le
    omega
  · rintro ⟨hlen, h0, hc⟩
    exact ⟨_, _, c.sendPost_of_le hk hlen, decode_flatMap_bytes _, stdinStream_pair h0 hc hlen⟩

/-- A kernel that takes up to two bytes at each call. -/
def twoAtATime (_ count : ℕ) : Option ℕ := some (min 2 count)

theorem accepting_twoAtATime : Accepting twoAtATime := by
  intro k count
  refine ⟨min 2 count, by omega, rfl, ?_⟩
  omega

theorem stdinStream_sendPost_iff_three :
    (∃ out records, sendPost ⟨1⟩ twoAtATime (ascii "a=b") = .ok out ∧
      decode out = some records ∧ StdinStream 1 (ascii "a=b") records) ↔
      (ascii "a=b").length ≤ maxLength ∧ (0 : ℤ) ≤ 1 ∧ (1 : ℤ) ≤ 0xffff :=
  stdinStream_sendPost_iff ⟨1⟩ accepting_twoAtATime (ascii "a=b")

/-- The header of 65536 bytes announces none. -/
theorem not_stdinStream_sendPost :
    ¬ ∀ (c : PhpFastCgi) (kernel : ℕ → ℕ → Option ℕ), Accepting kernel → ∀ postdata : Bytes,
      ∃ out records, c.sendPost kernel postdata = .ok out ∧ decode out = some records ∧
        StdinStream c.requestId postdata records := by
  intro h
  obtain ⟨out, records, hout, hdec, hs⟩ :=
    h ⟨1⟩ twoAtATime accepting_twoAtATime (List.replicate 65536 0)
  have hle := length_le_of_stdinStream hout hdec hs
  rw [List.length_replicate, maxLength] at hle
  omega

end Socnet.PhpFastCgi
