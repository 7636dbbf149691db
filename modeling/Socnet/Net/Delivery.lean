import Socnet.Net.Outgoing

namespace Socnet.Net.Delivery

variable {type : ChannelType} {S F : Bytes} {d : Delivery}

/-- The answer of a channel: what its sender holds, followed by the file that is mapped
or that `sendfile` reads, of which `sent` bytes have been read. -/
def Loaded (type : ChannelType) (o : Outgoing) (S F : Bytes) (sent : ℕ) : Prop :=
  o.sender.peek = S ∧
    (F ≠ [] ∧ o.mapped = some F ∨
      F ≠ [] ∧ type = .raw ∧ o.mapped = none ∧ o.sfileObj = some ⟨F.length, F.drop sent⟩ ∨
      F = [] ∧ o.mapped = none ∧ o.sending = none)

/-- A channel that has been reset and then filled. -/
def Fresh (type : ChannelType) (o : Outgoing) (S F : Bytes) : Prop :=
  Loaded type o S F 0 ∧ o.sendBytes = 0 ∧ o.remainBytes = 0 ∧ o.wsendBytes = 0

def start (o : Outgoing) : Delivery := ⟨o, [], false⟩

/-- What holds between the calls. `remain` is not set before the first one. -/
structure Sending (type : ChannelType) (S F : Bytes) (d : Delivery) : Prop where
  loaded : Loaded type d.channel S F (d.accepted.length - S.length)
  sent : d.channel.sendBytes = d.accepted.length
  accepted : d.accepted <+: S ++ F
  remain : S.length ≤ d.accepted.length →
    d.channel.remainBytes = (S ++ F).length - d.accepted.length
  flag : d.cflag = true ↔ d.accepted = S ++ F

theorem Fresh.sending {o : Outgoing} (hf : Fresh type o S F) (hS : S ≠ []) :
    Sending type S F (start o) where
  loaded := by
    rw [start, List.length_nil, Nat.zero_sub]
    exact hf.1
  sent := hf.2.1
  accepted := List.nil_prefix
  remain h := absurd (List.eq_nil_of_length_eq_zero (Nat.le_zero.mp h)) hS
  flag := by simp [start, hS]

/-- The offer continues what has been accepted, and `remain` counts what is left. -/
structure Continues (type : ChannelType) (S F : Bytes) (d : Delivery) (w : Offer) : Prop where
  bytes : w.bytes <+: (S ++ F).drop d.accepted.length
  sent : w.channel.sendBytes = d.accepted.length
  remain : w.channel.remainBytes = (S ++ F).length - d.accepted.length
  loaded : Loaded type w.channel S F (d.accepted.length - S.length)
  seam : w.sendFile = true → S.length ≤ d.accepted.length
  header : w.sendFile = false → w.channel.mapped = none →
    w.bytes.length + d.accepted.length ≤ S.length

theorem drop_append_of_lt {n : ℕ} (h : n < S.length) : (S ++ F).drop n = S.drop n ++ F :=
  List.drop_append_of_le_length h.le

theorem drop_append_of_ge {n : ℕ} (h : S.length ≤ n) : (S ++ F).drop n = F.drop (n - S.length) := by
  rw [List.drop_append, List.drop_eq_nil_of_le h, List.nil_append]

section Offer

variable (hs : Sending type S F d)

include hs in
theorem Sending.readable : d.channel.sender.readable = S.length := by
  rw [← Buffer.peek_length, hs.loaded.1]

include hs in
theorem Sending.unsent : d.channel.unsent = S.drop d.accepted.length := by
  rw [Outgoing.unsent, hs.loaded.1, hs.sent, Int.toNat_natCast]

include hs in
theorem Sending.unmapped : d.channel.unmapped F = F.drop (d.accepted.length - S.length) := by
  rw [Outgoing.unmapped, hs.readable, hs.sent, Int.toNat_natCast]

include hs in
theorem Sending.lt_iff :
    d.channel.sendBytes < d.channel.sender.readable ↔ d.accepted.length < S.length := by
  rw [hs.readable, hs.sent]
  exact Int.ofNat_lt

include hs in
theorem Sending.not_all (hc : d.cflag = false) : d.accepted.length < (S ++ F).length := by
  refine lt_of_le_of_ne hs.accepted.length_le fun heq ↦ ?_
  have := hs.flag.mpr (hs.accepted.eq_of_length heq)
  rw [hc] at this
  cases this

theorem sending_of_file {o : Outgoing} {n : ℕ} (hfile : o.sfileObj = some ⟨F.length, F.drop n⟩)
    (hF : F ≠ []) : o.sending = some ⟨F.length, F.drop n⟩ := by
  rw [Outgoing.sending, hfile]
  simp [hF]

/-- An offer out of the sender, with the mapping behind it or not. -/
theorem Sending.header_continues (hs : Sending type S F d) {w : Offer} {m : ℤ}
    (hlt : d.accepted.length < S.length) (hch : w.channel = { d.channel with
      remainBytes := m, wsendBytes := w.channel.wsendBytes })
    (hm : m = (S.drop d.accepted.length).length + F.length) (hsf : w.sendFile = false)
    (hbytes : w.bytes = S.drop d.accepted.length ∨
      d.channel.mapped = some F ∧ w.bytes = S.drop d.accepted.length ++ F) :
    Continues type S F d w where
  bytes := by
    rw [drop_append_of_lt hlt]
    rcases hbytes with hb | ⟨-, hb⟩
    · rw [hb]
      exact List.prefix_append _ _
    · rw [hb]
  sent := by
    rw [hch]
    exact hs.sent
  remain := by
    rw [hch, hm, List.length_drop, List.length_append]
    dsimp only
    omega
  loaded := by
    rw [hch]
    exact hs.loaded
  seam h := by
    rw [hsf] at h
    cases h
  header _ hn := by
    rw [hch] at hn
    rcases hbytes with hb | ⟨hmap, -⟩
    · rw [hb, List.length_drop]
      omega
    · change d.channel.mapped = none at hn
      rw [hmap] at hn
      cases hn

/-- An offer out of the file. -/
theorem Sending.file_continues (hs : Sending type S F d) {w : Offer}
    (hge : S.length ≤ d.accepted.length) (hch : w.channel = { d.channel with
      remainBytes := (S ++ F).length - d.accepted.length, wsendBytes := w.channel.wsendBytes })
    (hbytes : w.bytes = F.drop (d.accepted.length - S.length))
    (hmap : w.sendFile = false → d.channel.mapped = some F) :
    Continues type S F d w where
  bytes := by rw [drop_append_of_ge hge, hbytes]
  sent := by
    rw [hch]
    exact hs.sent
  remain := by rw [hch]
  loaded := by
    rw [hch]
    exact hs.loaded
  seam _ := hge
  header hsf hn := by
    rw [hch] at hn
    change d.channel.mapped = none at hn
    rw [hmap hsf] at hn
    cases hn

theorem Sending.rawOffer_continues (hs : Sending .raw S F d) (hc : d.cflag = false) :
    Continues .raw S F d d.channel.rawOffer := by
  have hall := hs.not_all hc
  rw [Outgoing.rawOffer]
  by_cases hlt : d.accepted.length < S.length
  · rw [if_pos (hs.lt_iff.mpr hlt), hs.unsent]
    rcases hs.loaded.2 with ⟨-, hmap⟩ | ⟨hF, -, hmap, hfile⟩ | ⟨rfl, hmap, hfile⟩
    · rw [hmap]
      exact hs.header_continues hlt rfl rfl rfl (.inr ⟨hmap, rfl⟩)
    · rw [hmap, sending_of_file hfile hF]
      exact hs.header_continues hlt rfl rfl rfl (.inl rfl)
    · rw [hmap, hfile]
      exact hs.header_continues hlt rfl (by simp) rfl (.inl rfl)
  · have hge := not_lt.mp hlt
    have hremain := hs.remain hge
    have hch : d.channel = { d.channel with
        remainBytes := (S ++ F).length - d.accepted.length } := by rw [← hremain]
    rw [if_neg (mt hs.lt_iff.mp hlt)]
    rcases hs.loaded.2 with ⟨-, hmap⟩ | ⟨hF, -, hmap, hfile⟩ | ⟨rfl, -, -⟩
    · rw [hmap]
      exact hs.file_continues hge hch hs.unmapped fun _ ↦ hmap
    · rw [hmap, sending_of_file hfile hF]
      refine hs.file_continues hge hch ?_ (by simp)
      exact List.take_of_length_le ((List.length_drop ..).trans_le (Nat.sub_le _ _))
    · rw [List.append_nil] at hall
      omega

theorem Sending.sslOffer_continues (hs : Sending .ssl S F d) (hc : d.cflag = false) :
    ∃ w, d.channel.sslOffer = .ok w ∧ Continues .ssl S F d w := by
  have hall := hs.not_all hc
  rw [Outgoing.sslOffer]
  by_cases hlt : d.accepted.length < S.length
  · rw [if_pos (hs.lt_iff.mpr hlt), hs.unsent]
    rcases hs.loaded.2 with ⟨-, hmap⟩ | ⟨-, htype, -⟩ | ⟨rfl, hmap, -⟩
    · rw [hmap]
      exact ⟨_, rfl, hs.header_continues hlt rfl rfl rfl (.inl rfl)⟩
    · cases htype
    · rw [hmap]
      exact ⟨_, rfl, hs.header_continues hlt rfl (by simp) rfl (.inl rfl)⟩
  · have hge := not_lt.mp hlt
    rw [if_neg (mt hs.lt_iff.mp hlt)]
    rcases hs.loaded.2 with ⟨-, hmap⟩ | ⟨-, htype, -⟩ | ⟨rfl, -, -⟩
    · rw [hmap]
      refine ⟨_, rfl, hs.file_continues hge ?_ hs.unmapped fun _ ↦ hmap⟩
      have hremain : (F.length - d.channel.sendBytes + d.channel.sender.readable : ℤ) =
          (S ++ F).length - d.accepted.length := by
        rw [hs.sent, hs.readable, List.length_append]
        omega
      rw [hremain]
    · cases htype
    · rw [List.append_nil] at hall
      omega

include hs in
theorem Sending.offer_continues (hc : d.cflag = false) :
    ∃ w, d.channel.offer type = .ok w ∧ Continues type S F d w := by
  cases type with
  | raw => exact ⟨_, rfl, hs.rawOffer_continues hc⟩
  | ssl => exact hs.sslOffer_continues hc

end Offer

theorem take_append_take {l offered : Bytes} {m n : ℕ} (ho : offered <+: l.drop m)
    (hn : n ≤ offered.length) : l.take m ++ offered.take n = l.take (m + n) := by
  obtain ⟨rest, hrest⟩ := ho
  rw [List.take_add, ← hrest, List.take_append_of_le_length hn]

theorem Loaded.congr {o o' : Outgoing} {sent : ℕ} (hl : Loaded type o S F sent)
    (hsender : o'.sender = o.sender) (hmap : o'.mmapObj = o.mmapObj)
    (hfile : o'.sfileObj = o.sfileObj) : Loaded type o' S F sent := by
  unfold Loaded Outgoing.mapped Outgoing.sending
  rw [hsender, hmap, hfile]
  exact hl

section Written

variable (w : Offer) (kernel : Option ℕ)

theorem sender_written : (w.written kernel).channel.sender = w.channel.sender := by
  simp only [Offer.written]
  split_ifs <;> rfl

theorem mmapObj_written : (w.written kernel).channel.mmapObj = w.channel.mmapObj := by
  simp only [Offer.written]
  split_ifs <;> rfl

theorem sfileObj_written : (w.written kernel).channel.sfileObj =
    if w.sendFile then w.channel.sfileObj.map fun f ↦
      { f with rest := f.rest.drop (w.accepted kernel).length }
    else w.channel.sfileObj := by
  simp only [Offer.written]
  split_ifs <;> rfl

theorem sendBytes_written : (w.written kernel).channel.sendBytes =
    if 0 ≤ Outgoing.result kernel then w.channel.sendBytes + Outgoing.result kernel
    else w.channel.sendBytes := by
  simp only [Offer.written]
  split_ifs <;> rfl

theorem remainBytes_written : (w.written kernel).channel.remainBytes =
    if 0 ≤ Outgoing.result kernel then w.channel.remainBytes - Outgoing.result kernel
    else w.channel.remainBytes := by
  simp only [Offer.written]
  split_ifs <;> rfl

theorem cflag_written :
    (w.written kernel).cflag = true ↔ (w.written kernel).channel.remainBytes ≤ 0 :=
  decide_eq_true_iff

end Written

section Step

variable {w : Offer} {n : ℕ} (hw : Continues type S F d w)

theorem length_accepted (hn : n ≤ w.bytes.length) : (w.accepted (some n)).length = n := by
  rw [Offer.accepted, List.length_take, Nat.min_eq_left hn]

include hw in
theorem Continues.loaded_failed :
    Loaded type (w.written none).channel S F (d.accepted.length - S.length) := by
  refine hw.loaded.congr (sender_written w none) (mmapObj_written w none) ?_
  rw [sfileObj_written]
  split_ifs
  · cases w.channel.sfileObj with
    | none => rfl
    | some f => rfl
  · rfl

include hw in
theorem Continues.loaded_accepted (hn : n ≤ w.bytes.length) :
    Loaded type (w.written (some n)).channel S F (d.accepted.length + n - S.length) := by
  obtain ⟨hpeek, hbody⟩ := hw.loaded
  have hmapped : (w.written (some n)).channel.mapped = w.channel.mapped := by
    rw [Outgoing.mapped, mmapObj_written, Outgoing.mapped]
  refine ⟨by rw [sender_written, hpeek], ?_⟩
  rw [hmapped, Outgoing.sending, sfileObj_written, length_accepted hn]
  rcases hbody with hbody | ⟨hF, htype, hmap, hfile⟩ | ⟨hF, hmap, hfile⟩
  · exact .inl hbody
  · refine .inr (.inl ⟨hF, htype, hmap, ?_⟩)
    rw [hfile]
    cases hsf : w.sendFile with
    | true =>
      -- the file is read from the seam on, and moves on by what has been taken
      have hseam := hw.seam hsf
      have hshift : d.accepted.length + n - S.length = d.accepted.length - S.length + n := by
        omega
      rw [if_pos rfl, hshift, ← List.drop_drop]
      rfl
    | false =>
      have hheader := hw.header hsf hmap
      have h₀ : d.accepted.length - S.length = 0 := by omega
      have h₁ : d.accepted.length + n - S.length = 0 := by omega
      rw [if_neg (by simp), h₀, h₁]
  · refine .inr (.inr ⟨hF, hmap, ?_⟩)
    rw [Outgoing.sending] at hfile
    split_ifs
    · cases hobj : w.channel.sfileObj with
      | none => rfl
      | some f =>
        rw [hobj] at hfile
        simpa [Option.filter_some] using hfile
    · exact hfile

include hw in
/-- A failed call leaves the counters as the offer has set them. -/
theorem Continues.failed (hs : Sending type S F d) (hc : d.cflag = false) :
    Sending type S F ⟨(w.written none).channel, d.accepted ++ w.accepted none,
      (w.written none).cflag⟩ := by
  have hall := hs.not_all hc
  have hneg : ¬ 0 ≤ Outgoing.result none := by decide
  have hremain : (w.written none).channel.remainBytes = (S ++ F).length - d.accepted.length := by
    rw [remainBytes_written, if_neg hneg, hw.remain]
  rw [Offer.accepted, List.append_nil]
  refine ⟨hw.loaded_failed, ?_, hs.accepted, fun _ ↦ hremain, ?_⟩
  · rw [sendBytes_written, if_neg hneg, hw.sent]
  · dsimp only
    rw [cflag_written, hremain]
    refine iff_of_false (by omega) fun heq ↦ ?_
    rw [heq] at hall
    exact hall.false

include hw in
theorem Continues.taken (hs : Sending type S F d) (hint : n < 2 ^ 31) (hn : n ≤ w.bytes.length) :
    Sending type S F ⟨(w.written (some n)).channel, d.accepted ++ w.accepted (some n),
      (w.written (some n)).cflag⟩ := by
  have hbound : d.accepted.length + n ≤ (S ++ F).length := by
    have h₁ := hw.bytes.length_le
    have h₂ := hs.accepted.length_le
    rw [List.length_drop] at h₁
    omega
  have hres := Outgoing.result_some hint
  have hpos : 0 ≤ Outgoing.result (some n) := by
    rw [hres]
    exact Int.natCast_nonneg n
  have hlength : (d.accepted ++ w.accepted (some n)).length = d.accepted.length + n := by
    rw [List.length_append, length_accepted hn]
  have haccepted : d.accepted ++ w.accepted (some n) = (S ++ F).take (d.accepted.length + n) := by
    rw [← take_append_take hw.bytes hn, ← List.prefix_iff_eq_take.mp hs.accepted]
    rfl
  have hremain : (w.written (some n)).channel.remainBytes =
      (S ++ F).length - (d.accepted.length + n : ℕ) := by
    rw [remainBytes_written, if_pos hpos, hw.remain, hres]
    omega
  refine ⟨?_, ?_, ?_, fun _ ↦ ?_, ?_⟩
  · dsimp only
    rw [hlength]
    exact hw.loaded_accepted hn
  · dsimp only
    rw [sendBytes_written, if_pos hpos, hw.sent, hres, hlength]
    omega
  · dsimp only
    rw [haccepted]
    exact List.take_prefix _ _
  · dsimp only
    rw [hremain, hlength]
  · dsimp only
    rw [cflag_written, hremain]
    constructor
    · intro hle
      rw [haccepted, List.take_of_length_le (by omega)]
    · intro heq
      have := congrArg List.length heq
      rw [hlength] at this
      omega

end Step

theorem Sending.step (hs : Sending type S F d) {kernel : Option ℕ}
    (hint : ∀ n ∈ kernel, ∀ w, d.channel.offer type = .ok w → n ≤ w.bytes.length → n < 2 ^ 31)
    (hk : Admissible type d kernel) :
    ∃ d', d.step type kernel = .ok d' ∧ Sending type S F d' := by
  obtain ⟨hc, haccept⟩ := hk
  obtain ⟨w, hoffer, hw⟩ := hs.offer_continues hc
  refine ⟨⟨(w.written kernel).channel, d.accepted ++ w.accepted kernel, (w.written kernel).cflag⟩,
    ?_, ?_⟩
  · simp only [Delivery.step, Outgoing.write, hoffer, bind, Except.bind]
    rfl
  · cases kernel with
    | none => exact hw.failed hs hc
    | some n =>
      have hn := (haccept n rfl).2 w hoffer
      exact hw.taken hs (hint n rfl w hoffer hn) hn

theorem Sending.step_short (hs : Sending type S F d) (hlen : (S ++ F).length < 2 ^ 31)
    {kernel : Option ℕ} (hk : Admissible type d kernel) :
    ∃ d', d.step type kernel = .ok d' ∧ Sending type S F d' := by
  refine hs.step (fun n _ w hoffer hn ↦ ?_) hk
  obtain ⟨w', hoffer', hw⟩ := hs.offer_continues hk.1
  rw [hoffer] at hoffer'
  cases hoffer'
  have := hw.bytes.length_le
  rw [List.length_drop] at this
  omega

theorem fresh_stream {o : Outgoing} (h₀ : o.sendBytes = 0 ∧ o.remainBytes = 0 ∧ o.wsendBytes = 0)
    (hmapped : ∀ data, o.mapped = some data → data ≠ [])
    (hfile : ∀ f, o.sfileObj = some f → f.rest.length = f.size)
    (hssl : type = .ssl → o.sfileObj = none) : Fresh type o o.sender.peek o.file := by
  refine ⟨⟨rfl, ?_⟩, h₀⟩
  rw [Outgoing.file]
  cases hm : o.mapped with
  | some data => exact .inl ⟨hmapped data hm, rfl⟩
  | none =>
    cases hobj : o.sfileObj with
    | none =>
      rw [Outgoing.sending, hobj]
      exact .inr (.inr ⟨rfl, rfl, rfl⟩)
    | some f =>
      have hlen := hfile f hobj
      have htype : type = .raw := by
        cases type with
        | raw => rfl
        | ssl => exact absurd (hssl rfl) (by simp [hobj])
      by_cases hz : f.size = 0
      · have hnone : o.sending = none := by
          rw [Outgoing.sending, hobj, Option.filter_some, if_neg (by simp [hz])]
        rw [hnone]
        exact .inr (.inr ⟨rfl, rfl, rfl⟩)
      · have hsome : o.sending = some f := by
          rw [Outgoing.sending, hobj, Option.filter_some, if_pos (by simp [hz])]
        rw [hsome]
        dsimp only
        rw [← hlen, List.take_length]
        refine .inr (.inl ⟨fun hnil ↦ hz ?_, htype, rfl, ?_⟩)
        · rw [← hlen, hnil, List.length_nil]
        · rw [hlen, List.drop_zero]

/-- Once the flag is raised, what the kernel has taken is the whole stream, whatever its
length, as long as no call takes more than an `int` counts. -/
theorem stream_delivered {o : Outgoing} (hf : Fresh type o o.sender.peek o.file)
    (hS : o.sender.peek ≠ []) (kernel : List (Option ℕ))
    (hk : Lib.Run.Throughout (step type)
      (fun d k ↦ d.Admissible type k ∧ ∀ n ∈ k, n < 2 ^ 31) (start o) kernel) :
    ∃ d, kernel.foldlM (step type) (start o) = .ok d ∧ d.accepted <+: o.stream ∧
      (d.cflag = true ↔ d.accepted = o.stream) := by
  obtain ⟨d, hrun, hs⟩ := hk.invariant
    (fun _ _ hs hk ↦ Sending.step hs (fun n hn _ _ _ ↦ hk.2 n hn) hk.1) (hf.sending hS)
  exact ⟨d, hrun, hs.accepted, hs.flag⟩

/-- Every sequence of results of the kernel leaves what it has taken at the start of
the answer, with the counter at its end and the flag raised with its last byte; so the
two kinds of channel send the same. -/
theorem write_delivers (S F : Bytes) (hS : S ≠ []) (hlen : (S ++ F).length < 2 ^ 31) :
    (∀ type o kernel, Fresh type o S F →
      Lib.Run.Throughout (step type) (Admissible type) (start o) kernel →
      ∃ d, kernel.foldlM (step type) (start o) = .ok d ∧
        d.accepted = (S ++ F).take d.channel.sendBytes.toNat ∧
        d.channel.sendBytes = d.accepted.length ∧
        (d.cflag = true ↔ d.accepted = S ++ F)) ∧
    ∀ o o' kernel kernel' d d', Fresh .raw o S F → Fresh .ssl o' S F →
      Lib.Run.Throughout (step .raw) (Admissible .raw) (start o) kernel →
      Lib.Run.Throughout (step .ssl) (Admissible .ssl) (start o') kernel' →
      kernel.foldlM (step .raw) (start o) = .ok d → kernel'.foldlM (step .ssl) (start o') = .ok d' →
      d.cflag = true → d'.cflag = true → d.accepted = d'.accepted := by
  have hrun (type : ChannelType) (o : Outgoing) (kernel : List (Option ℕ)) (hf : Fresh type o S F)
      (hk : Lib.Run.Throughout (step type) (Admissible type) (start o) kernel) :=
    hk.invariant (fun _ _ hs hk ↦ Sending.step_short hs hlen hk) (hf.sending hS)
  refine ⟨fun type o kernel hf hk ↦ ?_, fun o o' kernel kernel' d d' hf hf' hk hk' hd hd' hc hc' ↦ ?_⟩
  · obtain ⟨d, heq, hs⟩ := hrun type o kernel hf hk
    refine ⟨d, heq, ?_, hs.sent, hs.flag⟩
    rw [hs.sent, Int.toNat_natCast]
    exact List.prefix_iff_eq_take.mp hs.accepted
  · obtain ⟨d₁, heq₁, hs₁⟩ := hrun .raw o kernel hf hk
    obtain ⟨d₂, heq₂, hs₂⟩ := hrun .ssl o' kernel' hf' hk'
    rw [hd] at heq₁
    rw [hd'] at heq₂
    cases heq₁
    cases heq₂
    rw [hs₁.flag.mp hc, hs₂.flag.mp hc']

def smallFile : Outgoing where
  supportSendFile := true
  sender := (Buffer.init 4).append (ascii "head")
  mmapObj := none
  sfileObj := some ⟨2, ascii "ab"⟩
  sendBytes := 0
  remainBytes := 0
  wsendBytes := 0

theorem write_delivers_smallFile :
    ∃ d, [some 3, none, some 1, some 1, some 1].foldlM (step .raw) (start smallFile) = .ok d ∧
      d.accepted = (ascii "head" ++ ascii "ab").take d.channel.sendBytes.toNat := by
  have hfresh : Fresh .raw smallFile (ascii "head") (ascii "ab") := by
    refine ⟨⟨?_, .inr (.inl ⟨by decide, rfl, rfl, rfl⟩)⟩, rfl, rfl, rfl⟩
    rw [smallFile, Buffer.peek_append, Buffer.peek_init, List.nil_append]
  obtain ⟨d, hrun, haccepted, -⟩ := (write_delivers (ascii "head") (ascii "ab") (by decide)
    (by decide)).1 .raw smallFile [some 3, none, some 1, some 1, some 1] hfresh (by decide +kernel)
  exact ⟨d, hrun, haccepted⟩

/-- The loop of `TcpConnection::write`, by the counts of the calls that succeed, up to the
one that fails. The flag tells whether all has been sent. -/
def write (type : ChannelType) (d : Delivery) : List ℕ → Except Fault (Delivery × Bool)
  | [] => do
    let d ← d.step type none
    .ok (d, false)
  | n :: taken => do
    let d ← d.step type (some n)
    if Outgoing.result (some n) < 0 then .ok (d, false)
    else if d.cflag then .ok (d, true)
    else d.write type taken

theorem supportSendFile_offer {o : Outgoing} {w : Offer} (h : o.offer type = .ok w) :
    w.channel.supportSendFile = o.supportSendFile := by
  cases type with
  | raw =>
    cases h
    rw [Outgoing.rawOffer]
    split_ifs
    · cases o.mapped with
      | some data => rfl
      | none =>
        cases o.sending with
        | some f => rfl
        | none => rfl
    · cases o.mapped with
      | some data => rfl
      | none =>
        cases o.sending with
        | some f => rfl
        | none => rfl
  | ssl =>
    rw [Outgoing.offer, Outgoing.sslOffer] at h
    by_cases hlt : o.sendBytes < o.sender.readable
    · rw [if_pos hlt] at h
      cases hm : o.mapped with
      | some data =>
        simp only [hm] at h
        cases h
        rfl
      | none =>
        simp only [hm] at h
        cases h
        rfl
    · rw [if_neg hlt] at h
      cases hm : o.mapped with
      | some data =>
        simp only [hm] at h
        cases h
        rfl
      | none =>
        simp only [hm] at h
        split_ifs at h
        cases h
        rfl

theorem supportSendFile_step {d' : Delivery} {kernel : Option ℕ} (h : d.step type kernel = .ok d') :
    d'.channel.supportSendFile = d.channel.supportSendFile := by
  obtain ⟨w, hw, h⟩ := bind_eq_ok.mp h
  obtain ⟨o, ho, hw⟩ := bind_eq_ok.mp hw
  cases hw
  cases h
  refine Eq.trans ?_ (supportSendFile_offer ho)
  simp only [Offer.written]
  split_ifs <;> rfl

/-- The loop goes on with the answer, and stops where the flag says that all of it has
been sent. -/
theorem Sending.write (hs : Sending type S F d) (hc : d.cflag = false) {taken : List ℕ}
    (hk : Lib.Run.Throughout (Delivery.step type)
      (fun d k ↦ d.Admissible type k ∧ ∀ n ∈ k, n < 2 ^ 31) d (taken.map some)) :
    ∃ d', d.write type taken = .ok (d', d'.cflag) ∧ Sending type S F d' ∧
      d'.channel.supportSendFile = d.channel.supportSendFile := by
  induction taken generalizing d with
  | nil =>
    have hadmits : Admissible type d none := ⟨hc, nofun⟩
    obtain ⟨d', hstep, hs'⟩ := hs.step (by nofun) hadmits
    have haccepted : d'.accepted = d.accepted := by
      obtain ⟨w, hw, hd'⟩ := bind_eq_ok.mp hstep
      obtain ⟨o, -, hw⟩ := bind_eq_ok.mp hw
      cases hw
      cases hd'
      exact List.append_nil _
    have hflag : d'.cflag = false := by
      rw [← Bool.not_eq_true, hs'.flag, haccepted, ← hs.flag, hc]
      exact Bool.false_ne_true
    refine ⟨d', ?_, hs', supportSendFile_step hstep⟩
    rw [Delivery.write, hstep, hflag]
    rfl
  | cons n taken ih =>
    obtain ⟨⟨hadmits, hint⟩, hrest⟩ := hk
    obtain ⟨d₁, hstep, hs₁⟩ := hs.step (fun n hn _ _ _ ↦ hint n hn) hadmits
    have hresult : ¬ Outgoing.result (some n) < 0 := by
      rw [Outgoing.result_some (hint n rfl)]
      exact Int.not_lt.mpr (Int.natCast_nonneg n)
    have hsupport := supportSendFile_step hstep
    cases hc₁ : d₁.cflag with
    | true =>
      refine ⟨d₁, ?_, hs₁, hsupport⟩
      simp [Delivery.write, hstep, hresult, hc₁, bind, Except.bind]
    | false =>
      obtain ⟨d', hwrite, hs', hsupport'⟩ := ih hs₁ hc₁ (hrest d₁ hstep)
      refine ⟨d', ?_, hs', hsupport'.trans hsupport⟩
      rw [← hwrite]
      simp [Delivery.write, hstep, hresult, hc₁, bind, Except.bind]

end Socnet.Net.Delivery
