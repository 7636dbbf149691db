import Socnet.Libjson.Layout
import Socnet.Libjson.TokenContent

namespace Socnet.Libjson

open JsonLexer

variable {F : Type} {toDouble : Bytes → F}

section Cut

variable (toDouble)

/-- However `text` is cut off, at most `n` tokens of content are left of it. -/
def Counts (text : Bytes) (n : ℕ) : Prop :=
  ∀ m ks, getTokens toDouble true (text.take m) = .ok ks → (content ks).length ≤ n

/-- When `text` is cut off and all of its content is left, then half of it is left, up to
the digits of its last number. The credit counts towards what follows `text`. -/
structure Cuts (text : Bytes) (n credit : ℕ) : Prop where
  counts : Counts toDouble text n
  length_le : ∀ m ks, getTokens toDouble true (text.take m) = .ok ks → (content ks).length = n →
    text.length + credit ≤ 2 * m + 11

end Cut

section Compose

variable {Y Z : Bytes} {ts : List (Token F)} {n credit : ℕ}

/-- A text of two parts is cut off in the first or in the second. -/
theorem take_cases (Y Z : Bytes) (m : ℕ) :
    m ≤ Y.length ∧ (Y ++ Z).take m = Y.take m ∨
      Y.length ≤ m ∧ (Y ++ Z).take m = Y ++ Z.take (m - Y.length) := by
  obtain h | h := Nat.le_total m Y.length
  · exact .inl ⟨h, List.take_append_of_le_length h⟩
  · refine .inr ⟨h, ?_⟩
    rw [List.take_append, List.take_of_length_le h]

theorem content_of_reads {rest : Bytes} (hr : Reads toDouble Y ts rest) {ks : List (Token F)}
    (h : getTokens toDouble true (Y ++ rest) = .ok ks) :
    ∃ ks', getTokens toDouble true rest = .ok ks' ∧ content ks = content ts ++ content ks' := by
  rw [hr] at h
  obtain ⟨ks', hks', rfl⟩ := prepend_eq_ok h
  exact ⟨ks', hks', content_append ts ks'⟩

theorem Counts.append (hY : Counts toDouble Y (content ts).length)
    (hr : ∀ j, Reads toDouble Y ts (Z.take j)) (hZ : Counts toDouble Z n) :
    Counts toDouble (Y ++ Z) ((content ts).length + n) := by
  intro m ks h
  obtain ⟨-, hm⟩ | ⟨-, hm⟩ := take_cases Y Z m
  · rw [hm] at h
    exact (hY m ks h).trans (Nat.le_add_right _ _)
  · rw [hm] at h
    obtain ⟨ks', hks', hc⟩ := content_of_reads (hr _) h
    rw [hc, List.length_append]
    exact Nat.add_le_add_left (hZ _ ks' hks') _

/-- In front of more content, all of a text is credit. -/
theorem Cuts.append (hY : Counts toDouble Y (content ts).length)
    (hr : ∀ j, Reads toDouble Y ts (Z.take j)) (hZ : Cuts toDouble Z n credit) (hn : 0 < n) :
    Cuts toDouble (Y ++ Z) ((content ts).length + n) (credit + Y.length) where
  counts := hY.append hr hZ.counts
  length_le := by
    intro m ks h hk
    obtain ⟨-, hm⟩ | ⟨hle, hm⟩ := take_cases Y Z m
    · rw [hm] at h
      have := hY m ks h
      omega
    · rw [hm] at h
      obtain ⟨ks', hks', hc⟩ := content_of_reads (hr _) h
      rw [hc, List.length_append] at hk
      have := hZ.length_le _ ks' hks' (by omega)
      rw [List.length_append]
      omega

/-- A text with no content takes its length from the credit. -/
theorem Cuts.append_silent (hY : Cuts toDouble Y (content ts).length (credit + Z.length))
    (hr : ∀ j, Reads toDouble Y ts (Z.take j)) (hZ : Counts toDouble Z 0) :
    Cuts toDouble (Y ++ Z) (content ts).length credit where
  counts := hY.counts.append hr hZ
  length_le := by
    intro m ks h hk
    obtain ⟨-, hm⟩ | ⟨hle, hm⟩ := take_cases Y Z m
    · rw [hm] at h
      have := hY.length_le m ks h hk
      rw [List.length_append]
      omega
    · have hall : getTokens toDouble true (Y.take Y.length) = .ok ts := by
        rw [List.take_length]
        exact getTokens_of_reads (hr 0)
      have := hY.length_le Y.length ts hall rfl
      rw [List.length_append]
      omega

theorem Cuts.of_le {credit' : ℕ} (h : Cuts toDouble Y n credit) (hle : credit' ≤ credit) :
    Cuts toDouble Y n credit' :=
  ⟨h.counts, fun m ks hks hk ↦ (Nat.add_le_add_left hle _).trans (h.length_le m ks hks hk)⟩

/-- A token that is lost when any of its bytes is. -/
theorem Cuts.of_token {t : Token F} (ht : t.isContent = true) (hr : Reads toDouble Y [t] [])
    (hcut : ∀ m < Y.length, ∀ ks, getTokens toDouble true (Y.take m) = .ok ks → ks = [])
    (hcredit : credit ≤ 11) : Cuts toDouble Y 1 credit := by
  have hone : (content [t]).length = 1 := by simp [content, ht]
  have hcases {m : ℕ} {ks : List (Token F)} (h : getTokens toDouble true (Y.take m) = .ok ks) :
      ks = [] ∨ ks = [t] ∧ Y.length ≤ m := by
    obtain hm | hm := Nat.lt_or_ge m Y.length
    · exact .inl (hcut m hm ks h)
    · rw [List.take_of_length_le hm, getTokens_of_reads hr] at h
      exact .inr ⟨(Except.ok.inj h).symm, hm⟩
  constructor
  · intro m ks h
    obtain rfl | ⟨rfl, -⟩ := hcases h
    · exact Nat.zero_le _
    · exact hone.le
  · intro m ks h hk
    obtain rfl | ⟨-, hm⟩ := hcases h
    · cases hk
    · omega

variable (toDouble) in
/-- The tokens of a text that may be cut off. -/
def Lexes (text : Bytes) (ks : List (Token F)) : Prop :=
  ∃ m, getTokens toDouble true (text.take m) = .ok ks

/-- Behind content that is known, the content that is left comes from the text that is
left. -/
theorem Lexes.rest (hY : Counts toDouble Y (content ts).length)
    (hr : ∀ j, Reads toDouble Y ts (Z.take j)) {ks cs : List (Token F)}
    (h : Lexes toDouble (Y ++ Z) ks) (hp : content ts ++ cs <+: content ks) :
    ∃ ks', Lexes toDouble Z ks' ∧ cs <+: content ks' := by
  obtain ⟨m, h⟩ := h
  obtain ⟨-, hm⟩ | ⟨-, hm⟩ := take_cases Y Z m
  · rw [hm] at h
    have hle := hY m ks h
    have hlen := hp.length_le
    rw [List.length_append] at hlen
    obtain rfl : cs = [] := List.length_eq_zero_iff.mp (by omega)
    exact ⟨[], ⟨0, getTokens_empty _ _⟩, List.nil_prefix⟩
  · rw [hm] at h
    obtain ⟨ks', hks', hc⟩ := content_of_reads (hr _) h
    rw [hc] at hp
    exact ⟨ks', ⟨_, hks'⟩, (List.prefix_append_right_inj _).mp hp⟩

end Compose

section Pieces

theorem getTokens_take_zero {text : Bytes} {ks : List (Token F)}
    (h : getTokens toDouble true (text.take 0) = .ok ks) : ks = [] := by
  rw [List.take_zero, getTokens_empty] at h
  exact (Except.ok.inj h).symm

theorem reads_white {w : Bytes} (hw : ∀ c ∈ w, isWhite c = true) (rest : Bytes) :
    Reads toDouble w [] rest := by
  rw [Reads, getTokens_white hw, prepend_nil]

theorem counts_white {w : Bytes} (hw : ∀ c ∈ w, isWhite c = true) : Counts toDouble w 0 := by
  intro m ks h
  have hw' : ∀ c ∈ w.take m, isWhite c = true := fun c hc ↦ hw c (List.mem_of_mem_take hc)
  rw [getTokens_of_reads (reads_white hw' [])] at h
  cases h
  exact le_rfl

/-- A punctuation mark and white space behind it. -/
theorem reads_mark {c : UInt8} {t : Token F} (hc : (c, t) ∈ punctuation) {w : Bytes}
    (hw : ∀ c ∈ w, isWhite c = true) (rest : Bytes) : Reads toDouble (c :: w) [t] rest := by
  rw [Reads, List.cons_append, getTokens_punctuation hc, getTokens_white hw]

theorem counts_mark {c : UInt8} {t : Token F} (hc : (c, t) ∈ punctuation) {w : Bytes}
    (hw : ∀ c ∈ w, isWhite c = true) : Counts toDouble (c :: w) (content [t]).length := by
  intro m ks h
  cases m with
  | zero =>
    rw [getTokens_take_zero h]
    exact Nat.zero_le _
  | succ m =>
    have hw' : ∀ c ∈ w.take m, isWhite c = true := fun c hc ↦ hw c (List.mem_of_mem_take hc)
    have hr : Reads toDouble (c :: w.take m) [t] [] := reads_mark hc hw' []
    rw [List.take_succ_cons, getTokens_of_reads hr] at h
    cases h
    exact le_rfl

/-- What a string is read as does not depend on what follows it. -/
theorem scanString_append {text raw rest : Bytes} (h : scanString text = .ok (raw, rest))
    (more : Bytes) : scanString (text ++ more) = .ok (raw, rest ++ more) := by
  fun_induction scanString text generalizing raw with
  | case1 => cases h
  | case2 =>
    cases h
    rw [List.cons_append, scanString.eq_def]
    simp
  | case3 => cases h
  | case4 e tail he hq ih =>
    obtain ⟨⟨s', r⟩, hs, h⟩ := bind_eq_ok.mp h
    cases h
    rw [List.cons_append, List.cons_append, scanString.eq_def]
    simp [hq, he, ih hs, bind, Except.bind]
  | case5 => cases h
  | case6 c tail hq hb ih =>
    obtain ⟨⟨s', r⟩, hs, h⟩ := bind_eq_ok.mp h
    cases h
    rw [List.cons_append, scanString.eq_def]
    simp [hq, hb, ih hs, bind, Except.bind]

/-- A string is not read without its closing quote. -/
theorem cuts_quoted {raw s : Bytes} (h : Spells raw s) : Cuts toDouble (quoted raw) 1 0 := by
  refine .of_token (t := .scalar (.string s)) rfl (getTokens_quoted h) (fun m hm ks hks ↦ ?_)
    (Nat.zero_le _)
  cases m with
  | zero => exact getTokens_take_zero hks
  | succ m =>
    rw [quoted, List.take_succ_cons, getTokens_analysis rfl, analysis, if_pos rfl] at hks
    obtain ⟨x, hx, -⟩ := bind_eq_ok.mp hks
    obtain ⟨⟨raw', rest⟩, hscan, -⟩ := bind_eq_ok.mp hx
    have hfull := scanString_append hscan ((raw ++ [quote]).drop m)
    rw [List.take_append_drop, h.1 []] at hfull
    have hlen := congrArg List.length (Prod.ext_iff.mp (Except.ok.inj hfull)).2
    simp only [quoted, List.length_cons, List.length_append, List.length_drop, List.length_nil]
      at hlen hm
    omega

/-- A sign or digit with digits behind it is one token at most. -/
theorem length_of_digits {c : UInt8} {digits : Bytes} (hc : isNumber c || isSign c)
    (hd : ∀ x ∈ digits, isNumber x = true) {ks : List (Token F)}
    (h : getTokens toDouble true (c :: digits) = .ok ks) : ks.length ≤ 1 := by
  obtain ⟨hw, ha⟩ : _ ∧ analysis toDouble true c digits = _ := analysis_number hc digits
  have hnone : (digits ++ []).dropWhile isNumber = [] := List.dropWhile_append_of_pos hd
  rw [List.append_nil] at hnone
  rw [getTokens_analysis hw, ha] at h
  obtain ⟨x, hx, h⟩ := bind_eq_ok.mp h
  obtain ⟨⟨value, rest⟩, hvalue, hx⟩ := bind_eq_ok.mp hx
  cases hx
  obtain rfl : rest = [] := by
    unfold scanNumber at hvalue
    split_ifs at hvalue
    simp only [hnone] at hvalue
    obtain ⟨n, -, hvalue⟩ := bind_eq_ok.mp hvalue
    cases hvalue
    rfl
  rw [getTokens_empty] at h
  cases h
  exact le_rfl

theorem intText_eq_cons (n : ℤ) : ∃ c digits, intText n = c :: digits ∧
    (isNumber c || isSign c) ∧ ∀ x ∈ digits, isNumber x = true := by
  unfold intText
  split_ifs
  · exact ⟨'-'.toUInt8, natText n.natAbs, rfl, by decide, fun x hx ↦ isNumber_of_mem_natText hx⟩
  · obtain ⟨c, s, hs, hc, -⟩ := natText_eq_cons n.natAbs
    refine ⟨c, s, hs, by rw [hc]; rfl, fun x hx ↦ ?_⟩
    exact isNumber_of_mem_natText (n := n.natAbs) (by rw [hs]; exact .tail c hx)

theorem intText_length {n : ℤ} (hn : -2147483648 ≤ n ∧ n ≤ 2147483647) :
    (intText n).length ≤ 11 := by
  have habs : (natText n.natAbs).length ≤ 10 := natText_length (by decide) (by omega)
  unfold intText
  split_ifs
  · rw [List.length_append]
    exact Nat.add_le_add_left habs 1
  · omega

theorem cuts_intText {n : ℤ} (hn : -2147483648 ≤ n ∧ n ≤ 2147483647) :
    Cuts toDouble (intText n) 1 0 where
  counts := by
    intro m ks h
    refine (List.length_filter_le _ _).trans ?_
    obtain ⟨c, digits, heq, hc, hd⟩ := intText_eq_cons n
    rw [heq] at h
    cases m with
    | zero =>
      rw [getTokens_take_zero h]
      exact Nat.zero_le _
    | succ m => exact length_of_digits hc (fun x hx ↦ hd x (List.mem_of_mem_take hx)) h
  length_le := by
    intro m ks _ _
    have := intText_length hn
    omega

theorem cuts_identifier {c : UInt8} {word : String} {value : Scalar F}
    (hc : isWhite c = false)
    (ha : ∀ text, analysis toDouble true c text = scanIdentifier word value text) :
    Cuts toDouble (c :: ascii word) 1 0 := by
  refine .of_token (t := .scalar value) rfl (getTokens_identifier hc ha) (fun m hm ks hks ↦ ?_)
    (Nat.zero_le _)
  cases m with
  | zero => exact getTokens_take_zero hks
  | succ m =>
    rw [List.take_succ_cons, getTokens_analysis hc, ha, scanIdentifier] at hks
    have hno : ¬ ascii word <+: (ascii word).take m := by
      intro hp
      have hlen := hp.length_le
      rw [List.length_take] at hlen
      simp only [List.length_cons] at hm
      omega
    simp only [if_neg hno] at hks
    cases hks

end Pieces

section Tree

theorem Follows.take {rest : Bytes} (h : Follows rest) (j : ℕ) : Follows (rest.take j) := by
  intro c hc
  cases rest with
  | nil => simp at hc
  | cons d rest =>
    cases j with
    | zero => simp at hc
    | succ j => exact h c hc

theorem Follows.append {text rest : Bytes} (h : Follows text) (hr : Follows rest) :
    Follows (text ++ rest) := by
  cases text with
  | nil => exact hr
  | cons c text => exact h

variable (L : Layout) {spell : Bytes → Bytes}

/-- The line in front of a closing bracket is no longer than the one behind the opening
bracket, which pays for it. -/
theorem cuts_container {open_ close : UInt8} {begin_ end_ : Token F}
    (ho : (open_, begin_) ∈ punctuation) (hc : (close, end_) ∈ punctuation)
    (hb : begin_.isContent = true) (he : end_.isContent = false)
    (hf : Follows [close]) {empty : Bool} {text : Bytes} {tokens : List (Token F)} {d : ℕ}
    (hempty : empty = true → tokens = [])
    (hr : ∀ rest, Follows rest → Reads toDouble text tokens rest)
    (ht : empty = false → Cuts toDouble text (content tokens).length 0)
    (hpos : empty = false → 0 < (content tokens).length) :
    Cuts toDouble ([open_] ++ (if empty then []
      else L.newline d ++ text ++ L.newline (d - 1)) ++ [close])
      (content (begin_ :: (tokens ++ [end_]))).length 0 := by
  have hw (c : UInt8) (hc : c ∈ ([] : Bytes)) : isWhite c = true := absurd hc List.not_mem_nil
  have hclose : Counts toDouble [close] 0 := by
    have h : Counts toDouble [close] (content [end_]).length := counts_mark hc hw
    rwa [show content [end_] = [] by simp [content, he]] at h
  have hone : (content [begin_]).length = 1 := by simp [content, hb]
  rw [content_container hb he, List.length_cons]
  cases empty with
  | true =>
    have hbegin : Cuts toDouble [open_] (content [begin_]).length (0 + [close].length) := by
      rw [hone]
      refine .of_token hb (reads_mark ho hw []) (fun m hm ks hks ↦ ?_) (by simp)
      obtain rfl : m = 0 := Nat.lt_one_iff.mp hm
      exact getTokens_take_zero hks
    have h := hbegin.append_silent (fun j ↦ reads_mark ho hw _) hclose
    rw [hempty rfl, if_pos rfl, List.append_nil]
    rwa [hone] at h
  | false =>
    have hline := L.newline_white d
    have hlast := L.newline_white (d - 1)
    have hbegin : Cuts toDouble ((open_ :: L.newline d) ++ text)
        ((content [begin_]).length + (content tokens).length) (0 + (open_ :: L.newline d).length) :=
      .append (counts_mark ho hline) (fun j ↦ reads_mark ho hline _) (ht rfl) (hpos rfl)
    rw [← List.length_append, ← content_append] at hbegin
    have hcredit : Cuts toDouble ((open_ :: L.newline d) ++ text)
        (content ([begin_] ++ tokens)).length (0 + (L.newline (d - 1) ++ [close]).length) := by
      refine hbegin.of_le ?_
      simpa using L.newline_le d
    have hreads (rest : Bytes) (hf : Follows rest) :
        Reads toDouble ((open_ :: L.newline d) ++ text) ([begin_] ++ tokens) rest :=
      .append (reads_mark ho hline _) (hr rest hf)
    have hend : Follows (L.newline (d - 1) ++ [close]) := follows_white hlast hf
    have hwhite : Counts toDouble (L.newline (d - 1)) (content ([] : List (Token F))).length :=
      counts_white hlast
    have hsilent : Counts toDouble (L.newline (d - 1) ++ [close]) 0 :=
      hwhite.append (fun j ↦ reads_white hlast _) hclose
    have h := hcredit.append_silent (fun j ↦ hreads _ (hend.take j)) hsilent
    rw [content_append, List.length_append, hone, Nat.add_comm] at h
    simpa using h

/-- A value and the rest of its container. -/
theorem cuts_tail {value text : Bytes} {vs tokens : List (Token F)} (empty : Bool) (d : ℕ)
    (hr : ∀ rest, Follows rest → Reads toDouble value vs rest)
    (hv : Cuts toDouble value (content vs).length 0)
    (ht : empty = false → Cuts toDouble text (content tokens).length 0)
    (hpos : empty = false → 0 < (content tokens).length) :
    Cuts toDouble (value ++ if empty then [] else ascii "," ++ L.newline d ++ text)
      (content (vs ++ if empty then [] else .sep :: tokens)).length 0 := by
  cases empty with
  | true => simpa using hv
  | false =>
    have hline := L.newline_white d
    have hmark : Counts toDouble (','.toUInt8 :: L.newline d) _ := counts_mark comma_mem hline
    have hrest : Cuts toDouble ((','.toUInt8 :: L.newline d) ++ text)
        ((content [(.sep : Token F)]).length + (content tokens).length) _ :=
      .append hmark (fun j ↦ reads_mark comma_mem hline _) (ht rfl) (hpos rfl)
    have hf : Follows ((','.toUInt8 :: L.newline d) ++ text) := follows_cons (by decide)
    have h := Cuts.append hv.counts (fun j ↦ hr _ (hf.take j)) hrest (Nat.add_pos_right _ (hpos rfl))
    rw [← List.length_append, ← content_append, ← List.length_append, ← content_append] at h
    exact h.of_le (Nat.zero_le _)

mutual

/-- A cut that leaves all content of a tree leaves about half of its text. -/
theorem Json.cuts_text (v : Json F) (hv : v.Plain)
    (hs : ∀ s ∈ v.strings, Spells (spell s) s) (d : ℕ) :
    Cuts toDouble (v.text L spell d) (content v.tokens).length 0 := by
  cases v with
  | object members =>
    have hv : members.Plain := by simpa [Json.Plain] using hv
    rw [Json.text, Json.tokens]
    exact cuts_container L objectBegin_mem objectEnd_mem rfl rfl (follows_cons (by decide))
      members.tokens_of_empty (fun _ hf ↦ Members.getTokens_text L members hv hs d hf)
      (fun he ↦ Members.cuts_text members hv hs d he) (fun he ↦ Members.content_pos he)
  | array elements =>
    have hv : elements.Plain := by simpa [Json.Plain] using hv
    rw [Json.text, Json.tokens]
    exact cuts_container L arrayBegin_mem arrayEnd_mem rfl rfl (follows_cons (by decide))
      elements.tokens_of_empty (fun _ hf ↦ Elements.getTokens_text L elements hv hs d hf)
      (fun he ↦ Elements.cuts_text elements hv hs d he) (fun he ↦ Elements.content_pos hv he)
  | string s => exact cuts_quoted (hs s.value (.head []))
  | number n => exact cuts_intText hv
  | boolean b =>
    cases b with
    | true => exact cuts_identifier (c := 't'.toUInt8) rfl fun _ ↦ rfl
    | false => exact cuts_identifier (c := 'f'.toUInt8) rfl fun _ ↦ rfl
  | null => exact cuts_identifier (c := 'n'.toUInt8) rfl fun _ ↦ rfl
  | float x => exact hv.elim
  | nullptr => exact hv.elim

theorem Members.cuts_text (m : Members F) (hm : m.Plain)
    (hs : ∀ s ∈ m.strings, Spells (spell s) s) (d : ℕ) (hne : m.empty = false) :
    Cuts toDouble (m.text L spell d) (content m.tokens).length 0 := by
  cases m with
  | nil => cases hne
  | cons key value members =>
    simp only [Members.strings, List.mem_cons, List.mem_append] at hs
    have hkey := hs key.value (.inl rfl)
    have hvs := fun s h ↦ hs s (.inr (.inl h))
    have hms := fun s h ↦ hs s (.inr (.inr h))
    have hvalue := cuts_tail L members.empty d
      (fun _ hf ↦ Json.getTokens_text L value hm.2.1 hvs (d + 1) hf)
      (Json.cuts_text value hm.2.1 hvs (d + 1))
      (fun he ↦ Members.cuts_text members hm.2.2 hms d he)
      (fun he ↦ Members.content_pos he)
    have hpos := Json.content_pos hm.2.1
    have hmark : Counts toDouble (':'.toUInt8 :: L.gap) _ := counts_mark colon_mem L.gap_white
    have hpair := Cuts.append hmark (fun j ↦ reads_mark colon_mem L.gap_white _) hvalue (by
      rw [content_append, List.length_append]
      exact Nat.add_pos_left hpos _)
    have hstring : Counts toDouble (quoted (spell key.value))
        (content [(.scalar (.string key.value) : Token F)]).length := (cuts_quoted hkey).counts
    have h := Cuts.append hstring (fun j ↦ getTokens_quoted hkey) hpair (by
      rw [content_append, List.length_append]
      omega)
    rw [← List.length_append, ← content_append, ← List.length_append, ← content_append] at h
    rw [Members.text, List.append_assoc, List.append_assoc]
    exact h.of_le (Nat.zero_le _)

theorem Elements.cuts_text (e : Elements F) (he : e.Plain)
    (hs : ∀ s ∈ e.strings, Spells (spell s) s) (d : ℕ) (hne : e.empty = false) :
    Cuts toDouble (e.text L spell d) (content e.tokens).length 0 := by
  cases e with
  | nil => cases hne
  | cons value elements =>
    simp only [Elements.strings, List.mem_append] at hs
    have hvs := fun s h ↦ hs s (.inl h)
    have hes := fun s h ↦ hs s (.inr h)
    exact cuts_tail L elements.empty d
      (fun _ hf ↦ Json.getTokens_text L value he.1 hvs (d + 1) hf)
      (Json.cuts_text value he.1 hvs (d + 1))
      (fun h ↦ Elements.cuts_text elements he.2 hes d h)
      (fun h ↦ Elements.content_pos he.2 h)

end

end Tree

end Socnet.Libjson
