import Socnet.Libjson.RawStrings
import Socnet.Libjson.Truncation

namespace Socnet.Libjson

open Utility.EncodeUtil JsonLexer

variable {F : Type} {toDouble : Bytes → F}

section Outside

theorem Outside.nil : Outside [] := ⟨[], [], rfl, by simp [Clean], .inl rfl⟩

theorem Outside.string (rest : Bytes) : Outside (quote :: rest) :=
  ⟨[], quote :: rest, rfl, by simp [Clean], .inr rfl⟩

theorem Outside.append {w rest : Bytes} (hw : Clean w) (h : Outside rest) : Outside (w ++ rest) := by
  obtain ⟨u, v, rfl, hu, hv⟩ := h
  refine ⟨w ++ u, v, by simp, ?_, hv⟩
  simp only [Clean, List.mem_append, not_or] at hw hu ⊢
  exact ⟨⟨hw.1, hu.1⟩, hw.2, hu.2⟩

theorem clean_of_white {w : Bytes} (hw : ∀ c ∈ w, isWhite c = true) : Clean w := by
  refine ⟨fun hc ↦ ?_, fun hc ↦ ?_⟩
  · have := hw _ hc
    revert this
    decide
  · have := hw _ hc
    revert this
    decide

theorem clean_of_ascii {s : String} (h : (ascii s).all fun c ↦ c ≠ quote && c ≠ backslash) :
    Clean (ascii s) := by
  simp only [List.all_eq_true, Bool.and_eq_true, decide_eq_true_eq] at h
  exact ⟨fun hq ↦ (h _ hq).1 rfl, fun hb ↦ (h _ hb).2 rfl⟩

theorem clean_intText (n : ℤ) : Clean (intText n) := by
  have hdigits {c : UInt8} (hc : c ∈ intText n) : isNumber c || c = '-'.toUInt8 := by
    unfold intText at hc
    split_ifs at hc
    · cases hc with
      | head => rfl
      | tail _ hc => rw [isNumber_of_mem_natText hc]; rfl
    · rw [isNumber_of_mem_natText hc]
      rfl
  refine ⟨fun hc ↦ ?_, fun hc ↦ ?_⟩
  · have := hdigits hc
    revert this
    decide
  · have := hdigits hc
    revert this
    decide

variable (L : Layout)

theorem Outside.tail {empty : Bool} {d : ℕ} {text rest : Bytes} (ht : Outside (text ++ rest))
    (h : Outside rest) :
    Outside ((if empty then [] else ascii "," ++ L.newline d ++ text) ++ rest) := by
  cases empty with
  | true => exact h
  | false =>
    rw [if_neg (by simp), List.append_assoc, List.append_assoc]
    exact .append (clean_of_ascii (by decide)) (.append (clean_of_white (L.newline_white d)) ht)

theorem Outside.container {s s' : String} (hs : Clean (ascii s)) (hs' : Clean (ascii s'))
    {empty : Bool} {d : ℕ} {text rest : Bytes}
    (ht : ∀ rest, Outside rest → Outside (text ++ rest)) (h : Outside rest) :
    Outside (ascii s ++ (if empty then [] else L.newline d ++ text ++ L.newline (d - 1)) ++
      ascii s' ++ rest) := by
  have hclose : Outside (ascii s' ++ rest) := .append hs' h
  rw [List.append_assoc, List.append_assoc]
  refine .append hs ?_
  cases empty with
  | true => exact hclose
  | false =>
    rw [if_neg (by simp), List.append_assoc, List.append_assoc]
    refine .append (clean_of_white (L.newline_white d)) (ht _ ?_)
    exact .append (clean_of_white (L.newline_white (d - 1))) hclose

mutual

theorem Json.outside_text (v : Json F) (d : ℕ) {rest : Bytes} (h : Outside rest) :
    Outside (v.text L id d ++ rest) := by
  cases v with
  | object members =>
    exact Outside.container L (clean_of_ascii (by decide)) (clean_of_ascii (by decide))
      (fun _ h ↦ Members.outside_text members d h) h
  | array elements =>
    exact Outside.container L (clean_of_ascii (by decide)) (clean_of_ascii (by decide))
      (fun _ h ↦ Elements.outside_text elements d h) h
  | string s => exact Outside.string _
  | number n => exact Outside.append (clean_intText n) h
  | boolean b =>
    cases b with
    | true => exact Outside.append (clean_of_ascii (by decide)) h
    | false => exact Outside.append (clean_of_ascii (by decide)) h
  | null => exact Outside.append (clean_of_ascii (by decide)) h
  | float x => exact h
  | nullptr => exact h

theorem Members.outside_text (m : Members F) (d : ℕ) {rest : Bytes} (h : Outside rest) :
    Outside (m.text L id d ++ rest) := by
  cases m with
  | nil => exact h
  | cons key value members => exact Outside.string _

theorem Elements.outside_text (e : Elements F) (d : ℕ) {rest : Bytes} (h : Outside rest) :
    Outside (e.text L id d ++ rest) := by
  cases e with
  | nil => exact h
  | cons value elements =>
    rw [Elements.text, List.append_assoc]
    exact Json.outside_text value (d + 1) (.tail L (Elements.outside_text elements d h) h)

end

end Outside

/-- What follows a value in a container. -/
structure Bounds (rest : Bytes) : Prop where
  outside : Outside rest
  follows : Follows rest
  head : ∃ c ∈ rest.head?, c ≠ quote

namespace Bounds

variable {rest : Bytes}

theorem cons {c : UInt8} (hc : c ∈ ascii ":,\x7d]") (h : Outside rest) : Bounds (c :: rest) := by
  have hall : ∀ c ∈ ascii ":,\x7d]",
      c ∈ ascii ":,\x7d]\n " ++ [9, 11] ∧ c ≠ quote ∧ c ≠ backslash := by decide +kernel
  obtain ⟨hf, hq, hb⟩ := hall c hc
  refine ⟨?_, follows_cons hf, c, rfl, hq⟩
  exact Outside.append (w := [c]) (by simp [Clean, hq.symm, hb.symm]) h

theorem white {w : Bytes} (hw : ∀ c ∈ w, isWhite c = true) (h : Bounds rest) :
    Bounds (w ++ rest) := by
  refine ⟨.append (clean_of_white hw) h.outside, follows_white hw h.follows, ?_⟩
  cases w with
  | nil => exact h.head
  | cons c w =>
    refine ⟨c, rfl, fun hq ↦ ?_⟩
    have := hw c (.head w)
    rw [hq] at this
    cases this

theorem tail (L : Layout) {empty : Bool} {d : ℕ} {text : Bytes} (ht : Outside (text ++ rest))
    (h : Bounds rest) :
    Bounds ((if empty then [] else ascii "," ++ L.newline d ++ text) ++ rest) := by
  cases empty with
  | true => exact h
  | false =>
    rw [if_neg (by simp), List.append_assoc, List.append_assoc]
    change Bounds (','.toUInt8 :: (L.newline d ++ (text ++ rest)))
    exact cons (by decide) (.append (clean_of_white (L.newline_white d)) ht)

end Bounds

theorem clean_of_quoted {s rest : Bytes} (hb : Bounds rest) {ks cs : List (Token F)}
    (h : Lexes toDouble (quoted s ++ rest) ks)
    (hp : .scalar (.string s) :: cs <+: content ks) : Clean s := by
  obtain ⟨m, h⟩ := h
  cases m with
  | zero =>
    rw [getTokens_take_zero h] at hp
    exact absurd hp.length_le (Nat.not_succ_le_zero _)
  | succ m =>
    have hcons : (quoted s ++ rest).take (m + 1) = quote :: (s ++ quote :: rest).take m := by
      rw [quoted, List.cons_append, List.append_assoc]
      rfl
    rw [hcons, getTokens_analysis rfl] at h
    obtain ⟨x, hx, h⟩ := bind_eq_ok.mp h
    obtain ⟨ks', -, h⟩ := bind_eq_ok.mp h
    cases h
    rw [analysis, if_pos rfl] at hx
    obtain ⟨⟨raw, rest'⟩, hscan, hx⟩ := bind_eq_ok.mp hx
    obtain ⟨s', hesc, hx⟩ := bind_eq_ok.mp hx
    cases hx
    obtain rfl : s = s' := by
      simpa using (List.cons_prefix_cons.mp hp).1
    have hfull := scanString_append hscan ((s ++ quote :: rest).drop m)
    rw [List.take_append_drop] at hfull
    exact clean_of_scan hb.outside hb.head hfull hesc

section Necessary

variable (L : Layout)

theorem spells_of_forall_clean {ss : List Bytes} (h : ∀ s ∈ ss, Clean s) :
    ∀ s ∈ ss, Spells (id s) s := fun s hs ↦ spells_of_clean (h s hs)

/-- What stands between the brackets of a container. -/
theorem clean_of_container {open_ close : UInt8} {begin_ end_ : Token F}
    (ho : (open_, begin_) ∈ punctuation) (hb : begin_.isContent = true)
    (he : end_.isContent = false) {empty : Bool} {text : Bytes} {d : ℕ} {rest : Bytes}
    {ss : List Bytes} {tokens cs : List (Token F)} (hempty : empty = true → ss = [])
    (ht : ∀ ks, Lexes toDouble (text ++ (L.newline (d - 1) ++ close :: rest)) ks →
      content tokens ++ cs <+: content ks → ∀ s ∈ ss, Clean s) {ks : List (Token F)}
    (h : Lexes toDouble ([open_] ++ (if empty then []
      else L.newline d ++ text ++ L.newline (d - 1)) ++ [close] ++ rest) ks)
    (hp : content (begin_ :: (tokens ++ [end_])) ++ cs <+: content ks) : ∀ s ∈ ss, Clean s := by
  cases empty with
  | true => simp [hempty rfl]
  | false =>
    have hline := L.newline_white d
    have hsplit : [open_] ++ (L.newline d ++ text ++ L.newline (d - 1)) ++ [close] ++ rest =
        (open_ :: L.newline d) ++ (text ++ (L.newline (d - 1) ++ close :: rest)) := by simp
    rw [if_neg (by simp), hsplit] at h
    rw [content_container hb he, List.cons_append, ← List.singleton_append,
      show [begin_] = content [begin_] by simp [content, hb]] at hp
    obtain ⟨ks', h, hp⟩ := h.rest (counts_mark ho hline) (fun j ↦ reads_mark ho hline _) hp
    exact ht ks' h hp

theorem clean_of_tail {empty : Bool} {text : Bytes} {d : ℕ} {rest : Bytes} {ss : List Bytes}
    {tokens cs : List (Token F)} (hempty : empty = true → ss = [])
    (ht : ∀ ks, Lexes toDouble (text ++ rest) ks →
      content tokens ++ cs <+: content ks → ∀ s ∈ ss, Clean s) {ks : List (Token F)}
    (h : Lexes toDouble ((if empty then [] else ascii "," ++ L.newline d ++ text) ++ rest) ks)
    (hp : content tokens ++ cs <+: content ks) : ∀ s ∈ ss, Clean s := by
  have hline := L.newline_white d
  cases empty with
  | true => simp [hempty rfl]
  | false =>
    rw [if_neg (by simp), List.append_assoc] at h
    obtain ⟨ks', h, hp⟩ :=
      h.rest (counts_mark comma_mem hline) (fun j ↦ reads_mark comma_mem hline _) hp
    exact ht ks' h hp

mutual

/-- When the content that was read starts with that of the tree, the strings of the tree
are all clean. -/
theorem Json.clean_text (v : Json F) (hv : v.Plain) (d : ℕ) {rest : Bytes} (ho : Outside rest)
    (hb : JsonParser.Root v ∨ Bounds rest) {ks cs : List (Token F)}
    (h : Lexes toDouble (v.text L id d ++ rest) ks)
    (hp : content v.tokens ++ cs <+: content ks) : ∀ s ∈ v.strings, Clean s := by
  cases v with
  | object members =>
    have hclose : Bounds (L.newline (d - 1) ++ '}'.toUInt8 :: rest) :=
      .white (L.newline_white _) (.cons (by decide) ho)
    exact clean_of_container L objectBegin_mem rfl rfl members.strings_of_empty
      (fun ks h hp ↦ Members.clean_text members (by simpa [Json.Plain] using hv) d hclose h hp) h hp
  | array elements =>
    have hclose : Bounds (L.newline (d - 1) ++ ']'.toUInt8 :: rest) :=
      .white (L.newline_white _) (.cons (by decide) ho)
    exact clean_of_container L arrayBegin_mem rfl rfl elements.strings_of_empty
      (fun ks h hp ↦ Elements.clean_text elements (by simpa [Json.Plain] using hv) d hclose h hp) h hp
  | string s =>
    intro s' hs'
    rw [List.mem_singleton.mp hs']
    exact clean_of_quoted (hb.resolve_left id) h hp
  | number n => simp [Json.strings]
  | boolean b => simp [Json.strings]
  | null => simp [Json.strings]
  | float x => exact hv.elim
  | nullptr => exact hv.elim

theorem Members.clean_text (m : Members F) (hm : m.Plain) (d : ℕ) {rest : Bytes}
    (hb : Bounds rest) {ks cs : List (Token F)} (h : Lexes toDouble (m.text L id d ++ rest) ks)
    (hp : content m.tokens ++ cs <+: content ks) : ∀ s ∈ m.strings, Clean s := by
  cases m with
  | nil => simp [Members.strings]
  | cons key value members =>
    have htail : Bounds ((if members.empty then []
        else ascii "," ++ L.newline d ++ members.text L id d) ++ rest) :=
      .tail L (Members.outside_text L members d hb.outside) hb
    have hvalue : Outside (value.text L id (d + 1) ++ ((if members.empty then []
        else ascii "," ++ L.newline d ++ members.text L id d) ++ rest)) :=
      Json.outside_text L value (d + 1) htail.outside
    have hbounds : Bounds (':'.toUInt8 :: (L.gap ++ (value.text L id (d + 1) ++
        ((if members.empty then [] else ascii "," ++ L.newline d ++ members.text L id d) ++
          rest)))) := .cons (by decide) (.append (clean_of_white L.gap_white) hvalue)
    have hp : content [.scalar (.string key.value)] ++ (content [.keyValueSep] ++
        (content value.tokens ++ (content members.tokens ++ cs))) <+: content ks := by
      rwa [Members.content_cons, List.cons_append, List.append_assoc] at hp
    rw [Members.text, List.append_assoc, List.append_assoc, List.append_assoc] at h
    have hkey := clean_of_quoted hbounds h hp
    have hspell := spells_of_clean hkey
    obtain ⟨ks₁, h, hp⟩ := h.rest (cuts_quoted hspell).counts (fun j ↦ getTokens_quoted hspell) hp
    obtain ⟨ks₂, h, hp⟩ := h.rest (counts_mark colon_mem L.gap_white)
      (fun j ↦ reads_mark colon_mem L.gap_white _) hp
    have hv := Json.clean_text value hm.2.1 (d + 1) htail.outside (.inr htail) h hp
    have hspells := spells_of_forall_clean hv
    obtain ⟨ks₃, h, hp⟩ := h.rest (Json.cuts_text L value hm.2.1 hspells (d + 1)).counts
      (fun j ↦ Json.getTokens_text L value hm.2.1 hspells (d + 1) (htail.follows.take j)) hp
    have hrest := clean_of_tail L members.strings_of_empty
      (fun ks h hp ↦ Members.clean_text members hm.2.2 d hb h hp) h hp
    intro s hs
    rw [Members.strings, List.mem_cons, List.mem_append] at hs
    obtain rfl | hs | hs := hs
    · exact hkey
    · exact hv s hs
    · exact hrest s hs

theorem Elements.clean_text (e : Elements F) (he : e.Plain) (d : ℕ) {rest : Bytes}
    (hb : Bounds rest) {ks cs : List (Token F)} (h : Lexes toDouble (e.text L id d ++ rest) ks)
    (hp : content e.tokens ++ cs <+: content ks) : ∀ s ∈ e.strings, Clean s := by
  cases e with
  | nil => simp [Elements.strings]
  | cons value elements =>
    have htail : Bounds ((if elements.empty then []
        else ascii "," ++ L.newline d ++ elements.text L id d) ++ rest) :=
      .tail L (Elements.outside_text L elements d hb.outside) hb
    rw [Elements.text, List.append_assoc] at h
    rw [Elements.content_cons, List.append_assoc] at hp
    have hvalue := Json.clean_text value he.1 (d + 1) htail.outside (.inr htail) h hp
    have hspells := spells_of_forall_clean hvalue
    obtain ⟨ks', h, hp⟩ := h.rest (Json.cuts_text L value he.1 hspells (d + 1)).counts
      (fun j ↦ Json.getTokens_text L value he.1 hspells (d + 1) (htail.follows.take j)) hp
    have hrest := clean_of_tail L elements.strings_of_empty
      (fun ks h hp ↦ Elements.clean_text elements he.2 d hb h hp) h hp
    intro s hs
    rw [Elements.strings, List.mem_append] at hs
    exact hs.elim (hvalue s) (hrest s)

end

end Necessary

section Parse

open JsonParser

variable (L : Layout) {root : Json F}

/-- What the parser has read when it returns the tree of a text. -/
theorem content_of_parse {text : Bytes} (h : parse toDouble true text = .ok root) :
    ∃ (m : ℕ) (ks : List (Token F)), getTokens toDouble true (text.take m) = .ok ks ∧
      content root.tokens <+: content ks ∧ m < 2 ^ 31 ∧
      (text.length < 2 ^ 31 ∨ m + 2 ^ 32 ≤ text.length) := by
  obtain ⟨text', htext, h⟩ := bind_eq_ok.mp h
  obtain ⟨ks, hks, htree⟩ := bind_eq_ok.mp h
  obtain ⟨m, rfl, hm, hlen⟩ := setBuffer_eq_ok htext
  exact ⟨m, ks, hks, parseTokens_content htree, hm, hlen⟩

/-- A tree whose text, with its strings written as they are, is read back as the
same tree has clean strings only. -/
theorem clean_of_parse_text (hr : Root root) (hp : root.Plain) (d : ℕ)
    (h : parse toDouble true (root.text L id d) = .ok root) : ∀ s ∈ root.strings, Clean s := by
  obtain ⟨m, ks, hks, hc, -, -⟩ := content_of_parse h
  have hlex : Lexes toDouble (root.text L id d ++ []) ks := by
    rw [List.append_nil]
    exact ⟨m, hks⟩
  rw [← List.append_nil (content root.tokens)] at hc
  exact Json.clean_text L root hp d .nil (.inl hr) hlex hc

/-- A text that is too long for the reader is cut off, and what is left of it is too short
to be read as its tree. -/
theorem length_of_parse_text {spell : Bytes → Bytes} (hp : root.Plain)
    (hs : ∀ s ∈ root.strings, Spells (spell s) s) (d : ℕ)
    (h : parse toDouble true (root.text L spell d) = .ok root) :
    (root.text L spell d).length < 2 ^ 31 := by
  obtain ⟨m, ks, hks, hc, hm, hlen⟩ := content_of_parse h
  have hcuts : Cuts toDouble (root.text L spell d) _ 0 := Json.cuts_text L root hp hs d
  have hcount := Nat.le_antisymm (hcuts.counts m ks hks) hc.length_le
  have hle := hcuts.length_le m ks hks hcount
  omega

end Parse

/-- Nothing between the tokens. -/
def compact : Layout where
  newline _ := []
  gap := []
  newline_le _ := le_rfl
  newline_white _ _ h := absurd h List.not_mem_nil
  gap_white _ h := absurd h List.not_mem_nil

section ToString

variable {showDouble : F → Bytes}

mutual

/-- `toString` writes the strings as they are and nothing between the tokens. -/
theorem Json.toString_text (v : Json F) (hv : v.Plain) (d : ℕ) :
    v.toString showDouble = .ok (v.text compact id d) := by
  cases v with
  | object members =>
    rw [Json.toString, Members.toString_text members (by simpa [Json.Plain] using hv) d, Json.text]
    cases members with
    | nil => rfl
    | cons key value members => simp [bind, Except.bind, compact, Members.empty]
  | array elements =>
    rw [Json.toString, Elements.toString_text elements (by simpa [Json.Plain] using hv) d,
      Json.text]
    cases elements with
    | nil => rfl
    | cons value elements => simp [bind, Except.bind, compact, Elements.empty]
  | string s => rfl
  | number n => rfl
  | boolean b => rfl
  | null => rfl
  | float x => exact hv.elim
  | nullptr => exact hv.elim

theorem Members.toString_text (m : Members F) (hm : m.Plain) (d : ℕ) :
    m.toString showDouble = .ok (m.text compact id d) := by
  cases m with
  | nil => rfl
  | cons key value members =>
    rw [Members.toString, Json.toString_text value hm.2.1 (d + 1),
      Members.toString_text members hm.2.2 d, Members.text]
    cases members with
    | nil =>
      simp [bind, Except.bind, compact, Members.empty, Members.text, JsonString.toString, quoted]
    | cons key' value' members' =>
      simp [bind, Except.bind, compact, Members.empty, JsonString.toString, quoted]

theorem Elements.toString_text (e : Elements F) (he : e.Plain) (d : ℕ) :
    e.toString showDouble = .ok (e.text compact id d) := by
  cases e with
  | nil => rfl
  | cons value elements =>
    rw [Elements.toString, Json.toString_text value he.1 (d + 1),
      Elements.toString_text elements he.2 d, Elements.text]
    cases elements with
    | nil => simp [bind, Except.bind, compact, Elements.empty, Elements.text]
    | cons value' elements' => simp [bind, Except.bind, compact, Elements.empty]

end

end ToString

end Socnet.Libjson
