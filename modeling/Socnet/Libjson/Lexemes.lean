import Mathlib.Logic.Relation
import Socnet.Libjson.JsonReader
import Socnet.Libjson.RawStrings

namespace Socnet.Libjson

open Relation JsonLexer Utility.EncodeUtil

variable {F : Type} {toDouble : Bytes → F} {escape : Bool}

/-- The characters of a string, with a letter behind each backslash. -/
inductive Body : Bytes → Prop
  | nil : Body []
  | plain {c : UInt8} {s : Bytes} : c ≠ quote → c ≠ backslash → Body s → Body (c :: s)
  | escape {e : UInt8} {s : Bytes} : isValidNextEscapeCharacter e → Body s →
      Body (backslash :: e :: s)

def IsSurrogate (h : Bytes) : Prop := 0xD800 ≤ hexValue h ∧ hexValue h < 0xE000

/-- Behind characters and escapes that can be decoded, `P` holds. -/
inductive Escapes (P : Bytes → Prop) : Bytes → Prop
  | here {s : Bytes} : P s → Escapes P s
  | plain {c : UInt8} {s : Bytes} : c ≠ backslash → Escapes P s → Escapes P (c :: s)
  | letter {e : UInt8} {s : Bytes} : e ≠ 'u'.toUInt8 → e ≠ 'x'.toUInt8 → Escapes P s →
      Escapes P (backslash :: e :: s)
  | unicode {h s : Bytes} : h.length = 4 → (∀ c ∈ h, isxdigit c) → ¬ IsSurrogate h → Escapes P s →
      Escapes P (backslash :: 'u'.toUInt8 :: (h ++ s))
  | hex {h s : Bytes} : h ≠ [] → (∀ c ∈ h, isxdigit c) → (∀ c ∈ s.head?, ¬ isxdigit c) →
      Escapes P s → Escapes P (backslash :: 'x'.toUInt8 :: (h ++ s))

def Decodable : Bytes → Prop := Escapes (· = [])

def SurrogateEscape (s : Bytes) : Prop :=
  ∃ h rest, s = backslash :: 'u'.toUInt8 :: (h ++ rest) ∧ h.length = 4 ∧ (∀ c ∈ h, isxdigit c) ∧
    IsSurrogate h

/-- The first escape that cannot be decoded is one of half a surrogate pair. -/
def SurrogateFirst : Bytes → Prop := Escapes SurrogateEscape

section Strings

theorem scanString_body {raw : Bytes} (h : Body raw) (rest : Bytes) :
    scanString (raw ++ quote :: rest) = .ok (raw, rest) := by
  induction h with
  | nil => exact scanString_quote rest
  | plain hq hb _ ih => exact scanString_cons hq hb ih
  | escape he _ ih => exact scanString_escape he ih

theorem scanString_open {text : Bytes} (h : Body text) : scanString text = .error .hang := by
  induction h with
  | nil => rfl
  | plain hq hb _ ih =>
    rw [scanString.eq_def]
    dsimp only
    rw [if_neg hq, if_neg hb, ih]
    rfl
  | escape he _ ih =>
    rw [scanString.eq_def]
    dsimp only
    rw [if_neg (by decide), if_pos rfl, if_pos he, ih]
    rfl

/-- A string ends at its quote, is not closed, or has a bad character behind a backslash. -/
theorem scanString_cases (text : Bytes) :
    (∃ raw rest, text = raw ++ quote :: rest ∧ Body raw) ∨ Body text ∨
      scanString text = .error .exception := by
  fun_induction scanString text with
  | case1 => exact .inr (.inl .nil)
  | case2 rest => exact .inl ⟨[], rest, rfl, .nil⟩
  | case3 => exact .inr (.inr rfl)
  | case4 e rest he _ ih =>
    rcases ih with ⟨raw, rest', rfl, hbody⟩ | hbody | hx
    · exact .inl ⟨backslash :: e :: raw, rest', rfl, .escape he hbody⟩
    · exact .inr (.inl (.escape he hbody))
    · rw [hx]
      exact .inr (.inr rfl)
  | case5 => exact .inr (.inr rfl)
  | case6 c rest hq hb ih =>
    rcases ih with ⟨raw, rest', rfl, hbody⟩ | hbody | hx
    · exact .inl ⟨c :: raw, rest', rfl, .plain hq hb hbody⟩
    · exact .inr (.inl (.plain hq hb hbody))
    · rw [hx]
      exact .inr (.inr rfl)

theorem ne_backslash_of_isxdigit {c : UInt8} (h : isxdigit c = true) : c ≠ backslash := by
  rintro rfl
  revert h
  decide

theorem Body.tail {c : UInt8} {s : Bytes} (hc : c ≠ backslash) (hb : Body (c :: s)) : Body s := by
  cases hb with
  | plain _ _ hb => exact hb
  | escape => exact absurd rfl hc

theorem Body.behind_letter {e : UInt8} {s : Bytes} (hb : Body (backslash :: e :: s)) : Body s := by
  cases hb with
  | plain _ hb _ => exact absurd rfl hb
  | escape _ hb => exact hb

theorem Body.of_hex {h s : Bytes} (hh : ∀ c ∈ h, isxdigit c = true) (hb : Body (h ++ s)) :
    Body s := by
  induction h with
  | nil => exact hb
  | cons c h ih =>
    rw [List.forall_mem_cons] at hh
    exact ih hh.2 (hb.tail (ne_backslash_of_isxdigit hh.1))

theorem escapeString_unicode {h : Bytes} (hlen : h.length = 4) (hh : ∀ c ∈ h, isxdigit c = true)
    (s : Bytes) : escapeString (backslash :: 'u'.toUInt8 :: (h ++ s)) =
      unicodeHexToString h >>= fun u ↦ escapeString s >>= fun t ↦ .ok (u ++ t) := by
  have htake : (h ++ s).take 4 = h := by rw [← hlen, List.take_left]
  have hdrop : (h ++ s).drop 4 = s := by rw [← hlen, List.drop_left]
  rw [escapeString, if_neg (by simp), if_pos rfl, htake, hdrop,
    if_pos ⟨hlen, List.all_eq_true.mpr hh⟩]

theorem escapeString_hex {h s : Bytes} (hne : h ≠ []) (hh : ∀ c ∈ h, isxdigit c = true)
    (hs : ∀ c ∈ s.head?, ¬ isxdigit c = true) :
    escapeString (backslash :: 'x'.toUInt8 :: (h ++ s)) =
      escapeString s >>= fun t ↦ .ok (natText (toBase16 h) ++ t) := by
  obtain ⟨htake, hdrop⟩ := scan_append hh hs
  rw [escapeString, if_neg (by simp), if_neg (by decide), if_pos rfl, htake, hdrop, if_neg hne]

theorem escapeString_other {e : UInt8} (hu : e ≠ 'u'.toUInt8) (hx : e ≠ 'x'.toUInt8) (s : Bytes) :
    escapeString (backslash :: e :: s) =
      escapeString s >>= fun t ↦ .ok (escapeCharacter e :: t) := by
  rw [escapeString, if_neg (by simp), if_neg hu, if_neg hx]

theorem unicodeHexToString_ok {h : Bytes} (hs : ¬ IsSurrogate h) :
    ∃ u, unicodeHexToString h = .ok u := by
  unfold unicodeHexToString
  dsimp only
  split_ifs with h1 h2 h3
  · exact ⟨_, rfl⟩
  · exact ⟨_, rfl⟩
  · exact absurd h3 hs
  · exact ⟨_, rfl⟩

theorem unicodeHexToString_surrogate {h : Bytes} (hs : IsSurrogate h) :
    unicodeHexToString h = .error .rangeError := by
  have hge := hs.1
  unfold unicodeHexToString
  dsimp only
  rw [if_neg (by omega), if_neg (by omega)]
  exact if_pos hs

/-- What decoding comes to at the place up to which a string can be decoded. -/
theorem escapeString_escapes {P : Bytes → Prop} {s : Bytes} (h : Escapes P s) :
    ∃ t u, P t ∧ escapeString s = escapeString t >>= fun v ↦ .ok (u ++ v) := by
  have hstep {x : Except Fault Bytes} {p : Bytes} {t u : Bytes}
      (hx : x = escapeString t >>= fun v ↦ .ok (u ++ v)) :
      x >>= (fun v ↦ .ok (p ++ v)) = escapeString t >>= fun v ↦ .ok (p ++ u ++ v) := by
    rw [hx]
    cases escapeString t with
    | error e => rfl
    | ok v => exact congrArg Except.ok (List.append_assoc p u v).symm
  induction h with
  | @here s hP =>
    refine ⟨s, [], hP, ?_⟩
    cases escapeString s with
    | error e => rfl
    | ok v => rfl
  | @plain c s hc _ ih =>
    obtain ⟨t, u, hP, hx⟩ := ih
    have hone : escapeString (c :: s) = escapeString s >>= fun v ↦ .ok ([c] ++ v) :=
      escapeString_cons hc s
    rw [hone]
    exact ⟨t, _, hP, hstep hx⟩
  | @letter e s hu hx _ ih =>
    obtain ⟨t, u, hP, hs⟩ := ih
    have hone : escapeString (backslash :: e :: s) =
        escapeString s >>= fun v ↦ .ok ([escapeCharacter e] ++ v) := escapeString_other hu hx s
    rw [hone]
    exact ⟨t, _, hP, hstep hs⟩
  | unicode hlen hh hsur _ ih =>
    obtain ⟨t, u, hP, hs⟩ := ih
    obtain ⟨w, hw⟩ := unicodeHexToString_ok hsur
    rw [escapeString_unicode hlen hh, hw]
    exact ⟨t, _, hP, hstep hs⟩
  | hex hne hh hhead _ ih =>
    obtain ⟨t, u, hP, hs⟩ := ih
    rw [escapeString_hex hne hh hhead]
    exact ⟨t, _, hP, hstep hs⟩

theorem escapeString_decodable {s : Bytes} (h : Decodable s) : ∃ v, escapeString s = .ok v := by
  obtain ⟨t, u, rfl, hs⟩ := escapeString_escapes h
  rw [hs, escapeString]
  exact ⟨_, rfl⟩

theorem escapeString_surrogateFirst {s : Bytes} (h : SurrogateFirst s) :
    escapeString s = .error .rangeError := by
  obtain ⟨t, u, ⟨h, rest, rfl, hlen, hh, hsur⟩, hs⟩ := escapeString_escapes h
  rw [hs, escapeString_unicode hlen hh, unicodeHexToString_surrogate hsur]
  rfl

/-- How a string can be decoded up to a character or an escape carries over to what stands
in front of it. -/
theorem escapes_step {s t : Bytes} {x : Except Fault Bytes}
    (hlift : ∀ {P : Bytes → Prop}, Escapes P s → Escapes P t)
    (hx : escapeString s = .error .exception → x = .error .exception)
    (h : Decodable s ∨ SurrogateFirst s ∨ escapeString s = .error .exception) :
    Decodable t ∨ SurrogateFirst t ∨ x = .error .exception := by
  rcases h with h | h | h
  · exact .inl (hlift h)
  · exact .inr (.inl (hlift h))
  · exact .inr (.inr (hx h))

theorem escapeString_cases {s : Bytes} (hb : Body s) :
    Decodable s ∨ SurrogateFirst s ∨ escapeString s = .error .exception := by
  fun_induction escapeString s with
  | case1 => exact .inl (.here rfl)
  | case2 c s hc ih => exact escapes_step (.plain hc) (fun h ↦ by rw [h]; rfl) (ih (hb.tail hc))
  | case3 c hc =>
    obtain rfl : c = backslash := not_not.mp hc
    cases hb with
    | plain _ hb _ => exact absurd rfl hb
  | case4 c hc s hhex ih =>
    obtain rfl : c = backslash := not_not.mp hc
    have hh : ∀ c ∈ s.take 4, isxdigit c = true := List.all_eq_true.mp hhex.2
    have hsplit : s = s.take 4 ++ s.drop 4 := (List.take_append_drop 4 s).symm
    have hrest : Body (s.drop 4) := by
      apply Body.of_hex hh
      rw [← hsplit]
      exact hb.behind_letter
    by_cases hsur : IsSurrogate (s.take 4)
    · refine .inr (.inl (.here ⟨s.take 4, s.drop 4, ?_, hhex.1, hh, hsur⟩))
      rw [← hsplit]
    · obtain ⟨u, hu⟩ := unicodeHexToString_ok hsur
      refine escapes_step (fun h ↦ ?_) (fun h ↦ by rw [hu, h]; rfl) (ih hrest)
      rw [hsplit]
      exact .unicode hhex.1 hh hsur h
  | case5 => exact .inr (.inr rfl)
  | case6 => exact .inr (.inr rfl)
  | case7 c hc s hne _ ih =>
    obtain rfl : c = backslash := not_not.mp hc
    have hh : ∀ c ∈ s.takeWhile isxdigit, isxdigit c = true := fun c hc ↦ List.mem_takeWhile_imp hc
    have hhead : ∀ c ∈ (s.dropWhile isxdigit).head?, ¬ isxdigit c = true := by
      intro c hc
      have h := List.head?_dropWhile_not isxdigit s
      rw [hc] at h
      simpa using h
    have hsplit : s = s.takeWhile isxdigit ++ s.dropWhile isxdigit :=
      List.takeWhile_append_dropWhile.symm
    have hrest : Body (s.dropWhile isxdigit) := by
      apply Body.of_hex hh
      rw [← hsplit]
      exact hb.behind_letter
    refine escapes_step (fun h ↦ ?_) (fun h ↦ by rw [h]; rfl) (ih hrest)
    rw [hsplit]
    exact .hex hne hh hhead h
  | case8 c hc e s hu hx ih =>
    obtain rfl : c = backslash := not_not.mp hc
    exact escapes_step (.letter hu hx) (fun h ↦ by rw [h]; rfl) (ih hb.behind_letter)

end Strings

section Comments

/-- The end of a block comment does not stand in the text. -/
def NoEnd (text : Bytes) : Prop := ¬ ascii "*/" <:+: text

theorem noEnd_cons {c : UInt8} {text : Bytes} : NoEnd (c :: text) ↔
    ¬ (c = '*'.toUInt8 ∧ text.head? = some '/'.toUInt8) ∧ NoEnd text := by
  have hhead : ascii "*/" <+: c :: text ↔ c = '*'.toUInt8 ∧ text.head? = some '/'.toUInt8 := by
    change ['*'.toUInt8, '/'.toUInt8] <+: c :: text ↔ _
    rw [List.cons_prefix_cons, eq_comm]
    cases text with
    | nil => simp
    | cons d text => simp [eq_comm]
  rw [NoEnd, List.infix_cons_iff, not_or, hhead, NoEnd]

theorem skipBlock_open {text : Bytes} (h : NoEnd text) : skipBlock text = .error .hang := by
  induction text with
  | nil => rfl
  | cons c text ih =>
    obtain ⟨hhead, htail⟩ := noEnd_cons.mp h
    rw [skipBlock, if_neg hhead, ih htail]

theorem skipBlock_closed {body : Bytes} (h : NoEnd (body ++ ascii "*")) (rest : Bytes) :
    skipBlock (body ++ (ascii "*/" ++ rest)) = .ok rest := by
  induction body with
  | nil => rfl
  | cons c body ih =>
    rw [List.cons_append, noEnd_cons] at h
    obtain ⟨hhead, htail⟩ := h
    have hhead' : (body ++ (ascii "*/" ++ rest)).head? = (body ++ ascii "*").head? := by
      cases body with
      | nil => rfl
      | cons d body => rfl
    rw [List.cons_append, skipBlock, hhead', if_neg hhead, ih htail]

theorem skipBlock_cases (text : Bytes) :
    (∃ body rest, text = body ++ (ascii "*/" ++ rest) ∧ NoEnd (body ++ ascii "*")) ∨ NoEnd text := by
  induction text with
  | nil => exact .inr (by simp [NoEnd, ascii])
  | cons c text ih =>
    by_cases hhead : c = '*'.toUInt8 ∧ text.head? = some '/'.toUInt8
    · obtain ⟨rfl, hslash⟩ := hhead
      cases text with
      | nil => cases hslash
      | cons d rest =>
        obtain rfl : d = '/'.toUInt8 := Option.some.inj hslash
        exact .inl ⟨[], rest, rfl, by unfold NoEnd; decide⟩
    · rcases ih with ⟨body, rest, rfl, hbody⟩ | hopen
      · refine .inl ⟨c :: body, rest, rfl, noEnd_cons.mpr ⟨fun h ↦ hhead ⟨h.1, ?_⟩, hbody⟩⟩
        have h2 := h.2
        cases body with
        | nil => exact absurd h2 (by decide)
        | cons d body => exact h2
      · exact .inr (noEnd_cons.mpr ⟨hhead, hopen⟩)

/-- A line comment goes on. -/
def InLine (c : UInt8) : Prop := c ≠ 255 ∧ ¬ isNewline c

theorem skipLine_body {body rest : Bytes} (hb : ∀ c ∈ body, InLine c)
    (hr : ∀ c ∈ rest.head?, ¬ InLine c) : skipLine (body ++ rest) = rest.tail := by
  induction body with
  | nil =>
    cases rest with
    | nil => rfl
    | cons c rest =>
      have hc : c = 255 ∨ isNewline c := by
        by_contra h
        exact hr c rfl (not_or.mp h)
      rw [List.nil_append, skipLine, if_pos hc, List.tail_cons]
  | cons c body ih =>
    rw [List.forall_mem_cons] at hb
    rw [List.cons_append, skipLine, if_neg (not_or.mpr hb.1), ih hb.2]

theorem line_cases (text : Bytes) : ∃ body rest, text = body ++ rest ∧ (∀ c ∈ body, InLine c) ∧
    ∀ c ∈ rest.head?, ¬ InLine c := by
  induction text with
  | nil => exact ⟨[], [], rfl, by simp, by simp⟩
  | cons c text ih =>
    by_cases hc : InLine c
    · obtain ⟨body, rest, rfl, hb, hr⟩ := ih
      exact ⟨c :: body, rest, rfl, List.forall_mem_cons.mpr ⟨hc, hb⟩, hr⟩
    · refine ⟨[], c :: text, rfl, by simp, fun x hx ↦ ?_⟩
      obtain rfl : c = x := Option.some.inj hx
      exact hc

end Comments

section Numbers

/-- A sign or a digit with the digits behind it; a zero stands alone. -/
structure Digits (c : UInt8) (digits : Bytes) : Prop where
  start : isNumber c || isSign c
  isNumber : ∀ x ∈ digits, isNumber x
  zero : c = '0'.toUInt8 → digits = []

/-- The number that the digits spell. -/
def integer (c : UInt8) (digits : Bytes) : ℤ :=
  if c = '-'.toUInt8 then -natValue digits
  else if c = '+'.toUInt8 then natValue digits else natValue (c :: digits)

/-- The number is an `int`. -/
def Fits (c : UInt8) (digits : Bytes) : Prop :=
  -2147483648 ≤ integer c digits ∧ integer c digits ≤ 2147483647

theorem toInt_fits {c : UInt8} {digits : Bytes} (h : Fits c digits) :
    toInt c digits = .ok (integer c digits) := if_pos h

theorem toInt_not_fits {c : UInt8} {digits : Bytes} (h : ¬ Fits c digits) :
    toInt c digits = .error .overflow := if_neg h

theorem isNumber_eq_false {d : UInt8} (h : d = '.'.toUInt8 ∨ isExponent d) : isNumber d = false := by
  have hall : ∀ x ∈ ascii ".eE", isNumber x = false := by decide +kernel
  apply hall
  rcases h with rfl | he
  · exact .head _
  · simp only [isExponent, Bool.or_eq_true, decide_eq_true_eq] at he
    obtain rfl | rfl := he
    · decide
    · decide

variable {c : UInt8} {digits : Bytes} (hd : Digits c digits)
include hd

/-- The digits of a number are read up to the first other character. -/
theorem scanNumber_eq_numberValue {text : Bytes} (ht : ∀ x ∈ text.head?, isNumber x = false) :
    scanNumber toDouble c (digits ++ text) = Lexing.numberValue toDouble c digits text := by
  have hstop : ∀ x ∈ text.head?, ¬ isNumber x = true := fun x hx ↦ by simp [ht x hx]
  obtain ⟨htake, hdrop⟩ := scan_append hd.isNumber hstop
  rw [Lexing.scanNumber_eq, if_neg (not_leadingZero hd.zero hstop), htake, hdrop]

theorem scanNumber_integer {rest : Bytes} (hf : Follows rest) :
    scanNumber toDouble c (digits ++ rest) = toInt c digits >>= fun n ↦ .ok (.number n, rest) := by
  rw [scanNumber_eq_numberValue hd fun x hx ↦ (hf x hx).1]
  cases rest with
  | nil => rfl
  | cons d rest =>
    obtain ⟨-, hdot, hexp⟩ := hf d rfl
    rw [Lexing.numberValue, if_neg (by simp [hdot, hexp])]

/-- The part of a number behind its digits: a point or an exponent, and up to a character
of another kind what a fraction can hold. -/
structure Fraction (d : UInt8) (tail rest : Bytes) : Prop where
  start : d = '.'.toUInt8 ∨ isExponent d
  isFraction : ∀ x ∈ tail, Lexing.isFraction x
  stop : ∀ x ∈ rest.head?, ¬ Lexing.isFraction x

/-- It does not end in a point or in the letter of an exponent. -/
def Closed (d : UInt8) (tail : Bytes) : Prop :=
  ∀ x ∈ (d :: tail).getLast?, x ≠ '.'.toUInt8 ∧ ¬ isExponent x

theorem scanNumber_fraction {d : UInt8} {tail rest : Bytes} (hf : Fraction d tail rest) :
    scanNumber toDouble c (digits ++ d :: (tail ++ rest)) =
      Lexing.floatValue toDouble (c :: (digits ++ d :: tail)) rest := by
  obtain ⟨htake, hdrop⟩ := scan_append hf.isFraction hf.stop
  have hhead : ∀ x ∈ (d :: (tail ++ rest)).head?, isNumber x = false := by
    intro x hx
    obtain rfl : d = x := Option.some.inj hx
    exact isNumber_eq_false hf.start
  rw [scanNumber_eq_numberValue hd hhead, Lexing.numberValue, if_pos hf.start, htake, hdrop]

end Numbers

/-- A character that starts no token and no comment. -/
def StartsNothing (c : UInt8) : Prop :=
  c ∉ ascii "\"/tfn:,\x7b[\x7d]" ∧ ¬ (isNumber c || isSign c)

/-- The text starts with a whole token or comment, or with a character that is skipped, and
this is what stands behind it. -/
inductive Lexeme (escape : Bool) : Bytes → Bytes → Prop
  | other {c : UInt8} {rest : Bytes} : StartsNothing c → Lexeme escape (c :: rest) rest
  | punctuation {c : UInt8} {rest : Bytes} : c ∈ ascii ":,\x7b[\x7d]" →
      Lexeme escape (c :: rest) rest
  | word {w : String} {rest : Bytes} : w ∈ ["true", "false", "null"] →
      Lexeme escape (ascii w ++ rest) rest
  | string {raw rest : Bytes} : Body raw → (escape = true → Decodable raw) →
      Lexeme escape (quoted raw ++ rest) rest
  | lineComment {body rest : Bytes} : (∀ c ∈ body, InLine c) → (∀ c ∈ rest.head?, ¬ InLine c) →
      Lexeme escape (ascii "//" ++ (body ++ rest)) rest.tail
  | blockComment {body rest : Bytes} : NoEnd (body ++ ascii "*") →
      Lexeme escape (ascii "/*" ++ (body ++ (ascii "*/" ++ rest))) rest
  | integer {c : UInt8} {digits rest : Bytes} : Digits c digits → Follows rest → Fits c digits →
      Lexeme escape (c :: (digits ++ rest)) rest
  | float {c d : UInt8} {digits tail rest : Bytes} : Digits c digits → Fraction d tail rest →
      Closed d tail → Lexeme escape (c :: (digits ++ d :: (tail ++ rest))) rest

/-- The text starts with a literal that the lexer neither reads nor refuses: a string or a
comment that is not closed, a string with half a surrogate pair, or a number that is no
`int`. -/
inductive Refused (escape : Bool) : Bytes → Prop
  | string {body : Bytes} : Body body → Refused escape (quote :: body)
  | surrogate {raw rest : Bytes} : escape = true → Body raw → SurrogateFirst raw →
      Refused escape (quoted raw ++ rest)
  | blockComment {body : Bytes} : NoEnd body → Refused escape (ascii "/*" ++ body)
  | integer {c : UInt8} {digits rest : Bytes} : Digits c digits → Follows rest →
      ¬ Fits c digits → Refused escape (c :: (digits ++ rest))

section Floats

variable {c d : UInt8} {digits tail rest : Bytes}

theorem getLast?_number : (c :: (digits ++ d :: tail)).getLast? = (d :: tail).getLast? :=
  List.getLast?_append_of_ne_nil (c :: digits) (List.cons_ne_nil d tail)

theorem exists_getLast? : ∃ x, (d :: tail).getLast? = some x :=
  ⟨_, List.getLast?_eq_some_getLast (List.cons_ne_nil d tail)⟩

theorem floatValue_closed (h : Closed d tail) :
    Lexing.floatValue toDouble (c :: (digits ++ d :: tail)) rest =
      .ok (.float (toDouble (c :: (digits ++ d :: tail))), rest) := by
  obtain ⟨x, hx⟩ : ∃ x, (d :: tail).getLast? = some x := exists_getLast?
  obtain ⟨hpoint, hexp⟩ := h x hx
  rw [Lexing.floatValue, getLast?_number, hx, Option.any_some, if_neg (by simp [hpoint, hexp])]

theorem floatValue_not_closed (h : ¬ Closed d tail) :
    Lexing.floatValue toDouble (c :: (digits ++ d :: tail)) rest = .error .exception := by
  obtain ⟨x, hx⟩ : ∃ x, (d :: tail).getLast? = some x := exists_getLast?
  rw [Lexing.floatValue, getLast?_number, hx, Option.any_some]
  apply if_pos
  by_contra hlast
  rw [Bool.or_eq_true, decide_eq_true_eq, not_or] at hlast
  apply h
  intro y hy
  obtain rfl : x = y := Option.some.inj (hx.symm.trans hy)
  exact hlast

end Floats

section Reading

variable {c : UInt8} {text rest : Bytes}

theorem startsNothing_of_isWhite (hc : isWhite c = true) : StartsNothing c := by
  simp only [isWhite, isSpace, isNewline, Bool.or_eq_true, decide_eq_true_eq] at hc
  unfold StartsNothing
  obtain ((rfl | rfl) | rfl) | rfl := hc
  · decide
  · decide
  · decide
  · decide

theorem StartsNothing.ne (hc : StartsNothing c) {x : UInt8} (hx : x ∈ ascii "\"/tfn:,\x7b[\x7d]") :
    c ≠ x := by
  rintro rfl
  exact hc.1 hx

theorem analysis_startsNothing (hc : StartsNothing c) :
    analysis toDouble escape c text = .ok (none, text) := by
  have hsub : ∀ k ∈ ascii ":,\x7b[\x7d]", k ∈ ascii "\"/tfn:,\x7b[\x7d]" := by
    decide +kernel
  have hlookup : (punctuation (F := F)).lookup c = none :=
    lookup_punctuation fun h ↦ hc.1 (hsub c h)
  rw [analysis, if_neg (hc.ne (by decide)), if_neg (hc.ne (by decide)), if_neg (hc.ne (by decide)),
    if_neg (hc.ne (by decide)), if_neg (hc.ne (by decide)), hlookup]
  dsimp only
  rw [integerOrFloat, if_neg]
  simpa using hc.2

theorem getTokens_skip (hc : isWhite c = false)
    (ha : analysis toDouble escape c text = .ok (none, rest)) :
    getTokens toDouble escape (c :: text) = getTokens toDouble escape rest := by
  rw [getTokens_analysis hc, ha]
  exact prepend_nil _

theorem getTokens_error {e : Fault} (hc : isWhite c = false)
    (ha : analysis toDouble escape c text = .error e) :
    getTokens toDouble escape (c :: text) = .error e := by
  rw [getTokens_analysis hc, ha]
  rfl

theorem decode_ok {raw : Bytes} (h : escape = true → Decodable raw) :
    ∃ s, decode escape raw = .ok s := by
  cases escape with
  | true => exact escapeString_decodable (h rfl)
  | false => exact ⟨raw, rfl⟩

theorem analysis_quoted {raw : Bytes} (hb : Body raw) :
    analysis toDouble escape quote (raw ++ quote :: rest) =
      decode escape raw >>= fun s ↦ .ok (some (.scalar (.string s)), rest) := by
  rw [analysis, if_pos rfl, stringLiteral, scanString_body hb]
  rfl

theorem quoted_append (raw rest : Bytes) : quoted raw ++ rest = quote :: (raw ++ quote :: rest) := by
  rw [quoted, List.cons_append, List.append_assoc, List.singleton_append]

theorem getTokens_other (hc : StartsNothing c) (rest : Bytes) :
    getTokens toDouble escape (c :: rest) = getTokens toDouble escape rest := by
  cases hw : isWhite c with
  | true =>
    have hone : ∀ x ∈ [c], isWhite x = true := by simpa using hw
    exact getTokens_white hone rest
  | false => exact getTokens_skip hw (analysis_startsNothing hc)

variable (toDouble) in
/-- The lexer reads a lexeme in front of whatever stands behind it. -/
theorem getTokens_lexeme (h : Lexeme escape text rest) :
    ∃ ts, getTokens toDouble escape text = prepend ts (getTokens toDouble escape rest) := by
  cases h with
  | @other c rest hc =>
    refine ⟨[], ?_⟩
    rw [prepend_nil]
    exact getTokens_other hc rest
  | @punctuation c rest hc =>
    have hkeys : (JsonLexer.punctuation (F := F)).map Prod.fst = ascii ":,\x7b[\x7d]" := rfl
    rw [← hkeys, List.mem_map] at hc
    obtain ⟨⟨x, token⟩, hmem, rfl⟩ := hc
    exact ⟨[token], getTokens_punctuation hmem⟩
  | @word w rest hw =>
    simp only [List.mem_cons, List.not_mem_nil, or_false] at hw
    obtain rfl | rfl | rfl := hw
    · refine ⟨[.scalar (.boolean true)], ?_⟩
      exact getTokens_identifier (c := 't'.toUInt8) rfl fun _ ↦ rfl
    · refine ⟨[.scalar (.boolean false)], ?_⟩
      exact getTokens_identifier (c := 'f'.toUInt8) rfl fun _ ↦ rfl
    · refine ⟨[.scalar .null], ?_⟩
      exact getTokens_identifier (c := 'n'.toUInt8) rfl fun _ ↦ rfl
  | @string raw rest hb hd =>
    obtain ⟨s, hs⟩ := decode_ok hd
    rw [quoted_append]
    refine ⟨[.scalar (.string s)], getTokens_cons rfl ?_⟩
    rw [analysis_quoted hb, hs]
    rfl
  | @lineComment body rest hb hr =>
    refine ⟨[], ?_⟩
    rw [prepend_nil]
    have ha : analysis toDouble escape '/'.toUInt8 ('/'.toUInt8 :: (body ++ rest)) =
        .ok (none, rest.tail) := by
      rw [analysis, if_neg (by decide), if_pos rfl, comment, if_pos rfl, skipLine_body hb hr]
    exact getTokens_skip rfl ha
  | @blockComment body rest hb =>
    refine ⟨[], ?_⟩
    rw [prepend_nil]
    have ha : analysis toDouble escape '/'.toUInt8
        ('*'.toUInt8 :: (body ++ (ascii "*/" ++ rest))) = .ok (none, rest) := by
      rw [analysis, if_neg (by decide), if_pos rfl, comment, if_neg (by decide), if_pos rfl,
        skipBlock_closed hb]
      rfl
    exact getTokens_skip rfl ha
  | @integer c digits rest hd hf hn =>
    have ha : _ ∧ analysis toDouble escape c (digits ++ rest) = _ := analysis_number hd.start _
    refine ⟨[.scalar (.number (Socnet.Libjson.integer c digits))], getTokens_cons ha.1 ?_⟩
    rw [ha.2, scanNumber_integer hd hf, toInt_fits hn]
    rfl
  | @float c d digits tail rest hd hf hclosed =>
    have ha : _ ∧ analysis toDouble escape c (digits ++ d :: (tail ++ rest)) = _ :=
      analysis_number hd.start _
    refine ⟨[.scalar (.float (toDouble (c :: (digits ++ d :: tail))))], getTokens_cons ha.1 ?_⟩
    rw [ha.2, scanNumber_fraction hd hf, floatValue_closed hclosed]
    rfl

variable (toDouble) in
theorem getTokens_refused (h : Refused escape text) :
    ∃ e, e ≠ .exception ∧ getTokens toDouble escape text = .error e := by
  cases h with
  | @string body hb =>
    refine ⟨.hang, by simp, getTokens_error rfl ?_⟩
    rw [analysis, if_pos rfl, stringLiteral, scanString_open hb]
    rfl
  | @surrogate raw rest he hb hs =>
    rw [quoted_append]
    refine ⟨.rangeError, by simp, getTokens_error rfl ?_⟩
    rw [analysis_quoted hb, he, decode, if_pos rfl, escapeString_surrogateFirst hs]
    rfl
  | @blockComment body hb =>
    have ha : analysis toDouble escape '/'.toUInt8 ('*'.toUInt8 :: body) = .error .hang := by
      rw [analysis, if_neg (by decide), if_pos rfl, comment, if_neg (by decide), if_pos rfl,
        skipBlock_open hb]
      rfl
    exact ⟨.hang, by simp, getTokens_error rfl ha⟩
  | @integer c digits rest hd hf hn =>
    have ha : _ ∧ analysis toDouble escape c (digits ++ rest) = _ := analysis_number hd.start _
    refine ⟨.overflow, by simp, getTokens_error ha.1 ?_⟩
    rw [ha.2, scanNumber_integer hd hf, toInt_not_fits hn]
    rfl

end Reading

section Outcomes

variable {c : UInt8} {text : Bytes}

/-- A call of `analysis` behind `c` reads a lexeme, or meets a literal that is refused, or
raises an error of the library. -/
def Outcome (escape : Bool) (c : UInt8) (text : Bytes)
    (x : Except Fault (Option (Token F) × Bytes)) : Prop :=
  (∃ token rest, x = .ok (token, rest) ∧ Lexeme escape (c :: text) rest) ∨
    Refused escape (c :: text) ∨ x = .error .exception

theorem outcome_string : Outcome escape quote text (stringLiteral escape text : Except Fault
    (Option (Token F) × Bytes)) := by
  rcases scanString_cases text with ⟨raw, rest, rfl, hb⟩ | hopen | hx
  · have hliteral : (stringLiteral escape (raw ++ quote :: rest) : Except Fault
        (Option (Token F) × Bytes)) =
        decode escape raw >>= fun s ↦ .ok (some (.scalar (.string s)), rest) := by
      rw [stringLiteral, scanString_body hb]
      rfl
    rw [hliteral, Outcome, ← quoted_append]
    cases escape with
    | false => exact .inl ⟨_, rest, rfl, .string hb (by simp)⟩
    | true =>
      rcases escapeString_cases hb with hd | hs | hx
      · obtain ⟨s, hs⟩ := escapeString_decodable hd
        refine .inl ⟨some (.scalar (.string s)), rest, ?_, .string hb fun _ ↦ hd⟩
        rw [decode, if_pos rfl, hs]
        rfl
      · exact .inr (.inl (.surrogate rfl hb hs))
      · refine .inr (.inr ?_)
        rw [decode, if_pos rfl, hx]
        rfl
  · exact .inr (.inl (.string hopen))
  · refine .inr (.inr ?_)
    rw [stringLiteral, hx]
    rfl

theorem outcome_comment : Outcome escape '/'.toUInt8 text (comment text : Except Fault
    (Option (Token F) × Bytes)) := by
  cases text with
  | nil => exact .inr (.inr rfl)
  | cons d text =>
    by_cases hslash : d = '/'.toUInt8
    · subst hslash
      obtain ⟨body, rest, rfl, hb, hr⟩ := line_cases text
      refine .inl ⟨none, rest.tail, ?_, .lineComment hb hr⟩
      rw [comment, if_pos rfl, skipLine_body hb hr]
    · by_cases hstar : d = '*'.toUInt8
      · subst hstar
        rcases skipBlock_cases text with ⟨body, rest, rfl, hb⟩ | hopen
        · refine .inl ⟨none, rest, ?_, .blockComment hb⟩
          rw [comment, if_neg (by decide), if_pos rfl, skipBlock_closed hb]
          rfl
        · exact .inr (.inl (.blockComment hopen))
      · refine .inr (.inr ?_)
        rw [comment, if_neg hslash, if_neg hstar]

theorem outcome_identifier {word rest : String} (hw : word ∈ ["true", "false", "null"])
    (hsplit : ascii word = c :: ascii rest) (value : Scalar F) :
    Outcome escape c text (scanIdentifier rest value text) := by
  unfold scanIdentifier
  dsimp only
  split_ifs with hprefix
  · obtain ⟨t, rfl⟩ := hprefix
    refine .inl ⟨some (.scalar value), t, ?_, ?_⟩
    · rw [List.drop_left]
    · rw [← List.cons_append, ← hsplit]
      exact .word hw
  · exact .inr (.inr rfl)

theorem outcome_number (hc : isNumber c || isSign c) : Outcome escape c text
    (scanNumber toDouble c text >>= fun x ↦ .ok (some (.scalar x.1), x.2)) := by
  by_cases hzero : c = '0'.toUInt8 ∧ text.head?.any isNumber
  · refine .inr (.inr ?_)
    rw [Lexing.scanNumber_eq, if_pos hzero]
    rfl
  have hd : Digits c (text.takeWhile isNumber) := by
    refine ⟨hc, fun x hx ↦ List.mem_takeWhile_imp hx, fun h0 ↦ ?_⟩
    cases text with
    | nil => rfl
    | cons d text => exact List.takeWhile_cons_of_neg fun hn ↦ hzero ⟨h0, hn⟩
  have hhead := List.head?_dropWhile_not isNumber text
  have hsplit : text = text.takeWhile isNumber ++ text.dropWhile isNumber :=
    List.takeWhile_append_dropWhile.symm
  have hinteger (hf : Follows (text.dropWhile isNumber)) : Outcome escape c text
      (scanNumber toDouble c text >>= fun x ↦ .ok (some (.scalar x.1), x.2)) := by
    rw [hsplit]
    by_cases hn : Fits c (text.takeWhile isNumber)
    · refine .inl ⟨some (.scalar (.number (integer c (text.takeWhile isNumber)))), _, ?_,
        .integer hd hf hn⟩
      rw [scanNumber_integer hd hf, toInt_fits hn]
      rfl
    · exact .inr (.inl (.integer hd hf hn))
  cases hrest : text.dropWhile isNumber with
  | nil =>
    rw [hrest] at hinteger
    exact hinteger (by simp [Follows])
  | cons d tail =>
    rw [hrest] at hhead hsplit hinteger
    by_cases hpoint : d = '.'.toUInt8 ∨ isExponent d
    · have htail : tail = tail.takeWhile Lexing.isFraction ++ tail.dropWhile Lexing.isFraction :=
        List.takeWhile_append_dropWhile.symm
      have hf : Fraction d (tail.takeWhile Lexing.isFraction)
          (tail.dropWhile Lexing.isFraction) := by
        refine ⟨hpoint, fun x hx ↦ List.mem_takeWhile_imp hx, fun x hx ↦ ?_⟩
        have h := List.head?_dropWhile_not Lexing.isFraction tail
        rw [hx] at h
        simpa using h
      rw [hsplit, htail]
      by_cases hclosed : Closed d (tail.takeWhile Lexing.isFraction)
      · refine .inl ⟨some (.scalar (.float (toDouble (c :: (text.takeWhile isNumber ++
          d :: tail.takeWhile Lexing.isFraction))))), _, ?_, .float hd hf hclosed⟩
        rw [scanNumber_fraction hd hf, floatValue_closed hclosed]
        rfl
      · refine .inr (.inr ?_)
        rw [scanNumber_fraction hd hf, floatValue_not_closed hclosed]
        rfl
    · apply hinteger
      intro x hx
      obtain rfl : d = x := Option.some.inj hx
      rw [not_or] at hpoint
      exact ⟨by simpa using hhead, hpoint.1, by simpa using hpoint.2⟩

variable (toDouble escape) in
theorem outcome_analysis (c : UInt8) (text : Bytes) :
    Outcome escape c text (analysis toDouble escape c text) := by
  rw [analysis]
  split_ifs with hquote hslash ht hf hn
  · rw [hquote]
    exact outcome_string
  · rw [hslash]
    exact outcome_comment
  · have hword : ascii "true" = c :: ascii "rue" := by rw [ht]; rfl
    exact outcome_identifier (by decide) hword _
  · have hword : ascii "false" = c :: ascii "alse" := by rw [hf]; rfl
    exact outcome_identifier (by decide) hword _
  · have hword : ascii "null" = c :: ascii "ull" := by rw [hn]; rfl
    exact outcome_identifier (by decide) hword _
  · have hkeys : (JsonLexer.punctuation (F := F)).map Prod.fst = ascii ":,\x7b[\x7d]" := rfl
    cases hlookup : punctuation.lookup c with
    | some token =>
      have hmem : (c, token) ∈ punctuation (F := F) := by
        obtain ⟨l₁, l₂, hl, -⟩ := List.lookup_eq_some_iff.mp hlookup
        rw [hl]
        simp
      exact .inl ⟨some token, text, rfl, .punctuation (hkeys ▸ List.mem_map_of_mem hmem)⟩
    | none =>
      dsimp only
      rw [integerOrFloat]
      split_ifs with hnumber
      · exact outcome_number (by simpa using hnumber)
      · refine .inl ⟨none, text, rfl, .other ⟨?_, by simpa using hnumber⟩⟩
        have hne : c ∉ ascii ":,\x7b[\x7d]" := by
          intro hmem
          rw [← hkeys, List.mem_map] at hmem
          obtain ⟨p, hp, rfl⟩ := hmem
          simpa using List.lookup_eq_none_iff.mp hlookup p hp
        have hsplit : ascii "\"/tfn:,\x7b[\x7d]" = quote :: '/'.toUInt8 :: 't'.toUInt8 ::
          'f'.toUInt8 :: 'n'.toUInt8 :: ascii ":,\x7b[\x7d]" := rfl
        rw [hsplit]
        simp only [List.mem_cons, not_or]
        exact ⟨hquote, hslash, ht, hf, hn, hne⟩

end Outcomes

/-- What the lexer does not end with an error of the library, it has run into behind whole
lexemes. -/
theorem refused_of_error {e : Fault} (he : e ≠ .exception) {text : Bytes}
    (h : getTokens toDouble escape text = .error e) :
    ∃ rest, ReflTransGen (Lexeme escape) text rest ∧ Refused escape rest := by
  induction hn : text.length using Nat.strong_induction_on generalizing text with
  | _ n ih =>
    subst hn
    cases text with
    | nil =>
      rw [getTokens_empty] at h
      cases h
    | cons c text =>
      have hnext {rest : Bytes} (hlex : Lexeme escape (c :: text) rest)
          (hlen : rest.length ≤ text.length) (h : getTokens toDouble escape rest = .error e) :
          ∃ rest, ReflTransGen (Lexeme escape) (c :: text) rest ∧ Refused escape rest := by
        obtain ⟨rest', hreach, hrefused⟩ := ih rest.length (Nat.lt_succ_of_le hlen) h rfl
        exact ⟨rest', .head hlex hreach, hrefused⟩
      cases hw : isWhite c with
      | true =>
        have hother := startsNothing_of_isWhite hw
        rw [getTokens_other hother] at h
        exact hnext (.other hother) le_rfl h
      | false =>
        rw [getTokens_analysis hw] at h
        rcases outcome_analysis toDouble escape c text with ⟨token, rest, ha, hlex⟩ | hrefused | ha
        · rw [ha] at h
          change prepend token.toList (getTokens toDouble escape rest) = _ at h
          obtain h | ⟨ts, -, h⟩ := bind_eq_error.mp h
          · exact hnext hlex (analysis_length ha) h
          · cases h
        · exact ⟨c :: text, .refl, hrefused⟩
        · rw [ha] at h
          exact absurd (Except.error.inj h).symm he

variable (toDouble escape) in
/-- The lexer runs into a literal that it refuses, behind whole lexemes, when it does not
end with tokens or with an error of the library. -/
theorem getTokens_error_iff (text : Bytes) :
    (∃ e, e ≠ .exception ∧ getTokens toDouble escape text = .error e) ↔
      ∃ rest, ReflTransGen (Lexeme escape) text rest ∧ Refused escape rest := by
  constructor
  · rintro ⟨e, he, h⟩
    exact refused_of_error he h
  · rintro ⟨rest, hreach, hrefused⟩
    induction hreach using ReflTransGen.head_induction_on with
    | refl => exact getTokens_refused toDouble hrefused
    | head hlex _ ih =>
      obtain ⟨e, he, h⟩ := ih
      obtain ⟨ts, hts⟩ := getTokens_lexeme toDouble hlex
      refine ⟨e, he, ?_⟩
      rw [hts, h]
      rfl

namespace Lexing

variable (toDouble escape) in
/-- The lexer ends, with tokens or with an error of the library, unless it reaches a string
or a block comment that is not closed, half a surrogate pair or a number that is no `int`. -/
theorem terminates_iff (text : Bytes) :
    ((∃ tokens, Lib.Loop.Ends exit (turn toDouble escape) (init text) (.ok tokens)) ∨
      Lib.Loop.Ends exit (turn toDouble escape) (init text) (.error .exception)) ↔
    ¬ ∃ rest, ReflTransGen (Lexeme escape) text rest ∧ Refused escape rest := by
  rw [← getTokens_error_iff toDouble escape text, ends_init_iff]
  simp only [ends_init_iff]
  cases getTokens toDouble escape text with
  | ok tokens => simp
  | error e => simp [eq_comm]

/-- A string that is not closed is read for ever. -/
theorem not_terminates_string : ¬ ∀ text : Bytes,
    (∃ tokens, Lib.Loop.Ends exit (turn (fun _ ↦ (0 : ℕ)) true) (init text) (.ok tokens)) ∨
      Lib.Loop.Ends exit (turn (fun _ ↦ (0 : ℕ)) true) (init text) (.error .exception) := by
  intro h
  have hbody : Body (ascii "abc") := by
    refine .plain ?_ ?_ (.plain ?_ ?_ (.plain ?_ ?_ .nil))
    all_goals decide
  have hrefused : Refused true (quote :: ascii "abc") := .string hbody
  obtain ⟨e, he, hx⟩ := getTokens_refused (fun _ ↦ (0 : ℕ)) hrefused
  rcases h (quote :: ascii "abc") with ⟨tokens, h⟩ | h
  · rw [ends_init_iff, hx] at h
    cases h.1
  · rw [ends_init_iff, hx] at h
    exact he (Except.error.inj h.1)

end Lexing

end Socnet.Libjson
