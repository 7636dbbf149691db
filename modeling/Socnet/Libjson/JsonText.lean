import Socnet.Libjson.Lexemes
import Socnet.Libjson.ParserSoundness

namespace Socnet.Libjson

open JsonLexer Utility.EncodeUtil

variable {F : Type} {toDouble : Bytes → F} {escape : Bool}

/-- What stands between the quotes of a JSON string. A control character has to be
escaped. -/
inductive StringText : Bytes → Prop
  | nil : StringText []
  | plain {c : UInt8} {s : Bytes} : 32 ≤ c → c ≠ quote → c ≠ backslash → StringText s →
      StringText (c :: s)
  | escape {e : UInt8} {s : Bytes} : e ∈ ascii "\"\\/bfnrt" → StringText s →
      StringText (backslash :: e :: s)
  | unicode {h s : Bytes} : h.length = 4 → (∀ c ∈ h, isxdigit c) → StringText s →
      StringText (backslash :: 'u'.toUInt8 :: (h ++ s))

/-- The digits of a JSON number: a zero, or digits that start with no zero. -/
inductive IntPart : Bytes → Prop
  | zero : IntPart (ascii "0")
  | digits {d : UInt8} {ds : Bytes} : isNumber d → d ≠ '0'.toUInt8 → (∀ x ∈ ds, isNumber x) →
      IntPart (d :: ds)

inductive FracPart : Bytes → Prop
  | none : FracPart []
  | frac {ds : Bytes} : ds ≠ [] → (∀ x ∈ ds, isNumber x) → FracPart ('.'.toUInt8 :: ds)

inductive ExpPart : Bytes → Prop
  | none : ExpPart []
  | exp {e : UInt8} {sign ds : Bytes} : isExponent e → sign ∈ [[], ascii "-", ascii "+"] →
      ds ≠ [] → (∀ x ∈ ds, isNumber x) → ExpPart (e :: (sign ++ ds))

inductive NumberText : Bytes → Prop
  | intro {minus int frac exp : Bytes} : minus ∈ [[], ascii "-"] → IntPart int → FracPart frac →
      ExpPart exp → NumberText (minus ++ int ++ (frac ++ exp))

/-- The literal of a value. The value of a string is what stands between its quotes, and a
number is kept as its text. -/
def Scalar.spelling : Scalar Bytes → Bytes
  | .string raw => quoted raw
  | .number n => intText n
  | .float raw => raw
  | .boolean b => if b then ascii "true" else ascii "false"
  | .null => ascii "null"

def Scalar.IsText : Scalar Bytes → Prop
  | .string raw => StringText raw
  | .number _ => False
  | .float raw => NumberText raw
  | .boolean _ => True
  | .null => True

def Token.spelling : Token Bytes → Bytes
  | .scalar s => s.spelling
  | .objectBegin => ascii "\x7b"
  | .objectEnd => ascii "\x7d"
  | .arrayBegin => ascii "["
  | .arrayEnd => ascii "]"
  | .keyValueSep => ascii ":"
  | .sep => ascii ","

/-- The white space of JSON: a space, a tab, a line feed or a carriage return. -/
def whiteSpace : Bytes := [SP, 9, LF, CR]

/-- Tokens with white space in front of them and behind them. -/
inductive Spaced : List (Token Bytes) → Bytes → Prop
  | nil {w : Bytes} : (∀ c ∈ w, c ∈ whiteSpace) → Spaced [] w
  | cons {w : Bytes} {t : Token Bytes} {ts : List (Token Bytes)} {text : Bytes} :
      (∀ c ∈ w, c ∈ whiteSpace) → Spaced ts text → Spaced (t :: ts) (w ++ (t.spelling ++ text))

/-- A valid JSON text, with the tree that it spells. -/
structure JsonText where
  text : Bytes
  tree : Json Bytes
  noNull : tree.NoNull
  isText : ∀ s, .scalar s ∈ tree.tokens → s.IsText
  spaced : Spaced tree.tokens text

section Numbers

/-- A number as the lexer takes it apart: digits, and what stands behind a point or an
exponent. -/
inductive NumberParts : Bytes → Prop
  | integer {c : UInt8} {digits : Bytes} : Digits c digits → NumberParts (c :: digits)
  | float {c d : UInt8} {digits tail : Bytes} : Digits c digits → Fraction d tail [] →
      Closed d tail → NumberParts (c :: (digits ++ d :: tail))

theorem digits_of_intPart {minus int : Bytes} (hm : minus ∈ [[], ascii "-"]) (hi : IntPart int) :
    ∃ c digits, minus ++ int = c :: digits ∧ Digits c digits := by
  have hint : ∀ x ∈ int, isNumber x = true := by
    cases hi with
    | zero => decide +kernel
    | digits hd _ hds => exact List.forall_mem_cons.mpr ⟨hd, hds⟩
  simp only [List.mem_cons, List.not_mem_nil, or_false] at hm
  obtain rfl | rfl := hm
  · cases hi with
    | zero => exact ⟨'0'.toUInt8, [], rfl, rfl, by simp, fun _ ↦ rfl⟩
    | @digits d ds hd h0 hds => exact ⟨d, ds, rfl, by simp [hd], hds, fun h ↦ absurd h h0⟩
  · exact ⟨'-'.toUInt8, int, rfl, rfl, hint, fun h ↦ absurd h (by decide)⟩

theorem isFraction_of_isNumber {x : UInt8} (hx : isNumber x = true) : Lexing.isFraction x := by
  simp [Lexing.isFraction, hx]

/-- Behind digits the last character is a digit. -/
theorem closed_of_digits {d : UInt8} {s ds : Bytes} (hne : ds ≠ [])
    (hds : ∀ x ∈ ds, isNumber x = true) : Closed d (s ++ ds) := by
  intro x hx
  have hlast : (d :: (s ++ ds)).getLast? = ds.getLast? :=
    List.getLast?_append_of_ne_nil (d :: s) hne
  have hnumber := hds x (List.mem_of_getLast? (hlast ▸ hx))
  constructor
  · intro hpoint
    rw [isNumber_eq_false (.inl hpoint)] at hnumber
    cases hnumber
  · intro he
    rw [isNumber_eq_false (.inr he)] at hnumber
    cases hnumber

theorem fraction_of_parts {frac exp : Bytes} (hf : FracPart frac) (he : ExpPart exp) :
    frac ++ exp = [] ∨ ∃ d tail, frac ++ exp = d :: tail ∧ Fraction d tail [] ∧ Closed d tail := by
  have hexp : ∀ x ∈ exp, Lexing.isFraction x = true := by
    cases he with
    | none => simp
    | @exp e sign ds he hs _ hds =>
      have hsign : ∀ s ∈ [[], ascii "-", ascii "+"], ∀ x ∈ s, Lexing.isFraction x = true := by
        decide +kernel
      rw [List.forall_mem_cons]
      refine ⟨by simp [Lexing.isFraction, he], fun x hx ↦ ?_⟩
      rw [List.mem_append] at hx
      exact hx.elim (hsign sign hs x) fun h ↦ isFraction_of_isNumber (hds x h)
  cases hf with
  | none =>
    cases he with
    | none => exact .inl rfl
    | @exp e sign ds he _ hne hds =>
      refine .inr ⟨e, sign ++ ds, rfl, ⟨.inr he, ?_, by simp⟩, closed_of_digits hne hds⟩
      exact fun x hx ↦ hexp x (.tail e hx)
  | @frac ds hne hds =>
    refine .inr ⟨'.'.toUInt8, ds ++ exp, rfl, ⟨.inl rfl, fun x hx ↦ ?_, by simp⟩, ?_⟩
    · rw [List.mem_append] at hx
      exact hx.elim (fun h ↦ isFraction_of_isNumber (hds x h)) (hexp x)
    · cases he with
      | none =>
        rw [List.append_nil]
        exact closed_of_digits (s := []) hne hds
      | @exp e sign ds' _ _ hne' hds' =>
        have hsplit : ds ++ e :: (sign ++ ds') = (ds ++ e :: sign) ++ ds' := by simp
        rw [hsplit]
        exact closed_of_digits hne' hds'

theorem NumberText.parts {raw : Bytes} (h : NumberText raw) : NumberParts raw := by
  obtain ⟨hm, hi, hf, he⟩ := h
  obtain ⟨c, digits, hint, hd⟩ := digits_of_intPart hm hi
  rw [hint]
  rcases fraction_of_parts hf he with hnil | ⟨d, tail, hcons, hfraction, hclosed⟩
  · rw [hnil, List.append_nil]
    exact .integer hd
  · rw [hcons, List.cons_append]
    exact .float hd hfraction hclosed

end Numbers

section Alone

variable {c : UInt8} {digits : Bytes} (hd : Digits c digits)
include hd

theorem scanNumber_integer_alone :
    scanNumber toDouble c digits = toInt c digits >>= fun n ↦ .ok (.number n, []) := by
  have h : scanNumber toDouble c (digits ++ []) = _ := scanNumber_integer hd (by simp [Follows])
  rwa [List.append_nil] at h

theorem scanNumber_float_alone {d : UInt8} {tail : Bytes} (hf : Fraction d tail [])
    (hclosed : Closed d tail) : scanNumber toDouble c (digits ++ d :: tail) =
      .ok (.float (toDouble (c :: (digits ++ d :: tail))), []) := by
  have h : scanNumber toDouble c (digits ++ d :: (tail ++ [])) = _ := scanNumber_fraction hd hf
  rwa [List.append_nil, floatValue_closed hclosed] at h

end Alone

section Strings

/-- The library refuses the escape of a slash, and takes every other JSON string. -/
theorem StringText.body_or_refused {raw : Bytes} (h : StringText raw) :
    Body raw ∨ ∀ rest, scanString (raw ++ quote :: rest) = .error .exception := by
  have hescape {e : UInt8} {s : Bytes} (he : isValidNextEscapeCharacter e = true)
      (hs : Body s ∨ ∀ rest, scanString (s ++ quote :: rest) = .error .exception) :
      Body (backslash :: e :: s) ∨
        ∀ rest, scanString (backslash :: e :: s ++ quote :: rest) = .error .exception := by
    rcases hs with hb | hx
    · exact .inl (.escape he hb)
    · refine .inr fun rest ↦ ?_
      rw [List.cons_append, List.cons_append, scanString.eq_def]
      dsimp only
      rw [if_neg (by decide), if_pos rfl, if_pos he, hx rest]
      rfl
  have hplain {c : UInt8} {s : Bytes} (hq : c ≠ quote) (hb : c ≠ backslash)
      (hs : Body s ∨ ∀ rest, scanString (s ++ quote :: rest) = .error .exception) :
      Body (c :: s) ∨ ∀ rest, scanString (c :: s ++ quote :: rest) = .error .exception := by
    rcases hs with h | hx
    · exact .inl (.plain hq hb h)
    · refine .inr fun rest ↦ ?_
      rw [List.cons_append, scanString.eq_def]
      dsimp only
      rw [if_neg hq, if_neg hb, hx rest]
      rfl
  induction h with
  | nil => exact .inl .nil
  | plain _ hq hb _ ih => exact hplain hq hb ih
  | @escape e s he _ ih =>
    by_cases hvalid : isValidNextEscapeCharacter e
    · exact hescape hvalid ih
    · refine .inr fun rest ↦ ?_
      rw [List.cons_append, List.cons_append, scanString.eq_def]
      dsimp only
      rw [if_neg (by decide), if_pos rfl, if_neg hvalid]
  | @unicode h s hlen hh _ ih =>
    have hne : ∀ c ∈ h, c ≠ quote ∧ c ≠ backslash := by
      intro c hc
      refine ⟨?_, ne_backslash_of_isxdigit (hh c hc)⟩
      rintro rfl
      have := hh _ hc
      revert this
      decide
    apply hescape (by decide)
    clear hh hlen
    induction h with
    | nil => exact ih
    | cons c h ih' =>
      rw [List.forall_mem_cons] at hne
      exact hplain hne.1.1 hne.1.2 (ih' hne.2)

end Strings

/-- What a text behind a literal starts with. -/
def Bounded (rest : Bytes) : Prop := ∀ x ∈ rest.head?, x ∈ ascii ":,\x7b[\x7d]" ++ whiteSpace

section Reading

variable {rest : Bytes}

theorem Bounded.stops (h : Bounded rest) :
    Follows rest ∧ ∀ x ∈ rest.head?, ¬ Lexing.isFraction x = true := by
  have hall : ∀ x ∈ ascii ":,\x7b[\x7d]" ++ whiteSpace, (isNumber x = false ∧
      x ≠ '.'.toUInt8 ∧ isExponent x = false) ∧ ¬ Lexing.isFraction x = true := by decide +kernel
  exact ⟨fun x hx ↦ (hall x (h x hx)).1, fun x hx ↦ (hall x (h x hx)).2⟩

/-- The value of a literal that stands alone. -/
def Scalar.read (toDouble : Bytes → F) (escape : Bool) : Scalar Bytes → Except Fault (Scalar F)
  | .string raw => do
    let (raw, _) ← scanString (raw ++ [quote])
    let s ← decode escape raw
    .ok (.string s)
  | .number n => .ok (.number n)
  | .float [] => .error .exception
  | .float (c :: text) => do
    let (value, _) ← scanNumber toDouble c text
    .ok value
  | .boolean b => .ok (.boolean b)
  | .null => .ok .null

theorem read_number {c : UInt8} {text : Bytes} (hc : isNumber c || isSign c)
    (hscan : ∀ {rest}, Bounded rest → scanNumber toDouble c (text ++ rest) =
      scanNumber toDouble c text >>= fun x ↦ .ok (x.1, rest)) (hb : Bounded rest) :
    getTokens toDouble escape (c :: text ++ rest) =
      Scalar.read toDouble escape (.float (c :: text)) >>= fun v ↦
        prepend [.scalar v] (getTokens toDouble escape rest) := by
  have ha : isWhite c = false ∧ analysis toDouble escape c (text ++ rest) = _ :=
    analysis_number hc (text ++ rest)
  rw [List.cons_append, getTokens_analysis ha.1, ha.2, hscan hb, Scalar.read]
  cases scanNumber toDouble c text with
  | error e => rfl
  | ok x => rfl

/-- A literal is read in front of other text as it is read alone. -/
theorem read_spelling {s : Scalar Bytes} (hs : s.IsText) (hb : Bounded rest) :
    getTokens toDouble escape (s.spelling ++ rest) = s.read toDouble escape >>= fun v ↦
      prepend [.scalar v] (getTokens toDouble escape rest) := by
  cases s with
  | string raw =>
    have hquoted : getTokens toDouble escape (Scalar.spelling (.string raw) ++ rest) =
        getTokens toDouble escape (quote :: (raw ++ quote :: rest)) := by
      rw [Scalar.spelling, quoted_append]
    rw [hquoted, getTokens_analysis rfl, analysis, if_pos rfl, stringLiteral, Scalar.read]
    rcases StringText.body_or_refused hs with hbody | hx
    · rw [scanString_body hbody, scanString_body hbody]
      change (decode escape raw >>= _) >>= _ = (decode escape raw >>= _) >>= _
      cases decode escape raw with
      | error e => rfl
      | ok v => rfl
    · rw [hx, hx]
      rfl
  | number n => exact hs.elim
  | float raw =>
    obtain ⟨hfollows, hstop⟩ := hb.stops
    cases NumberText.parts hs with
    | @integer c digits hd =>
      refine read_number hd.start (fun {rest} hb ↦ ?_) hb
      rw [scanNumber_integer hd hb.stops.1, scanNumber_integer_alone hd]
      cases toInt c digits with
      | error e => rfl
      | ok n => rfl
    | @float c d digits tail hd hf hclosed =>
      refine read_number hd.start (fun {rest} hb ↦ ?_) hb
      have hf' : Fraction d tail rest := ⟨hf.start, hf.isFraction, hb.stops.2⟩
      rw [List.append_assoc, List.cons_append, scanNumber_fraction hd hf',
        floatValue_closed hclosed, scanNumber_float_alone hd hf hclosed]
      rfl
  | boolean b =>
    cases b with
    | true => exact getTokens_identifier (c := 't'.toUInt8) rfl fun _ ↦ rfl
    | false => exact getTokens_identifier (c := 'f'.toUInt8) rfl fun _ ↦ rfl
  | null => exact getTokens_identifier (c := 'n'.toUInt8) rfl fun _ ↦ rfl

def Token.read (toDouble : Bytes → F) (escape : Bool) : Token Bytes → Except Fault (Token F)
  | .scalar s => do
    let v ← s.read toDouble escape
    .ok (.scalar v)
  | .objectBegin => .ok .objectBegin
  | .objectEnd => .ok .objectEnd
  | .arrayBegin => .ok .arrayBegin
  | .arrayEnd => .ok .arrayEnd
  | .keyValueSep => .ok .keyValueSep
  | .sep => .ok .sep

def Token.isScalar : Token F → Bool
  | .scalar _ => true
  | _ => false

theorem getTokens_token {t : Token Bytes} (ht : ∀ s, t = .scalar s → s.IsText)
    (hb : t.isScalar = true → Bounded rest) :
    getTokens toDouble escape (t.spelling ++ rest) = t.read toDouble escape >>= fun k ↦
      prepend [k] (getTokens toDouble escape rest) := by
  cases t with
  | scalar s =>
    have hs : getTokens toDouble escape (s.spelling ++ rest) = _ := read_spelling (ht s rfl) (hb rfl)
    rw [Token.spelling, hs, Token.read]
    cases s.read toDouble escape with
    | error e => rfl
    | ok v => rfl
  | objectBegin => exact getTokens_punctuation objectBegin_mem
  | objectEnd => exact getTokens_punctuation objectEnd_mem
  | arrayBegin => exact getTokens_punctuation arrayBegin_mem
  | arrayEnd => exact getTokens_punctuation arrayEnd_mem
  | keyValueSep => exact getTokens_punctuation colon_mem
  | sep => exact getTokens_punctuation comma_mem

theorem getTokens_whiteSpace {w : Bytes} (hw : ∀ c ∈ w, c ∈ whiteSpace) (rest : Bytes) :
    getTokens toDouble escape (w ++ rest) = getTokens toDouble escape rest := by
  have hall : ∀ c ∈ whiteSpace, StartsNothing c := by
    unfold StartsNothing
    decide +kernel
  induction w with
  | nil => rfl
  | cons c w ih =>
    rw [List.forall_mem_cons] at hw
    rw [List.cons_append, getTokens_other (hall c hw.1), ih hw.2]

end Reading

section Apart

/-- No two values stand next to each other. -/
def Apart (ts : List (Token F)) : Prop :=
  ts.IsChain fun t t' ↦ t.isScalar = true → t'.isScalar = false

/-- What can stand behind a value. -/
def Delimited (next : List (Token F)) : Prop :=
  (∀ t ∈ next.head?, t.isScalar = false) ∧ Apart next

variable {next : List (Token F)}

theorem Apart.mark {t : Token F} (ht : t.isScalar = false) (h : Apart next) : Apart (t :: next) := by
  refine List.isChain_cons.mpr ⟨fun t' _ hs ↦ ?_, h⟩
  rw [ht] at hs
  cases hs

theorem Delimited.mark {t : Token F} (ht : t.isScalar = false) (h : Apart next) :
    Delimited (t :: next) := by
  refine ⟨fun t' ht' ↦ ?_, h.mark ht⟩
  obtain rfl : t = t' := Option.some.inj ht'
  exact ht

theorem Delimited.scalar (s : Scalar F) (h : Delimited next) : Apart (.scalar s :: next) :=
  List.isChain_cons.mpr ⟨fun t ht _ ↦ h.1 t ht, h.2⟩

mutual

theorem Json.apart_tokens (v : Json F) {next : List (Token F)} (h : Delimited next) :
    Apart (v.tokens ++ next) := by
  cases v with
  | object members =>
    have hm := Members.apart_tokens members (.mark (t := .objectEnd) rfl h.2)
    rw [Json.tokens, List.cons_append, List.append_assoc]
    exact hm.mark rfl
  | array elements =>
    have he := Elements.apart_tokens elements (.mark (t := .arrayEnd) rfl h.2)
    rw [Json.tokens, List.cons_append, List.append_assoc]
    exact he.mark rfl
  | string s => exact h.scalar _
  | number n => exact h.scalar _
  | float x => exact h.scalar _
  | boolean b => exact h.scalar _
  | null => exact h.scalar _
  | nullptr => exact h.2

theorem Members.apart_tokens (m : Members F) {next : List (Token F)} (h : Delimited next) :
    Apart (m.tokens ++ next) := by
  cases m with
  | nil => exact h.2
  | cons key value members =>
    have htail : Delimited ((if members.empty then [] else .sep :: members.tokens) ++ next) := by
      split_ifs
      · exact h
      · exact .mark rfl (Members.apart_tokens members h)
    have hv := Json.apart_tokens value htail
    rw [Members.tokens, List.cons_append, List.cons_append, List.append_assoc]
    exact (Delimited.mark rfl hv).scalar _

theorem Elements.apart_tokens (e : Elements F) {next : List (Token F)} (h : Delimited next) :
    Apart (e.tokens ++ next) := by
  cases e with
  | nil => exact h.2
  | cons value elements =>
    have htail : Delimited ((if elements.empty then [] else .sep :: elements.tokens) ++ next) := by
      split_ifs
      · exact h
      · exact .mark rfl (Elements.apart_tokens elements h)
    rw [Elements.tokens, List.append_assoc]
    exact Json.apart_tokens value htail

end

end Apart

theorem Spaced.bounded {ts : List (Token Bytes)} {text : Bytes} (h : Spaced ts text)
    (hhead : ∀ t ∈ ts.head?, t.isScalar = false) : Bounded text := by
  have hwhite {w rest : Bytes} (hw : ∀ c ∈ w, c ∈ whiteSpace) (hr : Bounded rest) :
      Bounded (w ++ rest) := by
    cases w with
    | nil => exact hr
    | cons c w =>
      intro x hx
      obtain rfl : c = x := Option.some.inj hx
      exact List.mem_append_right _ (hw c (.head w))
  cases h with
  | @nil w hw =>
    rw [← List.append_nil text]
    exact hwhite hw (by simp [Bounded])
  | @cons w t ts text hw _ =>
    apply hwhite hw
    have ht := hhead t rfl
    have hmark {c : UInt8} (hc : c ∈ ascii ":,\x7b[\x7d]") : Bounded ([c] ++ text) := by
      intro x hx
      obtain rfl : c = x := Option.some.inj hx
      exact List.mem_append_left _ hc
    cases t with
    | scalar s => cases ht
    | objectBegin => exact hmark (by decide)
    | objectEnd => exact hmark (by decide)
    | arrayBegin => exact hmark (by decide)
    | arrayEnd => exact hmark (by decide)
    | keyValueSep => exact hmark (by decide)
    | sep => exact hmark (by decide)

/-- The lexer reads the tokens of a text one by one, whatever the white space. -/
theorem getTokens_spaced {ts : List (Token Bytes)} {text : Bytes} (h : Spaced ts text)
    (hs : ∀ s, .scalar s ∈ ts → s.IsText) (ha : Apart ts) :
    getTokens toDouble escape text = ts.mapM (Token.read toDouble escape) := by
  induction h with
  | @nil w hw =>
    rw [← List.append_nil w, getTokens_whiteSpace hw, getTokens_empty]
    rfl
  | @cons w t ts text hw hrest ih =>
    obtain ⟨hnext, ha'⟩ := List.isChain_cons.mp ha
    have ht (s : Scalar Bytes) (h : t = .scalar s) : s.IsText := hs s (h ▸ .head ts)
    have hb (h : t.isScalar = true) : Bounded text := hrest.bounded fun t' ht' ↦ hnext t' ht' h
    rw [getTokens_whiteSpace hw, getTokens_token ht hb, ih (fun s h ↦ hs s (.tail t h)) ha',
      List.mapM_cons]
    cases t.read toDouble escape with
    | error e => rfl
    | ok k =>
      cases ts.mapM (Token.read toDouble escape) with
      | error e => rfl
      | ok ks => rfl

section Trees

variable {f : Token Bytes → Except Fault (Token F)}

theorem mapM_cons_ok {t : Token Bytes} {ts : List (Token Bytes)} {ks : List (Token F)}
    (h : (t :: ts).mapM f = .ok ks) : ∃ k ks', f t = .ok k ∧ ts.mapM f = .ok ks' ∧ ks = k :: ks' := by
  rw [List.mapM_cons] at h
  obtain ⟨k, hk, h⟩ := bind_eq_ok.mp h
  obtain ⟨ks', hks', h⟩ := bind_eq_ok.mp h
  cases h
  exact ⟨k, ks', hk, hks', rfl⟩

theorem mapM_append_ok {ts us : List (Token Bytes)} {ks : List (Token F)}
    (h : (ts ++ us).mapM f = .ok ks) :
    ∃ ks' ls, ts.mapM f = .ok ks' ∧ us.mapM f = .ok ls ∧ ks = ks' ++ ls := by
  rw [List.mapM_append] at h
  obtain ⟨ks', hks', h⟩ := bind_eq_ok.mp h
  obtain ⟨ls, hls, h⟩ := bind_eq_ok.mp h
  cases h
  exact ⟨ks', ls, hks', hls, rfl⟩

theorem Scalar.written_toJson (s : Scalar F) : (s.toJson escape).Written escape := by
  cases s with
  | string s => exact rfl
  | number n => trivial
  | float x => trivial
  | boolean b => trivial
  | null => trivial

theorem exists_read_scalar {s : Scalar Bytes} {ks : List (Token F)}
    (h : [Token.scalar s].mapM (Token.read toDouble escape) = .ok ks) :
    ∃ v : Json F, v.Written escape ∧ v.tokens = ks := by
  obtain ⟨k, ks', hk, hks', rfl⟩ := mapM_cons_ok h
  obtain ⟨v, -, hv⟩ := bind_eq_ok.mp hk
  cases hv
  cases hks'
  exact ⟨v.toJson escape, v.written_toJson, JsonParser.Scalar.tokens_toJson v⟩

mutual

/-- What is read of the tokens of a tree are the tokens of a tree. -/
theorem Json.exists_read (v : Json Bytes) (hv : v.NoNull) {ks : List (Token F)}
    (h : v.tokens.mapM (Token.read toDouble escape) = .ok ks) :
    ∃ v' : Json F, v'.Written escape ∧ v'.tokens = ks := by
  cases v with
  | object members =>
    obtain ⟨k, ks', hk, hks', rfl⟩ := mapM_cons_ok h
    obtain ⟨ks₁, ks₂, h₁, h₂, rfl⟩ := mapM_append_ok hks'
    obtain ⟨m, hw, rfl, -⟩ := Members.exists_read members (by simpa [Json.NoNull] using hv) h₁
    cases hk
    cases h₂
    exact ⟨.object m, by simpa [Json.Written] using hw, by rw [Json.tokens]; rfl⟩
  | array elements =>
    obtain ⟨k, ks', hk, hks', rfl⟩ := mapM_cons_ok h
    obtain ⟨ks₁, ks₂, h₁, h₂, rfl⟩ := mapM_append_ok hks'
    obtain ⟨e, hw, rfl, -⟩ := Elements.exists_read elements (by simpa [Json.NoNull] using hv) h₁
    cases hk
    cases h₂
    exact ⟨.array e, by simpa [Json.Written] using hw, by rw [Json.tokens]; rfl⟩
  | string s => exact exists_read_scalar h
  | number n => exact exists_read_scalar h
  | float x => exact exists_read_scalar h
  | boolean b => exact exists_read_scalar h
  | null => exact exists_read_scalar h
  | nullptr => exact hv.elim

theorem Members.exists_read (m : Members Bytes) (hm : m.NoNull) {ks : List (Token F)}
    (h : m.tokens.mapM (Token.read toDouble escape) = .ok ks) :
    ∃ m' : Members F, m'.Written escape ∧ m'.tokens = ks ∧ m'.empty = m.empty := by
  cases m with
  | nil =>
    cases h
    exact ⟨.nil, trivial, rfl, rfl⟩
  | cons key value members =>
    obtain ⟨hvalue, hmembers⟩ := hm
    rw [Members.tokens] at h
    obtain ⟨k, ks, hk, hvalues, rfl⟩ := mapM_cons_ok h
    obtain ⟨k', ks, hk', htail, rfl⟩ := mapM_cons_ok hvalues
    obtain ⟨ks₁, ks₂, h₁, h₂, rfl⟩ := mapM_append_ok htail
    obtain ⟨key', hkey⟩ : ∃ key', k = .scalar (.string key') := by
      obtain ⟨v, hv, hk⟩ := bind_eq_ok.mp hk
      cases hk
      obtain ⟨x, -, hv⟩ := bind_eq_ok.mp hv
      obtain ⟨s, -, hv⟩ := bind_eq_ok.mp hv
      cases hv
      exact ⟨s, rfl⟩
    cases hk'
    obtain ⟨v, hv, rfl⟩ := Json.exists_read value hvalue h₁
    subst hkey
    cases hempty : members.empty with
    | true =>
      rw [hempty, if_pos rfl] at h₂
      cases h₂
      exact ⟨.cons ⟨key', escape⟩ v .nil, ⟨rfl, hv, trivial⟩, rfl, rfl⟩
    | false =>
      rw [hempty, if_neg (by simp)] at h₂
      obtain ⟨k, ks, hsep, hrest, rfl⟩ := mapM_cons_ok h₂
      obtain ⟨m, hw, rfl, hm'⟩ := Members.exists_read members hmembers hrest
      cases hsep
      rw [hempty] at hm'
      refine ⟨.cons ⟨key', escape⟩ v m, ⟨rfl, hv, hw⟩, ?_, rfl⟩
      rw [Members.tokens, hm', if_neg (by simp)]

theorem Elements.exists_read (e : Elements Bytes) (he : e.NoNull) {ks : List (Token F)}
    (h : e.tokens.mapM (Token.read toDouble escape) = .ok ks) :
    ∃ e' : Elements F, e'.Written escape ∧ e'.tokens = ks ∧ e'.empty = e.empty := by
  cases e with
  | nil =>
    cases h
    exact ⟨.nil, trivial, rfl, rfl⟩
  | cons value elements =>
    obtain ⟨hvalue, helements⟩ := he
    rw [Elements.tokens] at h
    obtain ⟨ks₁, ks₂, h₁, h₂, rfl⟩ := mapM_append_ok h
    obtain ⟨v, hv, rfl⟩ := Json.exists_read value hvalue h₁
    cases hempty : elements.empty with
    | true =>
      rw [hempty, if_pos rfl] at h₂
      cases h₂
      exact ⟨.cons v .nil, ⟨hv, trivial⟩, rfl, rfl⟩
    | false =>
      rw [hempty, if_neg (by simp)] at h₂
      obtain ⟨k, ks, hsep, hrest, rfl⟩ := mapM_cons_ok h₂
      obtain ⟨e, hw, rfl, he'⟩ := Elements.exists_read elements helements hrest
      cases hsep
      rw [hempty] at he'
      refine ⟨.cons v e, ⟨hv, hw⟩, ?_, rfl⟩
      rw [Elements.tokens, he', if_neg (by simp)]

end

end Trees

end Socnet.Libjson
