import Socnet.Libjson.JsonText

namespace Socnet.Libjson

open JsonLexer Utility.EncodeUtil

variable {F : Type} {toDouble : Bytes → F} {escape : Bool}

/-- The white space that `ifs >> c` passes over. -/
def isSkipped (c : UInt8) : Bool := c = SP || (9 ≤ c && c ≤ 13)

/-- The characters of a file that `ifs >> c` extracts. -/
def extracted (file : Bytes) : Bytes := file.filter fun c ↦ !isSkipped c

/-- `JsonReader::JsonReader(ifs)`. -/
def readFile (file : Bytes) : Except Fault Bytes :=
  let s := extracted file
  if s.isEmpty then .error .exception else setBuffer s

namespace JsonParser

/-- `JsonParser(ifs, escape).parse()`. -/
def parseFile (toDouble : Bytes → F) (escape : Bool) (file : Bytes) : Except Fault (Json F) := do
  let text ← readFile file
  let tokens ← getTokens toDouble escape text
  parseTokens escape tokens

end JsonParser

section Strings

theorem extracted_cons_of_skipped {c : UInt8} (hc : isSkipped c = true) (s : Bytes) :
    extracted (c :: s) = extracted s := List.filter_cons_of_neg (by simp [hc])

theorem extracted_cons {c : UInt8} (hc : isSkipped c = false) (s : Bytes) :
    extracted (c :: s) = c :: extracted s := List.filter_cons_of_pos (by simp [hc])

theorem extracted_append (s t : Bytes) : extracted (s ++ t) = extracted s ++ extracted t :=
  List.filter_append s t

theorem extracted_eq_self {s : Bytes} (hs : ∀ c ∈ s, isSkipped c = false) : extracted s = s :=
  List.filter_eq_self.mpr fun c hc ↦ by simp [hs c hc]

theorem skipped_mem : ∀ n < 256, isSkipped n.toUInt8 → n.toUInt8 ∈ [SP, 9, 10, 11, 12, 13] := by
  decide +kernel

theorem mem_of_isSkipped {c : UInt8} (hc : isSkipped c = true) : c ∈ [SP, 9, 10, 11, 12, 13] := by
  simpa using skipped_mem c.toNat c.toNat_lt (by simpa using hc)

theorem isSkipped_eq_false {p : UInt8 → Bool} (hp : [SP, 9, 10, 11, 12, 13].any p = false)
    {c : UInt8} (hc : p c = true) : isSkipped c = false := by
  cases hskip : isSkipped c with
  | false => rfl
  | true => exact absurd hc (List.any_eq_false.mp hp c (mem_of_isSkipped hskip))

theorem isSkipped_of_isxdigit {c : UInt8} (hc : isxdigit c = true) : isSkipped c = false :=
  isSkipped_eq_false rfl hc

/-- Among the characters of a JSON string only the space is skipped. -/
theorem isSkipped_iff {c : UInt8} (hc : 32 ≤ c) : isSkipped c = true ↔ c = SP := by
  have hall : ∀ x ∈ [9, 10, 11, 12, 13], ¬ (32 : UInt8) ≤ x := by decide +kernel
  constructor
  · intro hskip
    rcases List.mem_cons.mp (mem_of_isSkipped hskip) with rfl | hmem
    · rfl
    · exact absurd hc (hall c hmem)
  · rintro rfl
    rfl

theorem extracted_escape {e : UInt8} (he : isSkipped e = false) (s : Bytes) :
    extracted (backslash :: e :: s) = backslash :: e :: extracted s := by
  rw [extracted_cons rfl, extracted_cons he]

theorem extracted_unicode {h : Bytes} (hh : ∀ c ∈ h, isxdigit c = true) (s : Bytes) :
    extracted (backslash :: 'u'.toUInt8 :: (h ++ s)) =
      backslash :: 'u'.toUInt8 :: (h ++ extracted s) := by
  rw [extracted_escape rfl, extracted_append,
    extracted_eq_self fun c hc ↦ isSkipped_of_isxdigit (hh c hc)]

theorem letter_not_skipped : ∀ e ∈ ascii "\"\\/bfnrt", isSkipped e = false ∧
    e ≠ 'u'.toUInt8 ∧ e ≠ 'x'.toUInt8 ∧ e ≠ SP := by decide +kernel

theorem StringText.extracted {raw : Bytes} (h : StringText raw) : StringText (extracted raw) := by
  induction h with
  | nil => exact .nil
  | @plain c s hc hq hb _ ih =>
    cases hskip : isSkipped c with
    | true =>
      rw [extracted_cons_of_skipped hskip]
      exact ih
    | false =>
      rw [extracted_cons hskip]
      exact .plain hc hq hb ih
  | escape he _ ih =>
    rw [extracted_escape (letter_not_skipped _ he).1]
    exact .escape he ih
  | unicode hlen hh _ ih =>
    rw [extracted_unicode hh]
    exact .unicode hlen hh ih

theorem body_hex {h s : Bytes} (hh : ∀ c ∈ h, isxdigit c = true) : Body (h ++ s) ↔ Body s := by
  refine ⟨Body.of_hex hh, fun hs ↦ ?_⟩
  induction h with
  | nil => exact hs
  | cons c h ih =>
    rw [List.forall_mem_cons] at hh
    refine .plain ?_ (ne_backslash_of_isxdigit hh.1) (ih hh.2)
    rintro rfl
    have hc := hh.1
    revert hc
    decide

theorem body_escape {e : UInt8} {s : Bytes} :
    Body (backslash :: e :: s) ↔ isValidNextEscapeCharacter e ∧ Body s := by
  constructor
  · intro h
    cases h with
    | plain _ hb _ => exact absurd rfl hb
    | escape he hs => exact ⟨he, hs⟩
  · exact fun h ↦ .escape h.1 h.2

theorem body_extracted {raw : Bytes} (h : StringText raw) : Body (extracted raw) ↔ Body raw := by
  induction h with
  | nil => exact Iff.rfl
  | @plain c s _ hq hb _ ih =>
    have hcons (t : Bytes) : Body (c :: t) ↔ Body t := ⟨Body.tail hb, .plain hq hb⟩
    cases hskip : isSkipped c with
    | true => rw [extracted_cons_of_skipped hskip, hcons, ih]
    | false => rw [extracted_cons hskip, hcons, hcons, ih]
  | escape he _ ih =>
    rw [extracted_escape (letter_not_skipped _ he).1, body_escape, body_escape, ih]
  | unicode _ hh _ ih =>
    rw [extracted_unicode hh, body_escape, body_escape, body_hex hh, body_hex hh, ih]

/-- What two strings are decoded to, one of which has `n` spaces more. -/
def Decoded (n : ℕ) (x y : Except Fault Bytes) : Prop :=
  (∃ e, x = .error e ∧ y = .error e) ∨
    ∃ s t, x = .ok s ∧ y = .ok t ∧ s.length = t.length + n

theorem Decoded.bind {n : ℕ} {x y : Except Fault Bytes} (h : Decoded n x y) (u : Bytes) :
    Decoded n (x >>= fun t ↦ .ok (u ++ t)) (y >>= fun t ↦ .ok (u ++ t)) := by
  rcases h with ⟨e, rfl, rfl⟩ | ⟨s, t, rfl, rfl, hlen⟩
  · exact .inl ⟨e, rfl, rfl⟩
  · refine .inr ⟨u ++ s, u ++ t, rfl, rfl, ?_⟩
    rw [List.length_append, List.length_append, hlen, Nat.add_assoc]

theorem escapeString_extracted {raw : Bytes} (h : StringText raw) :
    Decoded (raw.count SP) (escapeString raw) (escapeString (extracted raw)) := by
  induction h with
  | nil =>
    have hempty : escapeString [] = .ok [] := by rw [escapeString]
    exact .inr ⟨[], [], hempty, hempty, rfl⟩
  | @plain c s hc _ hb _ ih =>
    have hone (t : Bytes) : escapeString (c :: t) = escapeString t >>= fun v ↦ .ok ([c] ++ v) :=
      escapeString_cons hb t
    cases hskip : isSkipped c with
    | true =>
      rw [extracted_cons_of_skipped hskip, hone, (isSkipped_iff hc).mp hskip, List.count_cons_self]
      rcases ih with ⟨e, hx, hy⟩ | ⟨s', t, hx, hy, hlen⟩
      · rw [hx, hy]
        exact .inl ⟨e, rfl, rfl⟩
      · rw [hx, hy]
        refine .inr ⟨SP :: s', t, rfl, rfl, ?_⟩
        rw [List.length_cons, hlen, Nat.add_assoc]
    | false =>
      have hne : c ≠ SP := by
        intro hc
        rw [hc] at hskip
        cases hskip
      rw [extracted_cons hskip, hone, hone, List.count_cons_of_ne hne]
      exact ih.bind [c]
  | @escape e s he _ ih =>
    obtain ⟨hskip, hu, hx, hne⟩ := letter_not_skipped e he
    have hone (t : Bytes) : escapeString (backslash :: e :: t) =
        escapeString t >>= fun v ↦ .ok ([escapeCharacter e] ++ v) := escapeString_other hu hx t
    rw [extracted_escape hskip, hone, hone, List.count_cons_of_ne (by decide),
      List.count_cons_of_ne hne]
    exact ih.bind _
  | @unicode h s hlen hh _ ih =>
    have hcount : h.count SP = 0 := by
      rw [List.count_eq_zero]
      intro hmem
      have hc := hh SP hmem
      revert hc
      decide
    rw [extracted_unicode hh, escapeString_unicode hlen hh, escapeString_unicode hlen hh,
      List.count_cons_of_ne (by decide), List.count_cons_of_ne (by decide), List.count_append,
      hcount, Nat.zero_add]
    cases unicodeHexToString h with
    | error e => exact .inl ⟨e, rfl, rfl⟩
    | ok u => exact ih.bind u

theorem StringText.isSkipped_iff {raw : Bytes} (h : StringText raw) :
    ∀ c ∈ raw, isSkipped c = true ↔ c = SP := by
  have hnone {c : UInt8} (hc : isSkipped c = false) : isSkipped c = true ↔ c = SP := by
    refine iff_of_false (by simp [hc]) fun h ↦ ?_
    rw [h] at hc
    cases hc
  induction h with
  | nil => simp
  | plain hc _ _ _ ih => exact List.forall_mem_cons.mpr ⟨Libjson.isSkipped_iff hc, ih⟩
  | escape he _ ih =>
    have hletter := hnone (letter_not_skipped _ he).1
    exact List.forall_mem_cons.mpr ⟨hnone rfl, List.forall_mem_cons.mpr ⟨hletter, ih⟩⟩
  | unicode _ hh _ ih =>
    refine List.forall_mem_cons.mpr ⟨hnone rfl, List.forall_mem_cons.mpr ⟨hnone rfl, ?_⟩⟩
    intro c hc
    rw [List.mem_append] at hc
    exact hc.elim (fun h ↦ hnone (isSkipped_of_isxdigit (hh c h))) (ih c)

theorem length_extracted {raw : Bytes} (h : StringText raw) :
    raw.length = (extracted raw).length + raw.count SP := by
  have hcount : raw.count SP = raw.countP isSkipped := by
    rw [List.count]
    apply List.countP_congr
    intro c hc
    rw [h.isSkipped_iff c hc, beq_iff_eq]
  rw [hcount, extracted, ← List.countP_eq_length_filter, Nat.add_comm,
    List.length_eq_countP_add_countP isSkipped]
  simp

theorem decode_extracted {raw : Bytes} (h : StringText raw) (escape : Bool) :
    Decoded (raw.count SP) (decode escape raw) (decode escape (extracted raw)) := by
  cases escape with
  | true => exact escapeString_extracted h
  | false => exact .inr ⟨raw, extracted raw, rfl, rfl, length_extracted h⟩

end Strings

/-- Both fail with one error, or both give a value, and one value just when `P` holds. -/
def Alike {α : Type} (x y : Except Fault α) (P : Prop) : Prop :=
  (∃ e, x = .error e ∧ y = .error e) ∨ ∃ a b, x = .ok a ∧ y = .ok b ∧ (a = b ↔ P)

namespace Alike

variable {α β : Type} {x y : Except Fault α} {P Q : Prop}

theorem refl (x : Except Fault α) (h : P) : Alike x x P := by
  cases x with
  | error e => exact .inl ⟨e, rfl, rfl⟩
  | ok a => exact .inr ⟨a, a, rfl, rfl, iff_of_true rfl h⟩

theorem congr (hx : Alike x y P) (h : P ↔ Q) : Alike x y Q := by
  rcases hx with he | ⟨a, b, ha, hb, hab⟩
  · exact .inl he
  · exact .inr ⟨a, b, ha, hb, hab.trans h⟩

theorem bind {f g : α → Except Fault β} (hx : Alike x y P)
    (hf : ∀ a b, x = .ok a → y = .ok b → Alike (f a) (g b) (a = b ∧ Q)) :
    Alike (x >>= f) (y >>= g) (P ∧ Q) := by
  rcases hx with ⟨e, rfl, rfl⟩ | ⟨a, b, rfl, rfl, hab⟩
  · exact .inl ⟨e, rfl, rfl⟩
  · exact (hf a b rfl rfl).congr (and_congr_left' hab)

/-- The next step tells the values apart. -/
theorem bind_iff {f g : α → Except Fault β} (hx : Alike x y P)
    (hf : ∀ a b, x = .ok a → y = .ok b → Alike (f a) (g b) (a = b)) :
    Alike (x >>= f) (y >>= g) P := by
  rcases hx with ⟨e, rfl, rfl⟩ | ⟨a, b, rfl, rfl, hab⟩
  · exact .inl ⟨e, rfl, rfl⟩
  · exact (hf a b rfl rfl).congr hab

theorem ok {a b : α} (h : a = b ↔ P) : Alike (.ok a) (.ok b) P := .inr ⟨a, b, rfl, rfl, h⟩

theorem eq_iff (hx : Alike x y P) : x = y ↔ P ∨ ∃ e, x = .error e := by
  rcases hx with ⟨e, rfl, rfl⟩ | ⟨a, b, rfl, rfl, hab⟩
  · exact iff_of_true rfl (.inr ⟨e, rfl⟩)
  · rw [Except.ok.injEq, hab]
    exact ⟨.inl, fun h ↦ h.resolve_right fun ⟨e, he⟩ ↦ by cases he⟩

end Alike

section Literals

/-- A literal of a JSON text that the library does not read. -/
inductive Scalar.Refused (escape : Bool) : Scalar Bytes → Prop
  | slash {raw : Bytes} : ¬ Body raw → Scalar.Refused escape (.string raw)
  | surrogate {raw : Bytes} : escape = true → SurrogateFirst raw →
      Scalar.Refused escape (.string raw)
  | integer {c : UInt8} {digits : Bytes} : Digits c digits → ¬ Fits c digits →
      Scalar.Refused escape (.float (c :: digits))

/-- The literal is no string that holds a space. -/
def Scalar.Spaceless : Scalar Bytes → Prop
  | .string raw => SP ∉ raw
  | _ => True

def Scalar.mapString (g : Bytes → Bytes) : Scalar F → Scalar F
  | .string s => .string (g s)
  | s => s

/-- Every escape of a JSON string can be decoded, but for half a surrogate pair. -/
theorem StringText.decodable_or {raw : Bytes} (h : StringText raw) :
    Decodable raw ∨ SurrogateFirst raw := by
  induction h with
  | nil => exact .inl (.here rfl)
  | plain _ _ hb _ ih => exact ih.imp (.plain hb) (.plain hb)
  | escape he _ ih =>
    obtain ⟨-, hu, hx, -⟩ := letter_not_skipped _ he
    exact ih.imp (.letter hu hx) (.letter hu hx)
  | @unicode h s hlen hh _ ih =>
    by_cases hsur : IsSurrogate h
    · exact .inr (.here ⟨h, s, rfl, hlen, hh, hsur⟩)
    · exact ih.imp (.unicode hlen hh hsur) (.unicode hlen hh hsur)

theorem read_string {raw : Bytes} (hb : Body raw) :
    Scalar.read toDouble escape (.string raw) = decode escape raw >>= fun s ↦ .ok (.string s) := by
  rw [Scalar.read, scanString_body hb]
  rfl

theorem not_exists_error {α : Type} (a : α) : ¬ ∃ e, (.ok a : Except Fault α) = .error e := by
  rintro ⟨e, he⟩
  cases he

theorem read_refused_string {raw : Bytes} (hs : StringText raw) :
    (∃ e, Scalar.read toDouble escape (.string raw) = .error e) ↔
      (Scalar.string raw).Refused escape := by
  rcases hs.body_or_refused with hb | hx
  · rw [read_string hb]
    constructor
    · rintro ⟨e, he⟩
      obtain he | ⟨v, -, he⟩ := bind_eq_error.mp he
      · cases escape with
        | false => cases he
        | true =>
          rcases hs.decodable_or with hd | hsur
          · obtain ⟨v, hv⟩ := escapeString_decodable hd
            rw [decode, if_pos rfl, hv] at he
            cases he
          · exact .surrogate rfl hsur
      · cases he
    · intro h
      cases h with
      | slash hslash => exact absurd hb hslash
      | surrogate hescape hsur =>
        rw [hescape, decode, if_pos rfl, escapeString_surrogateFirst hsur]
        exact ⟨_, rfl⟩
  · have hnot : ¬ Body raw := by
      intro hb
      have hok := scanString_body hb []
      rw [hx] at hok
      cases hok
    have hread : Scalar.read toDouble escape (.string raw) = .error .exception := by
      rw [Scalar.read, hx]
      rfl
    exact iff_of_true ⟨_, hread⟩ (.slash hnot)

theorem read_refused_number {raw : Bytes} (hs : NumberText raw) :
    (∃ e, Scalar.read toDouble escape (.float raw) = .error e) ↔
      (Scalar.float raw).Refused escape := by
  cases hs.parts with
  | @integer c digits hd =>
    rw [Scalar.read, scanNumber_integer_alone hd]
    by_cases hn : Fits c digits
    · rw [toInt_fits hn]
      refine iff_of_false (not_exists_error _) fun h ↦ ?_
      cases h with
      | integer _ hn' => exact hn' hn
    · rw [toInt_not_fits hn]
      exact iff_of_true ⟨_, rfl⟩ (.integer hd hn)
  | @float c d digits tail hd hf hclosed =>
    rw [Scalar.read, scanNumber_float_alone hd hf hclosed]
    refine iff_of_false (not_exists_error _) fun h ↦ ?_
    cases h with
    | integer hd' _ =>
      have hnumber := hd'.isNumber d (List.mem_append_right _ (.head _))
      rw [isNumber_eq_false hf.start] at hnumber
      cases hnumber

theorem read_refused_iff {s : Scalar Bytes} (hs : s.IsText) :
    (∃ e, s.read toDouble escape = .error e) ↔ s.Refused escape := by
  cases s with
  | string raw => exact read_refused_string hs
  | number n => exact hs.elim
  | float raw => exact read_refused_number hs
  | boolean b => exact iff_of_false (not_exists_error _) fun h ↦ by cases h
  | null => exact iff_of_false (not_exists_error _) fun h ↦ by cases h

/-- Without its spaces a literal is refused alike, or read as the same value if and only if
it is no string that holds one. -/
theorem read_extracted {s : Scalar Bytes} (hs : s.IsText) :
    Alike (s.read toDouble escape) ((s.mapString extracted).read toDouble escape) s.Spaceless := by
  cases s with
  | string raw =>
    have htext : StringText raw := hs
    have hmap : (Scalar.string raw : Scalar Bytes).mapString extracted = .string (extracted raw) :=
      rfl
    rw [hmap]
    by_cases hb : Body raw
    · rw [read_string hb, read_string ((body_extracted htext).mpr hb)]
      rcases decode_extracted htext escape with ⟨e, hx, hy⟩ | ⟨u, v, hx, hy, hlen⟩
      · rw [hx, hy]
        exact .inl ⟨e, rfl, rfl⟩
      · rw [hx, hy]
        refine .ok ⟨fun heq ↦ ?_, fun hspace ↦ ?_⟩
        · obtain rfl : u = v := Scalar.string.inj heq
          exact List.count_eq_zero.mp (Nat.left_eq_add.mp hlen)
        · have hraw : extracted raw = raw := by
            apply extracted_eq_self
            intro c hc
            cases hskip : isSkipped c with
            | false => rfl
            | true => exact absurd ((htext.isSkipped_iff c hc).mp hskip ▸ hc) hspace
          rw [hraw, hx] at hy
          rw [Except.ok.inj hy]
    · have hx := htext.body_or_refused.resolve_left hb
      have hy := htext.extracted.body_or_refused.resolve_left fun h ↦
        hb ((body_extracted htext).mp h)
      rw [Scalar.read, Scalar.read, hx, hy]
      exact .inl ⟨_, rfl, rfl⟩
  | number n => exact .refl _ trivial
  | float raw => exact .refl _ trivial
  | boolean b => exact .refl _ trivial
  | null => exact .refl _ trivial

end Literals

section Tokens

def Token.mapString (g : Bytes → Bytes) : Token F → Token F
  | .scalar s => .scalar (s.mapString g)
  | t => t

theorem token_read_extracted {t : Token Bytes} (ht : ∀ s, t = .scalar s → s.IsText) :
    Alike (t.read toDouble escape) ((t.mapString extracted).read toDouble escape)
      (∀ s, t = .scalar s → s.Spaceless) := by
  cases t with
  | scalar s =>
    have hspace : (∀ s', Token.scalar s = .scalar s' → s'.Spaceless) ↔ s.Spaceless := by
      constructor
      · exact fun h ↦ h s rfl
      · intro h s' hs'
        cases hs'
        exact h
    refine ((read_extracted (ht s rfl)).bind_iff fun a b _ _ ↦ .ok ?_).congr hspace.symm
    rw [Token.scalar.injEq]
  | objectBegin => exact .refl _ fun _ h ↦ by cases h
  | objectEnd => exact .refl _ fun _ h ↦ by cases h
  | arrayBegin => exact .refl _ fun _ h ↦ by cases h
  | arrayEnd => exact .refl _ fun _ h ↦ by cases h
  | keyValueSep => exact .refl _ fun _ h ↦ by cases h
  | sep => exact .refl _ fun _ h ↦ by cases h

theorem tokens_read_extracted (ts : List (Token Bytes)) (hs : ∀ s, .scalar s ∈ ts → s.IsText) :
    Alike (ts.mapM (Token.read toDouble escape))
      ((ts.map (Token.mapString extracted)).mapM (Token.read toDouble escape))
      (∀ s, .scalar s ∈ ts → s.Spaceless) := by
  induction ts with
  | nil => exact .refl _ (by simp)
  | cons t ts ih =>
    have hall : (∀ s, .scalar s ∈ t :: ts → s.Spaceless) ↔
        (∀ s, t = .scalar s → s.Spaceless) ∧ ∀ s, .scalar s ∈ ts → s.Spaceless := by
      constructor
      · exact fun h ↦ ⟨fun s hs ↦ h s (hs ▸ .head ts), fun s hs ↦ h s (.tail t hs)⟩
      · intro h s hs
        rcases List.mem_cons.mp hs with hs | hs
        · exact h.1 s hs.symm
        · exact h.2 s hs
    have htoken : Alike (t.read toDouble escape) _ _ :=
      token_read_extracted fun s h ↦ hs s (h ▸ .head ts)
    rw [List.map_cons, List.mapM_cons, List.mapM_cons]
    refine (htoken.bind fun k k' _ _ ↦ ?_).congr hall.symm
    rcases ih fun s h ↦ hs s (.tail t h) with ⟨e, hx, hy⟩ | ⟨ks, ks', hx, hy, hks⟩
    · rw [hx, hy]
      exact .inl ⟨e, rfl, rfl⟩
    · rw [hx, hy]
      refine .ok ?_
      rw [List.cons.injEq, hks]

theorem mapM_error_iff {f : Token Bytes → Except Fault (Token F)} (ts : List (Token Bytes)) :
    (∃ e, ts.mapM f = .error e) ↔ ∃ t ∈ ts, ∃ e, f t = .error e := by
  induction ts with
  | nil => exact iff_of_false (not_exists_error _) (by simp)
  | cons t ts ih =>
    rw [List.mapM_cons, List.exists_mem_cons_iff, ← ih]
    cases f t with
    | error e => exact iff_of_true ⟨e, rfl⟩ (.inl ⟨e, rfl⟩)
    | ok k =>
      cases ts.mapM f with
      | error e => exact iff_of_true ⟨e, rfl⟩ (.inr ⟨e, rfl⟩)
      | ok ks => exact iff_of_false (not_exists_error _) (by simp)

theorem token_read_error_iff {t : Token Bytes} (ht : ∀ s, t = .scalar s → s.IsText) :
    (∃ e, t.read toDouble escape = .error e) ↔ ∃ s, t = .scalar s ∧ s.Refused escape := by
  have hmark {k : Token F} (h : t.read toDouble escape = .ok k)
      (hne : ∀ s, t ≠ .scalar s) :
      (∃ e, t.read toDouble escape = .error e) ↔ ∃ s, t = .scalar s ∧ s.Refused escape := by
    rw [h]
    exact iff_of_false (not_exists_error _) fun ⟨s, hs, _⟩ ↦ hne s hs
  cases t with
  | scalar s =>
    have hread : (∃ e, s.read toDouble escape = .error e) ↔ _ := read_refused_iff (ht s rfl)
    constructor
    · rintro ⟨e, he⟩
      obtain he | ⟨v, -, he⟩ := bind_eq_error.mp he
      · exact ⟨s, rfl, hread.mp ⟨e, he⟩⟩
      · cases he
    · rintro ⟨s', hs, hrefused⟩
      cases hs
      obtain ⟨e, he⟩ := hread.mpr hrefused
      exact ⟨e, bind_eq_error.mpr (.inl he)⟩
  | objectBegin => exact hmark rfl (by simp)
  | objectEnd => exact hmark rfl (by simp)
  | arrayBegin => exact hmark rfl (by simp)
  | arrayEnd => exact hmark rfl (by simp)
  | keyValueSep => exact hmark rfl (by simp)
  | sep => exact hmark rfl (by simp)

theorem extracted_number {raw : Bytes} (h : NumberText raw) : extracted raw = raw := by
  have hfraction {x : UInt8} (hx : Lexing.isFraction x = true) : isSkipped x = false :=
    isSkipped_eq_false rfl hx
  have hdigits {c : UInt8} {digits : Bytes} (hd : Digits c digits) :
      ∀ x ∈ c :: digits, isSkipped x = false := by
    rw [List.forall_mem_cons]
    exact ⟨isSkipped_eq_false (p := fun x ↦ isNumber x || isSign x) rfl hd.start,
      fun x hx ↦ isSkipped_eq_false rfl (hd.isNumber x hx)⟩
  apply extracted_eq_self
  cases h.parts with
  | integer hd => exact hdigits hd
  | @float c d digits tail hd hf _ =>
    have hstart : isSkipped d = false :=
      isSkipped_eq_false (p := fun x ↦ x = '.'.toUInt8 || isExponent x) rfl
        (by simpa using hf.start)
    rw [← List.cons_append]
    intro x hx
    rcases List.mem_append.mp hx with hx | hx
    · exact hdigits hd x hx
    · rcases List.mem_cons.mp hx with rfl | hx
      · exact hstart
      · exact hfraction (hf.isFraction x hx)

theorem extracted_quoted (raw : Bytes) : extracted (quoted raw) = quoted (extracted raw) := by
  rw [quoted, extracted_cons rfl, extracted_append, quoted]
  rfl

theorem extracted_spelling {t : Token Bytes} (ht : ∀ s, t = .scalar s → s.IsText) :
    extracted t.spelling = (t.mapString extracted).spelling := by
  cases t with
  | scalar s =>
    have hs := ht s rfl
    cases s with
    | string raw => exact extracted_quoted raw
    | number n => exact hs.elim
    | float raw => exact extracted_number hs
    | boolean b =>
      cases b with
      | true => decide
      | false => decide
    | null => decide
  | objectBegin => decide
  | objectEnd => decide
  | arrayBegin => decide
  | arrayEnd => decide
  | keyValueSep => decide
  | sep => decide

theorem Spaced.extracted {ts : List (Token Bytes)} {text : Bytes} (h : Spaced ts text)
    (hs : ∀ s, .scalar s ∈ ts → s.IsText) :
    Spaced (ts.map (Token.mapString Libjson.extracted)) (Libjson.extracted text) := by
  have hwhite {w : Bytes} (hw : ∀ c ∈ w, c ∈ whiteSpace) : Libjson.extracted w = [] := by
    have hall : ∀ c ∈ whiteSpace, isSkipped c = true := by decide +kernel
    exact List.filter_eq_nil_iff.mpr fun c hc ↦ by simp [hall c (hw c hc)]
  induction h with
  | nil hw =>
    rw [hwhite hw]
    exact .nil (by simp)
  | @cons w t ts text hw _ ih =>
    have ht := extracted_spelling fun s h ↦ hs s (h ▸ .head ts)
    rw [extracted_append, extracted_append, hwhite hw, ht]
    exact .cons (by simp) (ih fun s h ↦ hs s (.tail t h))

end Tokens

section Trees

variable (g : Bytes → Bytes)

mutual

/-- The tree with every key and every string changed by `g`. -/
def Json.mapStrings : Json F → Json F
  | .object members => .object members.mapStrings
  | .array elements => .array elements.mapStrings
  | .string s => .string { s with value := g s.value }
  | .number n => .number n
  | .float x => .float x
  | .boolean b => .boolean b
  | .null => .null
  | .nullptr => .nullptr

def Members.mapStrings : Members F → Members F
  | .nil => .nil
  | .cons key value members =>
    .cons { key with value := g key.value } value.mapStrings members.mapStrings

def Elements.mapStrings : Elements F → Elements F
  | .nil => .nil
  | .cons value elements => .cons value.mapStrings elements.mapStrings

end

theorem Members.empty_mapStrings (m : Members F) : (m.mapStrings g).empty = m.empty := by
  cases m with
  | nil => rfl
  | cons key value members => rfl

theorem Elements.empty_mapStrings (e : Elements F) : (e.mapStrings g).empty = e.empty := by
  cases e with
  | nil => rfl
  | cons value elements => rfl

mutual

theorem Json.tokens_mapStrings (v : Json F) :
    (v.mapStrings g).tokens = v.tokens.map (Token.mapString g) := by
  cases v with
  | object members =>
    rw [Json.mapStrings, Json.tokens, Members.tokens_mapStrings members, Json.tokens, List.map_cons,
      List.map_append]
    rfl
  | array elements =>
    rw [Json.mapStrings, Json.tokens, Elements.tokens_mapStrings elements, Json.tokens, List.map_cons,
      List.map_append]
    rfl
  | string s => rfl
  | number n => rfl
  | float x => rfl
  | boolean b => rfl
  | null => rfl
  | nullptr => rfl

theorem Members.tokens_mapStrings (m : Members F) :
    (m.mapStrings g).tokens = m.tokens.map (Token.mapString g) := by
  cases m with
  | nil => rfl
  | cons key value members =>
    rw [Members.mapStrings, Members.tokens, Members.empty_mapStrings, Json.tokens_mapStrings value,
      Members.tokens_mapStrings members, Members.tokens, List.map_cons, List.map_cons,
      List.map_append]
    cases members.empty with
    | true => rfl
    | false => rfl

theorem Elements.tokens_mapStrings (e : Elements F) :
    (e.mapStrings g).tokens = e.tokens.map (Token.mapString g) := by
  cases e with
  | nil => rfl
  | cons value elements =>
    rw [Elements.mapStrings, Elements.tokens, Elements.empty_mapStrings,
      Json.tokens_mapStrings value, Elements.tokens_mapStrings elements, Elements.tokens,
      List.map_append]
    cases elements.empty with
    | true => rfl
    | false => rfl

end

mutual

theorem Json.noNull_mapStrings (v : Json F) (hv : v.NoNull) : (v.mapStrings g).NoNull := by
  cases v with
  | object members =>
    have hm := Members.noNull_mapStrings members (by simpa [Json.NoNull] using hv)
    simpa [Json.mapStrings, Json.NoNull] using hm
  | array elements =>
    have he := Elements.noNull_mapStrings elements (by simpa [Json.NoNull] using hv)
    simpa [Json.mapStrings, Json.NoNull] using he
  | string s => trivial
  | number n => trivial
  | float x => trivial
  | boolean b => trivial
  | null => trivial
  | nullptr => exact hv

theorem Members.noNull_mapStrings (m : Members F) (hm : m.NoNull) : (m.mapStrings g).NoNull := by
  cases m with
  | nil => trivial
  | cons key value members =>
    exact ⟨Json.noNull_mapStrings value hm.1, Members.noNull_mapStrings members hm.2⟩

theorem Elements.noNull_mapStrings (e : Elements F) (he : e.NoNull) : (e.mapStrings g).NoNull := by
  cases e with
  | nil => trivial
  | cons value elements =>
    exact ⟨Json.noNull_mapStrings value he.1, Elements.noNull_mapStrings elements he.2⟩

end

end Trees

theorem Scalar.IsText.extracted {s : Scalar Bytes} (hs : s.IsText) :
    (s.mapString extracted).IsText := by
  cases s with
  | string raw => exact StringText.extracted hs
  | number n => exact hs
  | float raw => exact hs
  | boolean b => exact hs
  | null => exact hs

namespace JsonText

open JsonParser

variable (d : JsonText)

/-- What is extracted of a file that holds a JSON text is a JSON text too. -/
def extracted : JsonText where
  text := Libjson.extracted d.text
  tree := d.tree.mapStrings Libjson.extracted
  noNull := d.tree.noNull_mapStrings _ d.noNull
  isText s hs := by
    rw [Json.tokens_mapStrings, List.mem_map] at hs
    obtain ⟨t, ht, hs⟩ := hs
    cases t with
    | scalar s' =>
      cases hs
      exact (d.isText s' ht).extracted
    | objectBegin => cases hs
    | objectEnd => cases hs
    | arrayBegin => cases hs
    | arrayEnd => cases hs
    | keyValueSep => cases hs
    | sep => cases hs
  spaced := by
    rw [Json.tokens_mapStrings]
    exact d.spaced.extracted d.isText

theorem getTokens_eq : getTokens toDouble escape d.text =
    d.tree.tokens.mapM (Token.read toDouble escape) := by
  have hnil : Delimited ([] : List (Token Bytes)) := ⟨by simp, .nil⟩
  have hapart := Json.apart_tokens d.tree hnil
  rw [List.append_nil] at hapart
  exact getTokens_spaced d.spaced d.isText hapart

theorem parse_eq (hlen : d.text.length < 2 ^ 31) : parse toDouble escape d.text =
    d.tree.tokens.mapM (Token.read toDouble escape) >>= parseTokens escape := by
  rw [parse, setBuffer_of_lt hlen, ← d.getTokens_eq]
  rfl

theorem parseTokens_read {ks : List (Token F)}
    (h : d.tree.tokens.mapM (Token.read toDouble escape) = .ok ks) :
    ∃ v, parseTokens escape ks = .ok v ∧ v.tokens = ks := by
  obtain ⟨v, hv, rfl⟩ := Json.exists_read d.tree d.noNull h
  exact ⟨v, parseTokens_written hv, rfl⟩

theorem tokens_ne_nil : d.tree.tokens ≠ [] := by
  have hnull := d.noNull
  cases htree : d.tree with
  | object members => simp [Json.tokens]
  | array elements => simp [Json.tokens]
  | string s => simp [Json.tokens]
  | number n => simp [Json.tokens]
  | float x => simp [Json.tokens]
  | boolean b => simp [Json.tokens]
  | null => simp [Json.tokens]
  | nullptr =>
    rw [htree] at hnull
    exact hnull.elim

theorem text_ne_nil : d.text ≠ [] := by
  intro hnil
  have htokens : getTokens (fun _ ↦ (0 : ℕ)) false d.text = _ := d.getTokens_eq
  rw [hnil, getTokens_empty] at htokens
  obtain ⟨t, ts, hts⟩ := List.exists_cons_of_ne_nil d.tokens_ne_nil
  rw [hts] at htokens
  obtain ⟨k, ks, -, -, h⟩ := mapM_cons_ok htokens.symm
  cases h

theorem parseFile_eq (hlen : d.text.length < 2 ^ 31) : parseFile toDouble escape d.text =
    d.extracted.tree.tokens.mapM (Token.read toDouble escape) >>= parseTokens escape := by
  have hle : d.extracted.text.length ≤ d.text.length := List.length_filter_le _ _
  have hne : ¬ (Libjson.extracted d.text).isEmpty = true := by
    rw [List.isEmpty_iff]
    exact d.extracted.text_ne_nil
  rw [← d.extracted.parse_eq (hle.trans_lt hlen), parseFile, readFile, if_neg hne]
  rfl

theorem parse_alike (hlen : d.text.length < 2 ^ 31) :
    Alike (parse toDouble escape d.text) (parseFile toDouble escape d.text)
      (∀ s, .scalar s ∈ d.tree.tokens → s.Spaceless) := by
  have htokens : d.extracted.tree.tokens = d.tree.tokens.map (Token.mapString Libjson.extracted) :=
    Json.tokens_mapStrings _ d.tree
  rw [d.parse_eq hlen, d.parseFile_eq hlen, htokens]
  refine (tokens_read_extracted d.tree.tokens d.isText).bind_iff fun ks ls hks hls ↦ ?_
  rw [← htokens] at hls
  obtain ⟨v, hv, htv⟩ := d.parseTokens_read hks
  obtain ⟨w, hw, htw⟩ := d.extracted.parseTokens_read hls
  rw [hv, hw]
  refine .ok ⟨fun h ↦ ?_, fun h ↦ ?_⟩
  · rw [← htv, ← htw, h]
  · rw [h, hw] at hv
    exact (Except.ok.inj hv).symm

theorem parse_error_iff (hlen : d.text.length < 2 ^ 31) :
    (∃ e, parse toDouble escape d.text = .error e) ↔
      ∃ s, .scalar s ∈ d.tree.tokens ∧ s.Refused escape := by
  have hread : (∃ e, parse toDouble escape d.text = .error e) ↔
      ∃ e, d.tree.tokens.mapM (Token.read toDouble escape) = .error e := by
    rw [d.parse_eq hlen]
    cases hks : d.tree.tokens.mapM (Token.read toDouble escape) with
    | error e => exact iff_of_true ⟨e, rfl⟩ ⟨e, rfl⟩
    | ok ks =>
      obtain ⟨v, hv, -⟩ := d.parseTokens_read hks
      refine iff_of_false ?_ (by simp)
      rintro ⟨e, he⟩
      have hok : parseTokens escape ks = .error e := he
      rw [hv] at hok
      cases hok
  rw [hread, mapM_error_iff]
  constructor
  · rintro ⟨t, ht, he⟩
    obtain ⟨s, rfl, hs⟩ := (token_read_error_iff fun s h ↦ d.isText s (h ▸ ht)).mp he
    exact ⟨s, ht, hs⟩
  · rintro ⟨s, hs, hrefused⟩
    refine ⟨.scalar s, hs, (token_read_error_iff fun s' h ↦ ?_).mpr ⟨s, rfl, hrefused⟩⟩
    exact d.isText s' (h ▸ hs)

variable (toDouble escape) in
/-- A file that holds a JSON text is parsed as the text is, if and only if no string of it
holds a space or both come to one error. -/
theorem parseFile_iff (hlen : d.text.length < 2 ^ 31) :
    parseFile toDouble escape d.text = parse toDouble escape d.text ↔
      (∀ raw, .scalar (.string raw) ∈ d.tree.tokens → SP ∉ raw) ∨
        ∃ s, .scalar s ∈ d.tree.tokens ∧ s.Refused escape := by
  have hspace : (∀ s, .scalar s ∈ d.tree.tokens → s.Spaceless) ↔
      ∀ raw, .scalar (.string raw) ∈ d.tree.tokens → SP ∉ raw := by
    constructor
    · exact fun h raw hraw ↦ h (.string raw) hraw
    · intro h s hs
      cases s with
      | string raw => exact h raw hs
      | number n => trivial
      | float raw => trivial
      | boolean b => trivial
      | null => trivial
  rw [eq_comm, (d.parse_alike hlen).eq_iff, hspace, d.parse_error_iff hlen]

/-- `["a b"]`. -/
def withSpace : JsonText where
  text := ascii "[\"a b\"]"
  tree := .array (.cons (.string ⟨ascii "a b", true⟩) .nil)
  noNull := ⟨trivial, trivial⟩
  isText s hs := by
    have hmem : s = .string (ascii "a b") := by
      simpa [Json.tokens, Elements.tokens, Elements.empty] using hs
    rw [hmem]
    exact .plain (by decide) (by decide) (by decide) <| .plain (by decide) (by decide) (by decide) <|
      .plain (by decide) (by decide) (by decide) .nil
  spaced := by
    have hnil : ∀ c ∈ ([] : Bytes), c ∈ whiteSpace := by simp
    have hend : Spaced [.arrayEnd] (ascii "]") := .cons hnil (.nil hnil)
    have hstring : Spaced [.scalar (.string (ascii "a b")), .arrayEnd] (ascii "\"a b\"]") :=
      .cons hnil hend
    have hbegin : Spaced [.arrayBegin, .scalar (.string (ascii "a b")), .arrayEnd]
        (ascii "[\"a b\"]") := .cons hnil hstring
    exact hbegin

theorem parseFile_iff_withSpace :
    parseFile (fun _ ↦ (0 : ℕ)) true withSpace.text = parse (fun _ ↦ 0) true withSpace.text ↔
      (∀ raw, .scalar (.string raw) ∈ withSpace.tree.tokens → SP ∉ raw) ∨
        ∃ s, .scalar s ∈ withSpace.tree.tokens ∧ s.Refused true :=
  parseFile_iff (fun _ ↦ 0) true withSpace (by decide)

/-- The space of the string is lost in a file. -/
theorem not_parseFile : ¬ ∀ d : JsonText,
    parseFile (fun _ ↦ (0 : ℕ)) true d.text = parse (fun _ ↦ 0) true d.text := by
  intro h
  have hstring : Token.scalar (.string (ascii "a b")) ∈ withSpace.tree.tokens := .tail _ (.head _)
  have hbody : Body (ascii "a b") := .plain (by decide) (by decide) <|
    .plain (by decide) (by decide) <| .plain (by decide) (by decide) .nil
  have hread : Token.read (fun _ ↦ (0 : ℕ)) true (.scalar (.string (ascii "a b"))) =
      .ok (.scalar (.string (ascii "a b"))) := by
    rw [Token.read, read_string hbody, decode, if_pos rfl, escapeString_of_not_mem (by decide)]
    rfl
  have htokens : withSpace.tree.tokens =
      [.arrayBegin, .scalar (.string (ascii "a b")), .arrayEnd] := rfl
  have hparse : parse (fun _ ↦ (0 : ℕ)) true withSpace.text =
      .ok (.array (.cons (.string ⟨ascii "a b", true⟩) .nil)) := by
    rw [withSpace.parse_eq (by decide), htokens, List.mapM_cons, List.mapM_cons, hread]
    rfl
  rcases (withSpace.parse_alike (by decide)).eq_iff.mp (h withSpace).symm with hspace | ⟨e, he⟩
  · exact hspace _ hstring (by decide)
  · rw [hparse] at he
    cases he

end JsonText

end Socnet.Libjson
