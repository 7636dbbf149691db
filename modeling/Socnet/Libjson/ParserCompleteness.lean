import Socnet.Libjson.JsonParser

namespace Socnet.Libjson

variable {F : Type}

mutual

/-- A tree of objects, arrays, decoded strings, 32-bit integers, booleans and
nulls. -/
def Json.Plain : Json F → Prop
  | .object members => members.Plain
  | .array elements => elements.Plain
  | .string s => s.isEscaped = true
  | .number n => -2147483648 ≤ n ∧ n ≤ 2147483647
  | .boolean _ => True
  | .null => True
  | .float _ => False
  | .nullptr => False

def Members.Plain : Members F → Prop
  | .nil => True
  | .cons key value members => key.isEscaped = true ∧ value.Plain ∧ members.Plain

def Elements.Plain : Elements F → Prop
  | .nil => True
  | .cons value elements => value.Plain ∧ elements.Plain

end

variable {escape : Bool}

mutual

/-- A tree that a parser can return: no part is a null pointer, and the flag of its
strings is that of the lexer. -/
def Json.Written (escape : Bool) : Json F → Prop
  | .object members => members.Written escape
  | .array elements => elements.Written escape
  | .string s => s.isEscaped = escape
  | .number _ => True
  | .float _ => True
  | .boolean _ => True
  | .null => True
  | .nullptr => False

def Members.Written (escape : Bool) : Members F → Prop
  | .nil => True
  | .cons key value members =>
    key.isEscaped = escape ∧ value.Written escape ∧ members.Written escape

def Elements.Written (escape : Bool) : Elements F → Prop
  | .nil => True
  | .cons value elements => value.Written escape ∧ elements.Written escape

end

mutual

theorem Json.Plain.written (v : Json F) (hv : v.Plain) : v.Written true := by
  cases v with
  | object members =>
    have hm := Members.Plain.written members (by simpa [Json.Plain] using hv)
    simpa [Json.Written] using hm
  | array elements =>
    have he := Elements.Plain.written elements (by simpa [Json.Plain] using hv)
    simpa [Json.Written] using he
  | string s => exact hv
  | number n => trivial
  | boolean b => trivial
  | null => trivial
  | float x => exact hv.elim
  | nullptr => exact hv.elim

theorem Members.Plain.written (m : Members F) (hm : m.Plain) : m.Written true := by
  cases m with
  | nil => trivial
  | cons key value members =>
    obtain ⟨hkey, hvalue, hmembers⟩ := hm
    exact ⟨hkey, Json.Plain.written value hvalue, Members.Plain.written members hmembers⟩

theorem Elements.Plain.written (e : Elements F) (he : e.Plain) : e.Written true := by
  cases e with
  | nil => trivial
  | cons value elements =>
    exact ⟨Json.Plain.written value he.1, Elements.Plain.written elements he.2⟩

end

namespace JsonParser

/-- What follows a value in a container: a separator or a closing bracket. -/
def Delimits (next : List (Token F)) : Prop := ∀ s, missingSeparator (.scalar s) next = .ok ()

theorem Delimits.closure {next : List (Token F)} (h : Delimits next) :
    afterObjectArrayClosure next = .ok () := by
  have h := h .null
  cases next with
  | nil => rfl
  | cons t next =>
    cases t with
    | objectEnd => rfl
    | arrayEnd => rfl
    | sep => rfl
    | scalar _ => cases h
    | objectBegin => cases h
    | arrayBegin => cases h
    | keyValueSep => cases h

/-- The first token of a value passes the checks in front of it, and the switch
reads the value from there. -/
def ReadsValue (escape : Bool) (n : ℕ) (v : Json F) : Prop :=
  ∀ next, Delimits next → ∃ t ts, v.tokens = t :: ts ∧
    objectMissingValue (t :: (ts ++ next)) = .ok () ∧ missingSeparator t (ts ++ next) = .ok () ∧
    parseValue escape (parseJsonObject escape n) (parseJsonArray escape n) t (ts ++ next) = .ok (v, next)

theorem readsValue_scalar {n : ℕ} {s : Scalar F} {v : Json F} (hv : s.toJson escape = v)
    (ht : v.tokens = [.scalar s]) : ReadsValue escape n v := by
  intro next hd
  exact ⟨.scalar s, [], ht, rfl, hd s, by rw [← hv]; rfl⟩

theorem parseJsonObject_member {n : ℕ} {key : Bytes} {value : Json F} (hv : ReadsValue escape n value)
    {next : List (Token F)} (hd : Delimits next) {members : Members F} {next' : List (Token F)}
    (hm : parseJsonObject escape n next = .ok (members, next')) :
    parseJsonObject escape (n + 1) (.scalar (.string key) :: .keyValueSep :: (value.tokens ++ next)) =
      .ok (.cons ⟨key, escape⟩ value members, next') := by
  obtain ⟨t, ts, htokens, hstart, hsep, hparse⟩ := hv next hd
  rw [htokens, List.cons_append, parseJsonObject]
  simp [objectMissingSeparator, hstart, hsep, hparse, hm, bind, Except.bind]

theorem parseJsonArray_element {n : ℕ} {value : Json F} (hv : ReadsValue escape n value)
    {next : List (Token F)} (hd : Delimits next) {elements : Elements F} {next' : List (Token F)}
    (he : parseJsonArray escape n next = .ok (elements, next')) :
    parseJsonArray escape (n + 1) (value.tokens ++ next) = .ok (.cons value elements, next') := by
  obtain ⟨t, ts, htokens, hstart, hsep, hparse⟩ := hv next hd
  have hturn : parseJsonArray escape (n + 1) (t :: (ts ++ next)) =
      missingSeparator t (ts ++ next) >>= fun _ ↦
        parseValue escape (parseJsonObject escape n) (parseJsonArray escape n) t (ts ++ next) >>= fun x ↦
          parseJsonArray escape n x.2 >>= fun y ↦ .ok (.cons x.1 y.1, y.2) := by
    cases t with
    | scalar s => rfl
    | objectBegin => rfl
    | arrayBegin => rfl
    | objectEnd => cases hstart
    | arrayEnd => cases hstart
    | keyValueSep => cases hstart
    | sep => cases hstart
  rw [htokens, List.cons_append, hturn]
  simp [hsep, hparse, he, bind, Except.bind]

theorem afterObjectArray_of_value {cur : Token F} {next : List (Token F)}
    (h : objectMissingValue next = .ok ()) : afterObjectArray cur next = .ok () := by
  cases next with
  | nil => cases cur <;> rfl
  | cons t next =>
    cases t with
    | scalar s => cases cur <;> rfl
    | objectBegin => cases cur <;> rfl
    | arrayBegin => cases cur <;> rfl
    | objectEnd => cases h
    | arrayEnd => cases h
    | keyValueSep => cases h
    | sep => cases h

theorem afterSeparators_of_value {next : List (Token F)} (h : objectMissingValue next = .ok ()) :
    afterSeparators next = .ok () := by
  cases next with
  | nil => rfl
  | cons t next =>
    cases t with
    | scalar s => rfl
    | objectBegin => rfl
    | arrayBegin => rfl
    | objectEnd => cases h
    | arrayEnd => cases h
    | keyValueSep => cases h
    | sep => cases h

theorem objectMissingValue_tokens {v : Json F} (hv : v.Written escape) (next : List (Token F)) :
    objectMissingValue (v.tokens ++ next) = .ok () := by
  cases v with
  | object members => rfl
  | array elements => rfl
  | string s => rfl
  | number n => rfl
  | boolean b => rfl
  | null => rfl
  | float x => rfl
  | nullptr => exact hv.elim

theorem tokens_length_pos {v : Json F} (hv : v.Written escape) : 0 < v.tokens.length := by
  cases v with
  | object members => simp [Json.tokens]
  | array elements => simp [Json.tokens]
  | string s => simp [Json.tokens]
  | number n => simp [Json.tokens]
  | boolean b => simp [Json.tokens]
  | null => simp [Json.tokens]
  | float x => simp [Json.tokens]
  | nullptr => exact hv.elim

/-- A loop with a turn left goes over a separator. -/
theorem parseJsonObject_sep {n : ℕ} {m : Members F} {tokens next : List (Token F)}
    (hs : afterSeparators tokens = .ok ()) (h : parseJsonObject escape n tokens = .ok (m, next)) :
    parseJsonObject escape (n + 1) (.sep :: tokens) = .ok (m, next) := by
  rw [parseJsonObject, hs]
  exact h

theorem parseJsonArray_sep {n : ℕ} {e : Elements F} {tokens next : List (Token F)}
    (hs : afterSeparators tokens = .ok ()) (h : parseJsonArray escape n tokens = .ok (e, next)) :
    parseJsonArray escape (n + 1) (.sep :: tokens) = .ok (e, next) := by
  rw [parseJsonArray, hs]
  exact h

theorem delimits_sep (next : List (Token F)) : Delimits (.sep :: next) := fun _ ↦ rfl
theorem delimits_objectEnd (next : List (Token F)) : Delimits (.objectEnd :: next) := fun _ ↦ rfl
theorem delimits_arrayEnd (next : List (Token F)) : Delimits (.arrayEnd :: next) := fun _ ↦ rfl

mutual

theorem Json.readsValue (v : Json F) (hv : v.Written escape) {n : ℕ} (hn : v.tokens.length ≤ n + 1) :
    ReadsValue escape n v := by
  cases v with
  | object members =>
    intro next hd
    rw [Json.tokens, List.length_cons, List.length_append, List.length_singleton] at hn
    have hm := Members.parse_tokens members (by simpa [Json.Written] using hv)
      (Nat.le_of_succ_le_succ hn) hd.closure
    have hopen : afterObjectArray .objectBegin (members.tokens ++ .objectEnd :: next) = .ok () := by
      cases members with
      | nil => rfl
      | cons key value members => rfl
    refine ⟨.objectBegin, members.tokens ++ [.objectEnd], rfl, rfl, rfl, ?_⟩
    rw [List.append_assoc, List.singleton_append, parseValue, hopen]
    simp [hm, bind, Except.bind]
  | array elements =>
    intro next hd
    rw [Json.tokens, List.length_cons, List.length_append, List.length_singleton] at hn
    have he := Elements.parse_tokens elements (by simpa [Json.Written] using hv)
      (Nat.le_of_succ_le_succ hn) hd.closure
    have hopen : afterObjectArray .arrayBegin (elements.tokens ++ .arrayEnd :: next) = .ok () := by
      cases elements with
      | nil => rfl
      | cons value elements =>
        rw [Elements.tokens, List.append_assoc]
        have hv : value.Written escape := by simp_all [Json.Written, Elements.Written]
        exact afterObjectArray_of_value (objectMissingValue_tokens hv _)
    refine ⟨.arrayBegin, elements.tokens ++ [.arrayEnd], rfl, rfl, rfl, ?_⟩
    rw [List.append_assoc, List.singleton_append, parseValue, hopen]
    simp [he, bind, Except.bind]
  | string s =>
    obtain ⟨value, isEscaped⟩ := s
    obtain rfl : escape = isEscaped := by simpa [Json.Written, eq_comm] using hv
    exact readsValue_scalar (s := .string value) rfl rfl
  | number n => exact readsValue_scalar (s := .number n) rfl rfl
  | boolean b => exact readsValue_scalar (s := .boolean b) rfl rfl
  | null => exact readsValue_scalar (s := .null) rfl rfl
  | float x => exact readsValue_scalar (s := .float x) rfl rfl
  | nullptr => exact hv.elim

/-- The loop reads back the members whose tokens it is given. -/
theorem Members.parse_tokens (m : Members F) (hm : m.Written escape) {n : ℕ} {next : List (Token F)}
    (hn : m.tokens.length < n) (hd : afterObjectArrayClosure next = .ok ()) :
    parseJsonObject escape n (m.tokens ++ .objectEnd :: next) = .ok (m, next) := by
  have hend {k : ℕ} : parseJsonObject escape (k + 1) (.objectEnd :: next) = .ok (.nil, next) := by
    rw [parseJsonObject, hd]
    rfl
  cases m with
  | nil =>
    obtain ⟨k, rfl⟩ := Nat.exists_eq_succ_of_ne_zero (Nat.ne_of_gt hn)
    exact hend
  | cons key value members =>
    obtain ⟨hkey, hvalue, hmembers⟩ := hm
    obtain ⟨key, isEscaped⟩ := key
    obtain rfl : escape = isEscaped := hkey.symm
    rw [Members.tokens] at hn ⊢
    simp only [List.length_cons, List.length_append] at hn
    obtain ⟨k, rfl⟩ : ∃ k, n = k + 2 := ⟨n - 2, by omega⟩
    have hv := Json.readsValue value hvalue (n := k + 1) (by omega)
    rw [List.cons_append, List.cons_append, List.append_assoc]
    cases members with
    | nil => exact parseJsonObject_member hv (delimits_objectEnd next) hend
    | cons key' value' members' =>
      have hrest := Members.parse_tokens (.cons key' value' members') hmembers (n := k)
        (by simp [Members.empty] at hn; omega) hd
      refine parseJsonObject_member hv (delimits_sep _) ?_
      exact parseJsonObject_sep rfl hrest

theorem Elements.parse_tokens (e : Elements F) (he : e.Written escape) {n : ℕ} {next : List (Token F)}
    (hn : e.tokens.length < n) (hd : afterObjectArrayClosure next = .ok ()) :
    parseJsonArray escape n (e.tokens ++ .arrayEnd :: next) = .ok (e, next) := by
  have hend {k : ℕ} : parseJsonArray escape (k + 1) (.arrayEnd :: next) = .ok (.nil, next) := by
    rw [parseJsonArray, hd]
    rfl
  cases e with
  | nil =>
    obtain ⟨k, rfl⟩ := Nat.exists_eq_succ_of_ne_zero (Nat.ne_of_gt hn)
    exact hend
  | cons value elements =>
    obtain ⟨hvalue, helements⟩ := he
    rw [Elements.tokens] at hn ⊢
    simp only [List.length_append] at hn
    have hpos := tokens_length_pos hvalue
    obtain ⟨k, rfl⟩ : ∃ k, n = k + 2 := ⟨n - 2, by omega⟩
    have hv := Json.readsValue value hvalue (n := k + 1) (by omega)
    rw [List.append_assoc]
    cases elements with
    | nil => exact parseJsonArray_element hv (delimits_arrayEnd next) hend
    | cons value' elements' =>
      have hrest := Elements.parse_tokens (.cons value' elements') helements (n := k)
        (by simp [Elements.empty] at hn; omega) hd
      have hsep : afterSeparators ((Elements.cons value' elements').tokens ++ .arrayEnd :: next) =
          .ok () := by
        rw [Elements.tokens, List.append_assoc]
        exact afterSeparators_of_value (objectMissingValue_tokens helements.1 _)
      exact parseJsonArray_element hv (delimits_sep _) (parseJsonArray_sep hsep hrest)

end

/-- The parser accepts the tokens of a tree that it can return, and returns that tree. -/
theorem parseTokens_written {tree : Json F} (hp : tree.Written escape) :
    parseTokens escape tree.tokens = .ok tree := by
  cases tree with
  | object members =>
    have hlen : members.tokens.length < (Json.object members).tokens.length := by
      simp [Json.tokens]
    have hm : parseJsonObject escape (Json.object members).tokens.length
        (members.tokens ++ [.objectEnd]) = .ok (members, []) :=
      Members.parse_tokens members (by simpa [Json.Written] using hp) hlen rfl
    have hopen : afterObjectArray .objectBegin (members.tokens ++ [.objectEnd]) = .ok () := by
      cases members with
      | nil => rfl
      | cons key value members => rfl
    have hlast : (Json.object members).tokens.getLast? = some .objectEnd := by
      rw [Json.tokens, ← List.cons_append, List.getLast?_concat]
    have hends : beginEndMismatch (Json.object members).tokens = .ok () := by
      rw [beginEndMismatch, hlast]
      rfl
    rw [Json.tokens] at hm hends ⊢
    rw [parseTokens, hends, hopen]
    simp only [bind, Except.bind, hm]
  | array elements =>
    have hlen : elements.tokens.length < (Json.array elements).tokens.length := by
      simp [Json.tokens]
    have he : parseJsonArray escape (Json.array elements).tokens.length
        (elements.tokens ++ [.arrayEnd]) = .ok (elements, []) :=
      Elements.parse_tokens elements (by simpa [Json.Written] using hp) hlen rfl
    have hopen : afterObjectArray .arrayBegin (elements.tokens ++ [.arrayEnd]) = .ok () := by
      cases elements with
      | nil => rfl
      | cons value elements =>
        have hv : value.Written escape := by simp_all [Json.Written, Elements.Written]
        rw [Elements.tokens, List.append_assoc]
        exact afterObjectArray_of_value (objectMissingValue_tokens hv _)
    have hlast : (Json.array elements).tokens.getLast? = some .arrayEnd := by
      rw [Json.tokens, ← List.cons_append, List.getLast?_concat]
    have hends : beginEndMismatch (Json.array elements).tokens = .ok () := by
      rw [beginEndMismatch, hlast]
      rfl
    rw [Json.tokens] at he hends ⊢
    rw [parseTokens, hends, hopen]
    simp only [bind, Except.bind, he]
  | string s =>
    obtain ⟨value, isEscaped⟩ := s
    obtain rfl : escape = isEscaped := by simpa [Json.Written, eq_comm] using hp
    rfl
  | number n => rfl
  | float x => rfl
  | boolean b => rfl
  | null => rfl
  | nullptr => exact hp.elim

/-- A tree that a formatter can be given. -/
def Root : Json F → Prop
  | .object _ | .array _ => True
  | _ => False

end JsonParser

end Socnet.Libjson
