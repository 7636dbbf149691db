import Socnet.Libjson.JsonLexer

namespace Socnet.Libjson

variable {F : Type}

namespace JsonParser

/-- `handle_begin_end_mismatch_exception`. -/
def beginEndMismatch (tokens : List (Token F)) : Except Fault Unit :=
  match tokens.head?, tokens.getLast? with
  | some .objectBegin, some .objectEnd => .ok ()
  | some .objectBegin, _ => .error .exception
  | some .arrayBegin, some .arrayEnd => .ok ()
  | some .arrayBegin, _ => .error .exception
  | _, _ => .ok ()

/-- `handle_after_object_array_closure_exception`, with what follows the bracket. -/
def afterObjectArrayClosure (next : List (Token F)) : Except Fault Unit :=
  match next with
  | .keyValueSep :: _ | .objectBegin :: _ | .arrayBegin :: _ | .scalar _ :: _ => .error .exception
  | _ => .ok ()

/-- `handle_after_object_array_exception`. -/
def afterObjectArray (cur : Token F) (next : List (Token F)) : Except Fault Unit :=
  match cur, next with
  | _, .sep :: _ | _, .keyValueSep :: _ => .error .exception
  | .objectBegin, .arrayEnd :: _ | .arrayBegin, .objectEnd :: _ => .error .exception
  | _, _ => .ok ()

/-- `handle_missing_separator_exception`. -/
def missingSeparator (cur : Token F) (next : List (Token F)) : Except Fault Unit :=
  match cur, next with
  | .scalar _, .arrayEnd :: _ | .scalar _, .objectEnd :: _ | .scalar _, .sep :: _ => .ok ()
  | .scalar _, _ => .error .exception
  | _, _ => .ok ()

/-- `handle_after_separators_exception`. -/
def afterSeparators (next : List (Token F)) : Except Fault Unit :=
  match next with
  | .sep :: _ | .objectEnd :: _ | .arrayEnd :: _ | .keyValueSep :: _ => .error .exception
  | _ => .ok ()

/-- `handle_object_missing_separator_exception`. -/
def objectMissingSeparator (next : List (Token F)) : Except Fault Unit :=
  match next with
  | [] | .keyValueSep :: _ => .ok ()
  | _ => .error .exception

/-- `handle_object_missing_value`. -/
def objectMissingValue (next : List (Token F)) : Except Fault Unit :=
  match next with
  | [] | .scalar _ :: _ | .objectBegin :: _ | .arrayBegin :: _ => .ok ()
  | _ => .error .exception

/-- The switch over a value in both loops. A token that starts no value falls
through and leaves a null pointer. -/
def parseValue (escape : Bool)
    (parseObject : List (Token F) → Except Fault (Members F × List (Token F)))
    (parseArray : List (Token F) → Except Fault (Elements F × List (Token F)))
    (value : Token F) (next : List (Token F)) : Except Fault (Json F × List (Token F)) :=
  match value with
  | .objectBegin => do
    afterObjectArray value next
    let (members, next) ← parseObject next
    .ok (.object members, next)
  | .arrayBegin => do
    afterObjectArray value next
    let (elements, next) ← parseArray next
    .ok (.array elements, next)
  | .scalar s => .ok (s.toJson escape, next)
  | _ => .ok (.nullptr, next)

mutual

/-- The tokens from the current index on; `fuel` bounds the turns of the loops. -/
def parseJsonObject (escape : Bool) :
    ℕ → List (Token F) → Except Fault (Members F × List (Token F))
  | 0, _ => .error .hang
  | _ + 1, [] => .ok (.nil, [])
  | _ + 1, .objectEnd :: next => do
    afterObjectArrayClosure next
    .ok (.nil, next)
  | fuel + 1, .sep :: next => do
    afterSeparators next
    parseJsonObject escape fuel next
  | fuel + 1, .scalar (.string key) :: next => do
    objectMissingSeparator next
    let next := next.tail
    objectMissingValue next
    match next with
    | [] => .error .pastEnd
    | value :: next => do
      missingSeparator value next
      let (v, next) ←
        parseValue escape (parseJsonObject escape fuel) (parseJsonArray escape fuel) value next
      let (members, next) ← parseJsonObject escape fuel next
      .ok (.cons ⟨key, escape⟩ v members, next)
  | _ + 1, _ :: _ => .error .exception

def parseJsonArray (escape : Bool) :
    ℕ → List (Token F) → Except Fault (Elements F × List (Token F))
  | 0, _ => .error .hang
  | _ + 1, [] => .ok (.nil, [])
  | _ + 1, .arrayEnd :: next => do
    afterObjectArrayClosure next
    .ok (.nil, next)
  | fuel + 1, .sep :: next => do
    afterSeparators next
    parseJsonArray escape fuel next
  | fuel + 1, value :: next => do
    missingSeparator value next
    let (v, next) ←
      parseValue escape (parseJsonObject escape fuel) (parseJsonArray escape fuel) value next
    let (elements, next) ← parseJsonArray escape fuel next
    .ok (.cons v elements, next)

end

section Turns

variable (escape : Bool) (fuel : ℕ)

/-- What a turn of the loop over an object does when it does not fail. -/
inductive ObjectTurn : List (Token F) → Members F → List (Token F) → Prop
  | stop : ObjectTurn [] .nil []
  | close {next} (hnext : afterObjectArrayClosure next = .ok ()) :
    ObjectTurn (.objectEnd :: next) .nil next
  | sep {tokens members next} (hsep : afterSeparators tokens = .ok ())
    (hrest : parseJsonObject escape fuel tokens = .ok (members, next)) :
    ObjectTurn (.sep :: tokens) members next
  | member {key value tokens v rest members next}
    (hstart : objectMissingValue (value :: tokens) = .ok ())
    (hend : missingSeparator value tokens = .ok ())
    (hvalue : parseValue escape (parseJsonObject escape fuel) (parseJsonArray escape fuel)
      value tokens = .ok (v, rest))
    (hrest : parseJsonObject escape fuel rest = .ok (members, next)) :
    ObjectTurn (.scalar (.string key) :: .keyValueSep :: value :: tokens)
      (.cons ⟨key, escape⟩ v members) next

/-- What a turn of the loop over an array does when it does not fail. -/
inductive ArrayTurn : List (Token F) → Elements F → List (Token F) → Prop
  | stop : ArrayTurn [] .nil []
  | close {next} (hnext : afterObjectArrayClosure next = .ok ()) :
    ArrayTurn (.arrayEnd :: next) .nil next
  | sep {tokens elements next} (hsep : afterSeparators tokens = .ok ())
    (hrest : parseJsonArray escape fuel tokens = .ok (elements, next)) :
    ArrayTurn (.sep :: tokens) elements next
  | element {value tokens v rest elements next} (hclose : value ≠ .arrayEnd) (hsep : value ≠ .sep)
    (hend : missingSeparator value tokens = .ok ())
    (hvalue : parseValue escape (parseJsonObject escape fuel) (parseJsonArray escape fuel)
      value tokens = .ok (v, rest))
    (hrest : parseJsonArray escape fuel rest = .ok (elements, next)) :
    ArrayTurn (value :: tokens) (.cons v elements) next

variable {escape fuel}

theorem objectTurn_of_parse {tokens next : List (Token F)} {members : Members F}
    (h : parseJsonObject escape (fuel + 1) tokens = .ok (members, next)) :
    ObjectTurn escape fuel tokens members next := by
  cases tokens with
  | nil => cases h; exact .stop
  | cons t rest =>
    cases t with
    | objectEnd =>
      rw [parseJsonObject] at h
      obtain ⟨⟨⟩, hnext, h⟩ := bind_eq_ok.mp h
      cases h
      exact .close hnext
    | sep =>
      rw [parseJsonObject] at h
      obtain ⟨⟨⟩, hsep, h⟩ := bind_eq_ok.mp h
      exact .sep hsep h
    | scalar s =>
      cases s with
      | string key =>
        rw [parseJsonObject] at h
        obtain ⟨⟨⟩, hcolon, h⟩ := bind_eq_ok.mp h
        obtain ⟨⟨⟩, hstart, h⟩ := bind_eq_ok.mp h
        cases rest with
        | nil => cases h
        | cons t rest =>
          obtain rfl : t = .keyValueSep := by
            cases t <;> first | rfl | cases hcolon
          cases rest with
          | nil => cases h
          | cons value rest =>
            obtain ⟨⟨⟩, hend, h⟩ := bind_eq_ok.mp h
            obtain ⟨⟨v, n₁⟩, hvalue, h⟩ := bind_eq_ok.mp h
            obtain ⟨⟨members', n₂⟩, hrest, h⟩ := bind_eq_ok.mp h
            cases h
            exact .member hstart hend hvalue hrest
      | number n => cases h
      | float x => cases h
      | boolean b => cases h
      | null => cases h
    | objectBegin => cases h
    | arrayBegin => cases h
    | arrayEnd => cases h
    | keyValueSep => cases h

theorem arrayTurn_of_parse {tokens next : List (Token F)} {elements : Elements F}
    (h : parseJsonArray escape (fuel + 1) tokens = .ok (elements, next)) :
    ArrayTurn escape fuel tokens elements next := by
  have hturn {value : Token F} {rest : List (Token F)} (hclose : value ≠ .arrayEnd)
      (hsep : value ≠ .sep) (h : (missingSeparator value rest >>= fun _ ↦
        parseValue escape (parseJsonObject escape fuel) (parseJsonArray escape fuel) value rest >>=
          fun x ↦ parseJsonArray escape fuel x.2 >>= fun y ↦ .ok (.cons x.1 y.1, y.2)) =
        .ok (elements, next)) : ArrayTurn escape fuel (value :: rest) elements next := by
    obtain ⟨⟨⟩, hend, h⟩ := bind_eq_ok.mp h
    obtain ⟨⟨v, n₁⟩, hvalue, h⟩ := bind_eq_ok.mp h
    obtain ⟨⟨elements', n₂⟩, hrest, h⟩ := bind_eq_ok.mp h
    cases h
    exact .element hclose hsep hend hvalue hrest
  cases tokens with
  | nil => cases h; exact .stop
  | cons t rest =>
    cases t with
    | arrayEnd =>
      rw [parseJsonArray] at h
      obtain ⟨⟨⟩, hnext, h⟩ := bind_eq_ok.mp h
      cases h
      exact .close hnext
    | sep =>
      rw [parseJsonArray] at h
      obtain ⟨⟨⟩, hsep, h⟩ := bind_eq_ok.mp h
      exact .sep hsep h
    | scalar s => exact hturn (by simp) (by simp) h
    | objectBegin => exact hturn (by simp) (by simp) h
    | arrayBegin => exact hturn (by simp) (by simp) h
    | objectEnd => exact hturn (by simp) (by simp) h
    | keyValueSep => exact hturn (by simp) (by simp) h

end Turns

section Fuel

variable {escape : Bool} {n : ℕ} {cur : Token F} {next : List (Token F)}

theorem afterObjectArrayClosure_ne_hang : afterObjectArrayClosure next ≠ .error .hang := by
  unfold afterObjectArrayClosure
  split <;> simp

theorem afterObjectArray_ne_hang : afterObjectArray cur next ≠ .error .hang := by
  unfold afterObjectArray
  split <;> simp

theorem missingSeparator_ne_hang : missingSeparator cur next ≠ .error .hang := by
  unfold missingSeparator
  split <;> simp

theorem afterSeparators_ne_hang : afterSeparators next ≠ .error .hang := by
  unfold afterSeparators
  split <;> simp

theorem objectMissingSeparator_ne_hang : objectMissingSeparator next ≠ .error .hang := by
  unfold objectMissingSeparator
  split <;> simp

theorem objectMissingValue_ne_hang : objectMissingValue next ≠ .error .hang := by
  unfold objectMissingValue
  split <;> simp

/-- A result on `k` tokens leaves at most these, and `n` turns are enough for it
when `k` is less than `n`. -/
def Ends {α : Type} (n k : ℕ) (x : Except Fault (α × List (Token F))) : Prop :=
  (∀ r next, x = .ok (r, next) → next.length ≤ k) ∧ (k < n → x ≠ .error .hang)

namespace Ends

variable {α β : Type} {k : ℕ} {x : Except Fault (α × List (Token F))}

theorem of_error {e : Fault} (he : e ≠ .hang) :
    Ends n k (.error e : Except Fault (α × List (Token F))) := by
  refine ⟨fun r next h ↦ ?_, fun _ h ↦ he ?_⟩
  · cases h
  · cases h
    rfl

theorem of_ok {r : α} (h : next.length ≤ k) : Ends n k (.ok (r, next)) := by
  refine ⟨fun r' next' hx ↦ ?_, fun _ hx ↦ ?_⟩
  · cases hx
    exact h
  · cases hx

theorem check {c : Except Fault Unit} (hc : c ≠ .error .hang) (hx : Ends n k x) :
    Ends n k (c >>= fun _ ↦ x) := by
  refine ⟨fun r next h ↦ ?_, fun hk h ↦ ?_⟩
  · obtain ⟨⟨⟩, -, h⟩ := bind_eq_ok.mp h
    exact hx.1 r next h
  · obtain h | ⟨⟨⟩, -, h⟩ := bind_eq_error.mp h
    · exact hc h
    · exact hx.2 hk h

theorem bind {f : α × List (Token F) → Except Fault (β × List (Token F))} (hx : Ends n k x)
    (hf : ∀ r next, next.length ≤ k → Ends n k (f (r, next))) : Ends n k (x >>= f) := by
  refine ⟨fun r next h ↦ ?_, fun hk h ↦ ?_⟩
  · obtain ⟨⟨r', next'⟩, hr, h⟩ := bind_eq_ok.mp h
    exact (hf r' next' (hx.1 _ _ hr)).1 r next h
  · obtain h | ⟨⟨r', next'⟩, hr, h⟩ := bind_eq_error.mp h
    · exact hx.2 hk h
    · exact (hf r' next' (hx.1 _ _ hr)).2 hk h

theorem le {k' : ℕ} (hx : Ends n k x) (hk : k ≤ k') : Ends n k' x :=
  ⟨fun r next h ↦ (hx.1 r next h).trans hk, fun hn ↦ hx.2 (hk.trans_lt hn)⟩

theorem succ (hx : Ends n k x) : Ends (n + 1) (k + 1) x :=
  ⟨fun r next h ↦ (hx.1 r next h).trans (Nat.le_succ k), fun hn ↦ hx.2 (Nat.lt_of_succ_lt_succ hn)⟩

end Ends

section Turn

variable {parseObject : List (Token F) → Except Fault (Members F × List (Token F))}
  {parseArray : List (Token F) → Except Fault (Elements F × List (Token F))}
  (hobject : ∀ tokens, Ends n tokens.length (parseObject tokens))
  (harray : ∀ tokens, Ends n tokens.length (parseArray tokens))
include hobject harray

theorem parseValue_ends (tokens : List (Token F)) :
    Ends n tokens.length (parseValue escape parseObject parseArray cur tokens) := by
  cases cur with
  | objectBegin =>
    exact .check afterObjectArray_ne_hang ((hobject tokens).bind fun _ _ h ↦ .of_ok h)
  | arrayBegin =>
    exact .check afterObjectArray_ne_hang ((harray tokens).bind fun _ _ h ↦ .of_ok h)
  | scalar s => exact .of_ok le_rfl
  | objectEnd => exact .of_ok le_rfl
  | arrayEnd => exact .of_ok le_rfl
  | keyValueSep => exact .of_ok le_rfl
  | sep => exact .of_ok le_rfl

/-- A turn that reads a value and goes on with the rest of its loop. -/
theorem turn_ends (escape : Bool) (cur : Token F) {α β : Type}
    {loop : List (Token F) → Except Fault (α × List (Token F))}
    (hloop : ∀ tokens, Ends n tokens.length (loop tokens)) (f : Json F → α → β)
    (tokens : List (Token F)) :
    Ends n tokens.length (missingSeparator cur tokens >>= fun _ ↦
      parseValue escape parseObject parseArray cur tokens >>= fun x ↦
        loop x.2 >>= fun y ↦ .ok (f x.1 y.1, y.2)) := by
  apply Ends.check missingSeparator_ne_hang
  apply (parseValue_ends hobject harray tokens).bind
  intro v next hv
  apply ((hloop next).le hv).bind
  intro r next' hr
  exact .of_ok hr

end Turn

/-- A turn takes at least one token. -/
theorem loops_end (escape : Bool) (n : ℕ) (tokens : List (Token F)) :
    Ends n tokens.length (parseJsonObject escape n tokens) ∧
      Ends n tokens.length (parseJsonArray escape n tokens) := by
  induction n generalizing tokens with
  | zero =>
    constructor
    · exact ⟨fun r next h ↦ (by cases h), fun h ↦ absurd h (Nat.not_lt_zero _)⟩
    · exact ⟨fun r next h ↦ (by cases h), fun h ↦ absurd h (Nat.not_lt_zero _)⟩
  | succ n ih =>
    have hobject (tokens) := (ih tokens).1
    have harray (tokens) := (ih tokens).2
    constructor
    · cases tokens with
      | nil => exact .of_ok le_rfl
      | cons t rest =>
        cases t with
        | objectEnd => exact .check afterObjectArrayClosure_ne_hang (.of_ok (Nat.le_succ _))
        | sep => exact .check afterSeparators_ne_hang (hobject rest).succ
        | scalar s =>
          cases s with
          | string key =>
            refine .check objectMissingSeparator_ne_hang (.check objectMissingValue_ne_hang ?_)
            cases rest with
            | nil => exact .of_error (by simp)
            | cons _ rest =>
              cases rest with
              | nil => exact .of_error (by simp)
              | cons value rest =>
                have hturn := turn_ends hobject harray escape value hobject
                  (Members.cons ⟨key, escape⟩) rest
                exact (hturn.succ).le (by simp)
          | number n => exact .of_error (by simp)
          | float x => exact .of_error (by simp)
          | boolean b => exact .of_error (by simp)
          | null => exact .of_error (by simp)
        | objectBegin => exact .of_error (by simp)
        | arrayBegin => exact .of_error (by simp)
        | arrayEnd => exact .of_error (by simp)
        | keyValueSep => exact .of_error (by simp)
    · cases tokens with
      | nil => exact .of_ok le_rfl
      | cons t rest =>
        have hturn (cur : Token F) :=
          (turn_ends hobject harray escape cur harray Elements.cons rest).succ
        cases t with
        | arrayEnd => exact .check afterObjectArrayClosure_ne_hang (.of_ok (Nat.le_succ _))
        | sep => exact .check afterSeparators_ne_hang (harray rest).succ
        | scalar s => exact hturn (.scalar s)
        | objectBegin => exact hturn .objectBegin
        | arrayBegin => exact hturn .arrayBegin
        | objectEnd => exact hturn .objectEnd
        | keyValueSep => exact hturn .keyValueSep

end Fuel

/-- A turn takes at least one token, so that the length of the list is fuel
enough. -/
def parseTokens (escape : Bool) (tokens : List (Token F)) : Except Fault (Json F) := do
  beginEndMismatch tokens
  match tokens with
  | [] => .ok .nullptr
  | .objectBegin :: next => do
    afterObjectArray .objectBegin next
    let (members, _) ← parseJsonObject escape tokens.length next
    .ok (.object members)
  | .arrayBegin :: next => do
    afterObjectArray .arrayBegin next
    let (elements, _) ← parseJsonArray escape tokens.length next
    .ok (.array elements)
  | [.scalar s] => .ok (s.toJson escape)
  | _ => .error .exception

/-- The bound on the turns is never reached. -/
theorem parseTokens_ne_hang (escape : Bool) (tokens : List (Token F)) :
    parseTokens escape tokens ≠ .error .hang := by
  intro h
  obtain h | ⟨⟨⟩, -, h⟩ := bind_eq_error.mp h
  · unfold beginEndMismatch at h
    split at h <;> simp at h
  · cases tokens with
    | nil => cases h
    | cons t rest =>
      obtain ⟨hobject, harray⟩ := loops_end escape (t :: rest).length rest
      have hlen : rest.length < (t :: rest).length := by simp
      cases t with
      | objectBegin =>
        obtain h | ⟨⟨⟩, -, h⟩ := bind_eq_error.mp h
        · exact afterObjectArray_ne_hang h
        · obtain h | ⟨_, -, h⟩ := bind_eq_error.mp h
          · exact hobject.2 hlen h
          · cases h
      | arrayBegin =>
        obtain h | ⟨⟨⟩, -, h⟩ := bind_eq_error.mp h
        · exact afterObjectArray_ne_hang h
        · obtain h | ⟨_, -, h⟩ := bind_eq_error.mp h
          · exact harray.2 hlen h
          · cases h
      | scalar s =>
        cases rest with
        | nil => cases h
        | cons t rest => cases h
      | objectEnd => cases h
      | arrayEnd => cases h
      | keyValueSep => cases h
      | sep => cases h

/-- What the parser does when it does not fail. -/
inductive Parsed (escape : Bool) : List (Token F) → Json F → Prop
  | nil : Parsed escape [] .nullptr
  | object {tokens members next} (hopen : afterObjectArray .objectBegin tokens = .ok ())
    (hloop : parseJsonObject escape (tokens.length + 1) tokens = .ok (members, next)) :
    Parsed escape (.objectBegin :: tokens) (.object members)
  | array {tokens elements next} (hopen : afterObjectArray .arrayBegin tokens = .ok ())
    (hloop : parseJsonArray escape (tokens.length + 1) tokens = .ok (elements, next)) :
    Parsed escape (.arrayBegin :: tokens) (.array elements)
  | scalar {s} : Parsed escape [.scalar s] (s.toJson escape)

theorem parsed_of_parse {escape : Bool} {tokens : List (Token F)} {tree : Json F}
    (h : parseTokens escape tokens = .ok tree) : Parsed escape tokens tree := by
  obtain ⟨⟨⟩, -, h⟩ := bind_eq_ok.mp h
  cases tokens with
  | nil => cases h; exact .nil
  | cons t rest =>
    cases t with
    | objectBegin =>
      obtain ⟨⟨⟩, hopen, h⟩ := bind_eq_ok.mp h
      obtain ⟨⟨members, n⟩, hloop, h⟩ := bind_eq_ok.mp h
      cases h
      exact .object hopen hloop
    | arrayBegin =>
      obtain ⟨⟨⟩, hopen, h⟩ := bind_eq_ok.mp h
      obtain ⟨⟨elements, n⟩, hloop, h⟩ := bind_eq_ok.mp h
      cases h
      exact .array hopen hloop
    | scalar s =>
      cases rest with
      | nil => cases h; exact .scalar
      | cons t rest => cases h
    | objectEnd => cases h
    | arrayEnd => cases h
    | keyValueSep => cases h
    | sep => cases h

/-- `JsonParser(json, escape).parse()`. -/
def parse (toDouble : Bytes → F) (escape : Bool) (json : Bytes) : Except Fault (Json F) := do
  let text ← setBuffer json
  let tokens ← getTokens toDouble escape text
  parseTokens escape tokens

end JsonParser

end Socnet.Libjson
