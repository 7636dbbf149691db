import Socnet.Libjson.JsonParser

namespace Socnet.Libjson

variable {F : Type}

inductive Bracket
  | brace
  | square
  deriving DecidableEq

/-- With `stack` the brackets that are open: every closing bracket has the kind
of the last one of them, and the first one is closed by the last token. -/
def balanced : List (Token F) → List Bracket → Bool
  | [], stack => stack.isEmpty
  | .objectBegin :: next, stack => balanced next (.brace :: stack)
  | .arrayBegin :: next, stack => balanced next (.square :: stack)
  | .objectEnd :: next, stack =>
    stack.head? = some .brace && (1 < stack.length || next.isEmpty) && balanced next stack.tail
  | .arrayEnd :: next, stack =>
    stack.head? = some .square && (1 < stack.length || next.isEmpty) && balanced next stack.tail
  | .scalar _ :: next, stack => balanced next stack
  | .keyValueSep :: next, stack => balanced next stack
  | .sep :: next, stack => balanced next stack

mutual

/-- The tokens of a value leave the open brackets as they were. -/
theorem Json.balanced_tokens (v : Json F) (next : List (Token F)) {stack : List Bracket}
    (hs : stack ≠ []) : balanced (v.tokens ++ next) stack = balanced next stack := by
  have hlen : 0 < stack.length := List.length_pos_iff.mpr hs
  cases v with
  | object members =>
    rw [Json.tokens, List.cons_append, balanced, List.append_assoc,
      members.balanced_tokens _ (by simp)]
    simp [balanced, hlen]
  | array elements =>
    rw [Json.tokens, List.cons_append, balanced, List.append_assoc,
      elements.balanced_tokens _ (by simp)]
    simp [balanced, hlen]
  | string s => rfl
  | number n => rfl
  | float x => rfl
  | boolean x => rfl
  | null => rfl
  | nullptr => rfl

theorem Members.balanced_tokens (m : Members F) (next : List (Token F)) {stack : List Bracket}
    (hs : stack ≠ []) : balanced (m.tokens ++ next) stack = balanced next stack := by
  cases m with
  | nil => rfl
  | cons key value members =>
    rw [Members.tokens, List.cons_append, List.cons_append, balanced, balanced, List.append_assoc,
      value.balanced_tokens _ hs]
    split_ifs
    · rfl
    · rw [List.cons_append, balanced, members.balanced_tokens _ hs]

theorem Elements.balanced_tokens (e : Elements F) (next : List (Token F)) {stack : List Bracket}
    (hs : stack ≠ []) : balanced (e.tokens ++ next) stack = balanced next stack := by
  cases e with
  | nil => rfl
  | cons value elements =>
    rw [Elements.tokens, List.append_assoc, value.balanced_tokens _ hs]
    split_ifs
    · rfl
    · rw [List.cons_append, balanced, elements.balanced_tokens _ hs]

end

namespace JsonParser

variable {escape : Bool} {next : List (Token F)}

/-- What may follow a value: a separator, a closing bracket or nothing. -/
abbrev AfterValue (next : List (Token F)) : Prop := afterObjectArrayClosure next = .ok ()

theorem afterValue_of_missingSeparator {s : Scalar F} (h : missingSeparator (.scalar s) next = .ok ()) :
    AfterValue next := by
  cases next with
  | nil => rfl
  | cons t next =>
    cases t with
    | objectEnd => rfl
    | arrayEnd => rfl
    | sep => rfl
    | scalar _ => cases h
    | objectBegin => cases h
    | arrayBegin => cases h
    | keyValueSep => cases h

theorem afterValue_head (h : AfterValue next) : next.head? ≠ some .keyValueSep := by
  intro hc
  obtain ⟨rest, rfl⟩ := List.head?_eq_some_iff.mp hc
  cases h

theorem afterSeparators_head (h : afterSeparators next = .ok ()) :
    next.head? ≠ some .keyValueSep := by
  intro hc
  obtain ⟨rest, rfl⟩ := List.head?_eq_some_iff.mp hc
  cases h

theorem afterObjectArray_head {cur : Token F} (h : afterObjectArray cur next = .ok ()) :
    next.head? ≠ some .keyValueSep := by
  intro hc
  obtain ⟨rest, rfl⟩ := List.head?_eq_some_iff.mp hc
  cases h

/-- What the loop over an object has read: the tokens of its members up to the
closing brace, or a separator and then these. -/
def ReadsObject (tokens : List (Token F)) (members : Members F) (next : List (Token F)) : Prop :=
  tokens = members.tokens ++ .objectEnd :: next ∨
    members.empty = false ∧ tokens = .sep :: (members.tokens ++ .objectEnd :: next)

def ReadsArray (tokens : List (Token F)) (elements : Elements F) (next : List (Token F)) : Prop :=
  tokens = elements.tokens ++ .arrayEnd :: next ∨
    elements.empty = false ∧ tokens = .sep :: (elements.tokens ++ .arrayEnd :: next)

/-- On balanced tokens the loop reads an object. -/
def SoundObject (parse : List (Token F) → Except Fault (Members F × List (Token F))) : Prop :=
  ∀ ⦃tokens members next stack⦄, parse tokens = .ok (members, next) →
    balanced tokens (.brace :: stack) →
    ReadsObject tokens members next ∧ members.NoNull ∧ AfterValue next

def SoundArray (parse : List (Token F) → Except Fault (Elements F × List (Token F))) : Prop :=
  ∀ ⦃tokens elements next stack⦄, parse tokens = .ok (elements, next) →
    tokens.head? ≠ some .keyValueSep → balanced tokens (.square :: stack) →
    ReadsArray tokens elements next ∧ elements.NoNull ∧ AfterValue next

theorem Scalar.tokens_toJson (s : Scalar F) : (s.toJson escape).tokens = [.scalar s] := by
  cases s with
  | string s => rfl
  | number n => rfl
  | float x => rfl
  | boolean b => rfl
  | null => rfl

theorem Scalar.noNull_toJson (s : Scalar F) : (s.toJson escape).NoNull := by
  cases s with
  | string s => simp [Scalar.toJson, Json.NoNull]
  | number n => simp [Scalar.toJson, Json.NoNull]
  | float x => simp [Scalar.toJson, Json.NoNull]
  | boolean b => simp [Scalar.toJson, Json.NoNull]
  | null => simp [Scalar.toJson, Json.NoNull]

section Sound

variable {parseObject : List (Token F) → Except Fault (Members F × List (Token F))}
  {parseArray : List (Token F) → Except Fault (Elements F × List (Token F))}
  (hobject : SoundObject parseObject) (harray : SoundArray parseArray)
include hobject harray

/-- A value that starts with a token of a value is read whole, and what may not
follow a value does not follow it. -/
theorem parseValue_sound {value : Token F} {next' : List (Token F)} {v : Json F}
    {stack : List Bracket} (h : parseValue escape parseObject parseArray value next = .ok (v, next'))
    (hstart : objectMissingValue (value :: next) = .ok ())
    (hsep : missingSeparator value next = .ok ()) (hb : balanced (value :: next) stack) :
    value :: next = v.tokens ++ next' ∧ v.NoNull ∧ AfterValue next' := by
  cases value with
  | scalar s =>
    cases h
    exact ⟨by rw [Scalar.tokens_toJson]; rfl, Scalar.noNull_toJson s,
      afterValue_of_missingSeparator hsep⟩
  | objectBegin =>
    obtain ⟨⟨⟩, hopen, h⟩ := bind_eq_ok.mp h
    obtain ⟨⟨members, n⟩, hp, h⟩ := bind_eq_ok.mp h
    cases h
    obtain ⟨hr, hn, ha⟩ := hobject hp hb
    refine ⟨?_, by simpa [Json.NoNull] using hn, ha⟩
    cases hr with
    | inl hr => rw [hr, Json.tokens]; simp
    | inr hr => rw [hr.2] at hopen; cases hopen
  | arrayBegin =>
    obtain ⟨⟨⟩, hopen, h⟩ := bind_eq_ok.mp h
    obtain ⟨⟨elements, n⟩, hp, h⟩ := bind_eq_ok.mp h
    cases h
    obtain ⟨hr, hn, ha⟩ := harray hp (afterObjectArray_head hopen) hb
    refine ⟨?_, by simpa [Json.NoNull] using hn, ha⟩
    cases hr with
    | inl hr => rw [hr, Json.tokens]; simp
    | inr hr => rw [hr.2] at hopen; cases hopen
  | objectEnd => cases hstart
  | arrayEnd => cases hstart
  | keyValueSep => cases hstart
  | sep => cases hstart

end Sound

/-- What follows a value starts no member, so that the rest of a loop starts with
its separator or is the closing bracket alone. -/
theorem ReadsObject.after_value {tokens : List (Token F)} {members : Members F}
    (h : ReadsObject tokens members next) (ha : AfterValue tokens) :
    tokens = (if members.empty then [] else .sep :: members.tokens) ++ .objectEnd :: next := by
  cases h with
  | inl h =>
    cases members with
    | nil => exact h
    | cons key v members =>
      rw [h] at ha
      cases ha
  | inr h => rw [h.2, h.1]; rfl

theorem ReadsObject.after_sep {tokens : List (Token F)} {members : Members F}
    (h : ReadsObject tokens members next) (hs : afterSeparators tokens = .ok ()) :
    members.empty = false ∧ tokens = members.tokens ++ .objectEnd :: next := by
  cases h with
  | inl h =>
    cases members with
    | nil => rw [h] at hs; cases hs
    | cons key v members => exact ⟨rfl, h⟩
  | inr h => rw [h.2] at hs; cases hs

theorem soundObject_step {fuel : ℕ} (hobject : SoundObject (parseJsonObject (F := F) escape fuel))
    (harray : SoundArray (parseJsonArray (F := F) escape fuel)) :
    SoundObject (parseJsonObject (F := F) escape (fuel + 1)) := by
  intro tokens members next stack h hb
  cases objectTurn_of_parse h with
  | stop => cases hb
  | close hnext => exact ⟨.inl rfl, trivial, hnext⟩
  | sep hsep hrest =>
    obtain ⟨hr, hn, ha⟩ := hobject hrest hb
    obtain ⟨he, hr⟩ := hr.after_sep hsep
    exact ⟨.inr ⟨he, by rw [hr]⟩, hn, ha⟩
  | @member key value tokens v rest members _ hstart hend hvalue hrest =>
    obtain ⟨htokens, hnv, hav⟩ := parseValue_sound hobject harray hvalue hstart hend hb
    have hb₁ : balanced rest (.brace :: stack) = true := by
      rw [← v.balanced_tokens rest (by simp), ← htokens]
      exact hb
    obtain ⟨hr, hnm, ha⟩ := hobject hrest hb₁
    refine ⟨.inl ?_, ⟨hnv, hnm⟩, ha⟩
    rw [htokens, hr.after_value hav, Members.tokens]
    simp

theorem not_afterValue {v : Json F} (hv : v.NoNull) (rest : List (Token F)) :
    ¬ AfterValue (v.tokens ++ rest) := by
  intro ha
  cases v with
  | object members => cases ha
  | array elements => cases ha
  | string s => cases ha
  | number n => cases ha
  | float x => cases ha
  | boolean b => cases ha
  | null => cases ha
  | nullptr => exact hv

theorem ReadsArray.after_value {tokens : List (Token F)} {elements : Elements F}
    (h : ReadsArray tokens elements next) (hn : elements.NoNull) (ha : AfterValue tokens) :
    tokens = (if elements.empty then [] else .sep :: elements.tokens) ++ .arrayEnd :: next := by
  cases h with
  | inl h =>
    cases elements with
    | nil => exact h
    | cons v elements =>
      rw [h, Elements.tokens, List.append_assoc] at ha
      exact absurd ha (not_afterValue hn.1 _)
  | inr h => rw [h.2, h.1]; rfl

theorem ReadsArray.after_sep {tokens : List (Token F)} {elements : Elements F}
    (h : ReadsArray tokens elements next) (hs : afterSeparators tokens = .ok ()) :
    elements.empty = false ∧ tokens = elements.tokens ++ .arrayEnd :: next := by
  cases h with
  | inl h =>
    cases elements with
    | nil => rw [h] at hs; cases hs
    | cons v elements => exact ⟨rfl, h⟩
  | inr h => rw [h.2] at hs; cases hs

theorem soundArray_step {fuel : ℕ} (hobject : SoundObject (parseJsonObject (F := F) escape fuel))
    (harray : SoundArray (parseJsonArray (F := F) escape fuel)) :
    SoundArray (parseJsonArray (F := F) escape (fuel + 1)) := by
  intro tokens elements next stack h hc hb
  cases arrayTurn_of_parse h with
  | stop => cases hb
  | close hnext => exact ⟨.inl rfl, trivial, hnext⟩
  | sep hsep hrest =>
    obtain ⟨hr, hn, ha⟩ := harray hrest (afterSeparators_head hsep) hb
    obtain ⟨he, hr⟩ := hr.after_sep hsep
    exact ⟨.inr ⟨he, by rw [hr]⟩, hn, ha⟩
  | @element value tokens v rest elements _ hclose hsep hend hvalue hrest =>
    have hstart : objectMissingValue (value :: tokens) = .ok () := by
      cases value with
      | scalar s => rfl
      | objectBegin => rfl
      | arrayBegin => rfl
      | arrayEnd => exact absurd rfl hclose
      | sep => exact absurd rfl hsep
      | objectEnd => cases hb
      | keyValueSep => exact absurd rfl hc
    obtain ⟨htokens, hnv, hav⟩ := parseValue_sound hobject harray hvalue hstart hend hb
    have hb₁ : balanced rest (.square :: stack) = true := by
      rw [← v.balanced_tokens rest (by simp), ← htokens]
      exact hb
    obtain ⟨hr, hne, ha⟩ := harray hrest (afterValue_head hav) hb₁
    refine ⟨.inl ?_, ⟨hnv, hne⟩, ha⟩
    rw [htokens, hr.after_value hne hav, Elements.tokens]
    simp

/-- On balanced tokens the two loops read exactly the tokens of what they return. -/
theorem sound (escape : Bool) (fuel : ℕ) :
    SoundObject (parseJsonObject (F := F) escape fuel) ∧
      SoundArray (parseJsonArray (F := F) escape fuel) := by
  induction fuel with
  | zero =>
    constructor
    · intro _ _ _ _ h
      cases h
    · intro _ _ _ _ h
      cases h
  | succ fuel ih => exact ⟨soundObject_step ih.1 ih.2, soundArray_step ih.1 ih.2⟩

theorem balanced_tokens_of_noNull {tree : Json F} (hn : tree.NoNull) :
    balanced tree.tokens [] = true := by
  cases tree with
  | object members =>
    rw [Json.tokens, balanced, members.balanced_tokens _ (by simp)]
    simp [balanced]
  | array elements =>
    rw [Json.tokens, balanced, elements.balanced_tokens _ (by simp)]
    simp [balanced]
  | string s => rfl
  | number n => rfl
  | float x => rfl
  | boolean b => rfl
  | null => rfl
  | nullptr => exact hn.elim

/-- With the brackets balanced, the whole list is the token sequence of the tree
that is returned. -/
theorem tokens_eq_of_balanced {tokens : List (Token F)} (hne : tokens ≠ []) {tree : Json F}
    (h : parseTokens escape tokens = .ok tree) (hb : balanced tokens [] = true) :
    tokens = tree.tokens ∧ tree.NoNull := by
  cases parsed_of_parse h with
  | nil => exact absurd rfl hne
  | @object tokens members next hopen hloop =>
    obtain ⟨hr, hn, -⟩ := (sound escape _).1 hloop hb
    have hrest : tokens = members.tokens ++ .objectEnd :: next := by
      cases hr with
      | inl hr => exact hr
      | inr hr => rw [hr.2] at hopen; cases hopen
    rw [hrest, balanced, members.balanced_tokens _ (by simp)] at hb
    obtain rfl : next = [] := by simp_all [balanced]
    exact ⟨by rw [hrest, Json.tokens], by simpa [Json.NoNull] using hn⟩
  | @array tokens elements next hopen hloop =>
    obtain ⟨hr, hn, -⟩ := (sound escape _).2 hloop (afterObjectArray_head hopen) hb
    have hrest : tokens = elements.tokens ++ .arrayEnd :: next := by
      cases hr with
      | inl hr => exact hr
      | inr hr => rw [hr.2] at hopen; cases hopen
    rw [hrest, balanced, elements.balanced_tokens _ (by simp)] at hb
    obtain rfl : next = [] := by simp_all [balanced]
    exact ⟨by rw [hrest, Json.tokens], by simpa [Json.NoNull] using hn⟩
  | @scalar s => exact ⟨(Scalar.tokens_toJson s).symm, Scalar.noNull_toJson s⟩

/-- The checks on neighbouring tokens leave only the brackets open: a list that
the parser accepts is the token sequence of the tree it returns, and no child of
that tree is a null pointer, if and only if its brackets are balanced. -/
theorem sound_iff_balanced (escape : Bool) {tokens : List (Token F)} (hne : tokens ≠ []) {tree : Json F}
    (h : parseTokens escape tokens = .ok tree) :
    (tokens = tree.tokens ∧ tree.NoNull) ↔ balanced tokens [] = true := by
  refine ⟨fun hs ↦ ?_, tokens_eq_of_balanced hne h⟩
  rw [hs.1]
  exact balanced_tokens_of_noNull hs.2

theorem sound_iff_balanced_one :
    (([.arrayBegin, .scalar (.number 1), .arrayEnd] : List (Token ℕ)) =
        (Json.array (.cons (.number 1) .nil)).tokens ∧
      (Json.array (.cons (.number 1) .nil) : Json ℕ).NoNull) ↔
      balanced ([.arrayBegin, .scalar (.number 1), .arrayEnd] : List (Token ℕ)) [] = true :=
  sound_iff_balanced true (by simp) rfl

/-- The last token is not read, and no error is raised. -/
theorem not_sound_trailing :
    ¬ ∀ tokens : List (Token ℕ), tokens ≠ [] → ∀ tree, parseTokens true tokens = .ok tree →
      tokens = tree.tokens ∧ tree.NoNull := by
  intro h
  have hp : parseTokens true
      ([.arrayBegin, .scalar (.number 1), .arrayEnd, .arrayEnd] : List (Token ℕ)) =
      .ok (.array (.cons (.number 1) .nil)) := rfl
  have := congrArg List.length (h _ (by simp) _ hp).1
  simp [Json.tokens, Elements.tokens, Elements.empty] at this

end JsonParser

end Socnet.Libjson
