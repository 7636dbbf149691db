import Socnet.Libjson.ParserCompleteness

namespace Socnet.Libjson

variable {F : Type}

/-- A token that a tree cannot be read without: a value or an opening bracket. -/
def Token.isContent : Token F → Bool
  | .scalar _ | .objectBegin | .arrayBegin => true
  | .objectEnd | .arrayEnd | .keyValueSep | .sep => false

def content (tokens : List (Token F)) : List (Token F) := tokens.filter Token.isContent

theorem content_append (ks ks' : List (Token F)) : content (ks ++ ks') = content ks ++ content ks' :=
  List.filter_append ks ks'

theorem Members.content_tail (m : Members F) :
    content (if m.empty then [] else .sep :: m.tokens) = content m.tokens := by
  cases m with
  | nil => rfl
  | cons key value members => rfl

theorem Elements.content_tail (e : Elements F) :
    content (if e.empty then [] else .sep :: e.tokens) = content e.tokens := by
  cases e with
  | nil => rfl
  | cons value elements => rfl

theorem Members.content_cons (key : JsonString) (value : Json F) (m : Members F) :
    content (Members.cons key value m).tokens =
      .scalar (.string key.value) :: (content value.tokens ++ content m.tokens) := by
  rw [← m.content_tail, ← content_append]
  rfl

theorem Elements.content_cons (value : Json F) (e : Elements F) :
    content (Elements.cons value e).tokens = content value.tokens ++ content e.tokens := by
  rw [← e.content_tail, ← content_append]
  rfl

theorem content_container {begin_ end_ : Token F} (hb : begin_.isContent = true)
    (he : end_.isContent = false) (tokens : List (Token F)) :
    content (begin_ :: (tokens ++ [end_])) = begin_ :: content tokens := by
  simp [content, hb, he]

theorem Json.content_object (m : Members F) :
    content (Json.object m).tokens = .objectBegin :: content m.tokens := content_container rfl rfl _

theorem Json.content_array (e : Elements F) :
    content (Json.array e).tokens = .arrayBegin :: content e.tokens := content_container rfl rfl _

theorem Json.content_pos {v : Json F} (hv : v.Plain) : 0 < (content v.tokens).length := by
  cases v with
  | object members => exact Nat.succ_pos _
  | array elements => exact Nat.succ_pos _
  | string s => exact Nat.succ_pos _
  | number n => exact Nat.succ_pos _
  | boolean b => exact Nat.succ_pos _
  | null => exact Nat.succ_pos _
  | float x => exact hv.elim
  | nullptr => exact hv.elim

theorem Members.content_pos {m : Members F} (h : m.empty = false) : 0 < (content m.tokens).length := by
  cases m with
  | nil => cases h
  | cons key value members => exact Nat.succ_pos _

theorem Elements.content_pos {e : Elements F} (he : e.Plain) (h : e.empty = false) :
    0 < (content e.tokens).length := by
  cases e with
  | nil => cases h
  | cons value elements =>
    rw [Elements.content_cons, List.length_append]
    exact Nat.add_pos_left (Json.content_pos he.1) _

namespace JsonParser

/-- The loop takes the content of what it returns from the front of its tokens. -/
def KeepsContent {α : Type} (tokens : α → List (Token F))
    (parse : List (Token F) → Except Fault (α × List (Token F))) : Prop :=
  ∀ ⦃ts r next⦄, parse ts = .ok (r, next) → content ts = content (tokens r) ++ content next

section Content

variable {parseObject : List (Token F) → Except Fault (Members F × List (Token F))}
  {parseArray : List (Token F) → Except Fault (Elements F × List (Token F))}
  (hobject : KeepsContent Members.tokens parseObject)
  (harray : KeepsContent Elements.tokens parseArray)
include hobject harray

theorem parseValue_content {escape : Bool} {value : Token F} {tokens next : List (Token F)}
    {v : Json F} (h : parseValue escape parseObject parseArray value tokens = .ok (v, next)) :
    content (value :: tokens) = content v.tokens ++ content next := by
  cases value with
  | objectBegin =>
    obtain ⟨⟨⟩, -, h⟩ := bind_eq_ok.mp h
    obtain ⟨⟨members, n⟩, hp, h⟩ := bind_eq_ok.mp h
    cases h
    rw [Json.content_object]
    exact congrArg (.objectBegin :: ·) (hobject hp)
  | arrayBegin =>
    obtain ⟨⟨⟩, -, h⟩ := bind_eq_ok.mp h
    obtain ⟨⟨elements, n⟩, hp, h⟩ := bind_eq_ok.mp h
    cases h
    rw [Json.content_array]
    exact congrArg (.arrayBegin :: ·) (harray hp)
  | scalar s =>
    cases h
    cases s with
    | string s => rfl
    | number n => rfl
    | float x => rfl
    | boolean b => rfl
    | null => rfl
  | objectEnd => cases h; rfl
  | arrayEnd => cases h; rfl
  | keyValueSep => cases h; rfl
  | sep => cases h; rfl

end Content

/-- By induction on the fuel: a turn takes the content of what it reads. -/
theorem loops_keepContent (escape : Bool) (n : ℕ) :
    KeepsContent (F := F) Members.tokens (parseJsonObject escape n) ∧
      KeepsContent (F := F) Elements.tokens (parseJsonArray escape n) := by
  induction n with
  | zero =>
    constructor
    · intro _ _ _ h
      cases h
    · intro _ _ _ h
      cases h
  | succ n ih =>
    obtain ⟨hobject, harray⟩ := ih
    constructor
    · intro tokens members next h
      cases objectTurn_of_parse h with
      | stop => rfl
      | close hnext => rfl
      | sep hsep hrest =>
        have hc := hobject hrest
        exact hc
      | @member key value tokens v rest members _ hstart hend hvalue hrest =>
        change .scalar (.string key) :: content (value :: tokens) = _
        rw [parseValue_content hobject harray hvalue, hobject hrest, Members.content_cons]
        simp
    · intro tokens elements next h
      cases arrayTurn_of_parse h with
      | stop => rfl
      | close hnext => rfl
      | sep hsep hrest =>
        have hc := harray hrest
        exact hc
      | element hclose hsep hend hvalue hrest =>
        rw [parseValue_content hobject harray hvalue, harray hrest, Elements.content_cons,
          List.append_assoc]

/-- The content of a tree that the parser returns is the first content among its
tokens. -/
theorem parseTokens_content {escape : Bool} {tokens : List (Token F)} {tree : Json F}
    (h : parseTokens escape tokens = .ok tree) : content tree.tokens <+: content tokens := by
  cases parsed_of_parse h with
  | nil => exact List.nil_prefix
  | @object tokens members next hopen hloop =>
    refine ⟨content next, ?_⟩
    rw [Json.content_object]
    exact congrArg (.objectBegin :: ·) ((loops_keepContent escape _).1 hloop).symm
  | @array tokens elements next hopen hloop =>
    refine ⟨content next, ?_⟩
    rw [Json.content_array]
    exact congrArg (.arrayBegin :: ·) ((loops_keepContent escape _).2 hloop).symm
  | @scalar s =>
    cases s with
    | string s => exact List.prefix_rfl
    | number n => exact List.prefix_rfl
    | float x => exact List.prefix_rfl
    | boolean b => exact List.prefix_rfl
    | null => exact List.prefix_rfl

end JsonParser

end Socnet.Libjson
