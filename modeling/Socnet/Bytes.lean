import Mathlib.Algebra.Group.Nat.Defs
import Mathlib.Order.Lattice
import Mathlib.Data.List.Lex
import Socnet.Lib.Sequence

namespace Socnet

abbrev Bytes := List UInt8

instance linearOrderUInt8 : LinearOrder UInt8 where
  le_refl := UInt8.le_refl
  le_trans _ _ _ := UInt8.le_trans
  le_antisymm _ _ := UInt8.le_antisymm
  le_total := UInt8.le_total
  lt_iff_le_not_ge a b := by
    simp only [UInt8.lt_iff_toNat_lt, UInt8.le_iff_toNat_le]
    omega
  toDecidableLE := inferInstance
  toDecidableLT := inferInstance
  toDecidableEq := inferInstance

def ascii (s : String) : Bytes := s.toList.map fun c ↦ c.toNat.toUInt8

/-- The ways a call can end without returning. `exception`, `rangeError`, `outOfRange`
and `badOptionalAccess` are thrown, `pastEnd`, `badRead`, `overflow` and
`nullChannel` are undefined behaviour, and `hang` is a loop whose next
iteration finds the state it started from. -/
inductive Fault
  | exception
  | rangeError
  | outOfRange
  | badOptionalAccess
  | pastEnd
  | badRead
  | overflow
  | nullChannel
  | hang
  deriving DecidableEq, Repr

/-- `std::string_view::remove_prefix`, undefined past the end of the view. -/
def removePrefix (n : ℕ) (v : Bytes) : Except Fault Bytes :=
  if n ≤ v.length then .ok (v.drop n) else .error .pastEnd

/-- `std::string_view::substr`, which throws past the end of the view. -/
def substr (v : Bytes) (pos count : ℕ) : Except Fault Bytes :=
  if pos ≤ v.length then .ok ((v.drop pos).take count) else .error .outOfRange

theorem bind_eq_ok {α β : Type} {x : Except Fault α} {f : α → Except Fault β} {r : β} :
    x >>= f = .ok r ↔ ∃ a, x = .ok a ∧ f a = .ok r := by
  cases x with
  | error e => simp [bind, Except.bind]
  | ok a => simp [bind, Except.bind]

theorem bind_eq_error {α β : Type} {x : Except Fault α} {f : α → Except Fault β} {e : Fault} :
    x >>= f = .error e ↔ x = .error e ∨ ∃ a, x = .ok a ∧ f a = .error e := by
  cases x with
  | error e => simp [bind, Except.bind]
  | ok a => simp [bind, Except.bind]

instance decidableExistsOk {α : Type} (x : Except Fault α) (P : α → Prop) [DecidablePred P] :
    Decidable (∃ a, x = .ok a ∧ P a) :=
  match x with
  | .error _ => isFalse nofun
  | .ok a => decidable_of_iff (P a) ⟨fun h ↦ ⟨a, rfl, h⟩, fun ⟨_, h, hp⟩ ↦ by cases h; exact hp⟩

instance decidableEqError {α : Type} (x : Except Fault α) (e : Fault) : Decidable (x = .error e) :=
  match x with
  | .error e' => decidable_of_iff (e' = e) ⟨congrArg _, fun h ↦ by cases h; rfl⟩
  | .ok _ => isFalse nofun

def CR : UInt8 := 13
def LF : UInt8 := 10
def SP : UInt8 := 32
def CRLF : Bytes := [CR, LF]

theorem removePrefix_of_le {n : ℕ} {v : Bytes} (h : n ≤ v.length) :
    removePrefix n v = .ok (v.drop n) := if_pos h

theorem removePrefix_of_lt {n : ℕ} {v : Bytes} (h : v.length < n) :
    removePrefix n v = .error .pastEnd := if_neg (by omega)

theorem substr_of_le {v : Bytes} {pos count : ℕ} (h : pos ≤ v.length) :
    substr v pos count = .ok ((v.drop pos).take count) := if_pos h

theorem CR_ne_LF : CR ≠ LF := by decide

/-- A size below `2 ^ 31` keeps its value as an `int`. -/
theorem bmod_of_lt {n : ℕ} (h : n < 2 ^ 31) : Int.bmod n (2 ^ 32) = n := by
  apply Int.bmod_eq_of_le
  · change (-2147483648 : ℤ) ≤ n
    omega
  · change (n : ℤ) < 2147483648
    omega

end Socnet
