import Mathlib.Algebra.Group.Int.Defs
import Mathlib.Algebra.Group.Nat.Defs
import Mathlib.Order.Lattice
import Mathlib.Order.Nat

namespace Socnet.Net

structure TimeStamp where
  microsecond : UInt64
  deriving DecidableEq

namespace TimeStamp

def toNat (t : TimeStamp) : ℕ := t.microsecond.toNat

theorem toNat_injective : Function.Injective toNat := by
  intro a b h
  cases a
  cases b
  exact congrArg mk (UInt64.toNat_inj.mp h)

instance : LinearOrder TimeStamp := LinearOrder.lift' toNat toNat_injective

instance : Inhabited TimeStamp := ⟨⟨0⟩⟩

instance : Add TimeStamp := ⟨fun a b ↦ ⟨a.microsecond + b.microsecond⟩⟩

/-- The accessor `second()`. -/
def toSecond (t : TimeStamp) : UInt64 := t.microsecond / 1000000

/-- The accessor `millsecond()`. -/
def toMillsecond (t : TimeStamp) : UInt64 := t.microsecond / 1000

/-- The accessor `nanosecond()`. -/
def toNanosecond (t : TimeStamp) : UInt64 := t.microsecond * 1000

/-- The product is one of `int`s, which the 64-bit conversion extends in sign. -/
def millsecond (msec : Int32) : TimeStamp := ⟨(msec * 1000).toInt64.toUInt64⟩

/-- A value of the wall clock: `now()` computes it in a signed 64-bit integer. -/
abbrev Clock := Fin (2 ^ 63)

def now (clock : Clock) : TimeStamp := ⟨clock.val.toUInt64⟩

def second (sec : Int32) : TimeStamp := ⟨(sec * 1000000).toInt64.toUInt64⟩

def nowSecond (clock : Clock) (sec : Int32) : TimeStamp := now clock + second sec

def nowMsecond (clock : Clock) (msec : Int32) : TimeStamp := now clock + millsecond msec

theorem toNat_toUInt64 (p : Int32) : (p.toInt64.toUInt64.toNat : ℤ) = p.toInt % 2 ^ 64 := by
  have hint : p.toInt64.toBitVec.toInt = p.toInt := Int32.toInt_toInt64 p
  have hlt := p.toInt64.toBitVec.isLt
  rw [BitVec.toInt_eq_toNat_cond] at hint
  change (p.toInt64.toBitVec.toNat : ℤ) = _
  split_ifs at hint
  · omega
  · omega

/-- A product that an `int` cannot hold comes out too small or with its sign extended. -/
theorem toNat_product {m : ℤ} (h0 : 0 ≤ m) {p : Int32} (hp : p.toInt = m.bmod (2 ^ 32)) :
    (m < 2 ^ 31 → (p.toInt64.toUInt64.toNat : ℤ) = m) ∧
      (2 ^ 31 ≤ m → p.toInt64.toUInt64.toNat < 2 ^ 31 ∨
        2 ^ 64 - 2 ^ 31 ≤ p.toInt64.toUInt64.toNat) := by
  have hu := toNat_toUInt64 p
  have hlow := p.le_toInt
  have hhigh := p.toInt_lt
  constructor
  · intro hm
    have hfit : m.bmod (2 ^ 32) = m := by
      apply Int.bmod_eq_of_le
      · change -2147483648 ≤ m
        omega
      · change m < 2147483648
        exact hm
    rw [hp, hfit] at hu
    omega
  · intro hm
    omega

theorem toNat_millsecond {msec : Int32} (h0 : 0 ≤ msec.toInt) (h : msec.toInt * 1000 < 2 ^ 31) :
    (millsecond msec).toNat = (msec.toInt * 1000).toNat := by
  have hm := (toNat_product (m := msec.toInt * 1000) (by omega) (Int32.toInt_mul msec 1000)).1 h
  change (msec * 1000).toInt64.toUInt64.toNat = _
  change _ = msec.toInt * 1000 at hm
  omega

theorem toNat_now (clock : Clock) : (now clock).toNat = clock.val := by
  have hc := clock.isLt
  change (UInt64.ofNat clock.val).toNat = _
  rw [UInt64.toNat_ofNat']
  omega

theorem toNat_now_add (clock : Clock) (t : TimeStamp) :
    (now clock + t).toNat = (clock.val + t.toNat) % 2 ^ 64 := by
  change ((now clock).microsecond + t.microsecond).toNat = _
  rw [UInt64.toNat_add]
  change ((now clock).toNat + _) % _ = _
  rw [toNat_now]
  rfl

theorem toNat_nowMsecond (clock : Clock) {msec : Int32} (h0 : 0 ≤ msec.toInt)
    (h : msec.toInt * 1000 < 2 ^ 31) :
    (nowMsecond clock msec).toNat = clock.val + (msec.toInt * 1000).toNat := by
  have hc := clock.isLt
  rw [nowMsecond, toNat_now_add, toNat_millsecond h0 h]
  omega

section Deadlines

variable (clock : Clock)

/-- The number of units of `k` microseconds that is read back, the deadline, and that it
does not lie in the past, are right exactly when the `int` product `p` is. -/
theorem deadline_iff {n k : ℕ} (hn : n < 2 ^ 31) (hk : 0 < k) (hk' : k ≤ 1000000) {p : Int32}
    (hp : p.toInt = Int.bmod ((n * k : ℕ) : ℤ) (2 ^ 32)) :
    p.toInt64.toUInt64.toNat / k = n ∧
      (now clock + ⟨p.toInt64.toUInt64⟩).toNat = clock.val + n * k ∧
      now clock ≤ now clock + ⟨p.toInt64.toUInt64⟩ ↔ n * k < 2 ^ 31 := by
  have hc := clock.isLt
  obtain ⟨hfit, hwrap⟩ := toNat_product (Int.natCast_nonneg _) hp
  have hadd := toNat_now_add clock ⟨p.toInt64.toUInt64⟩
  change _ = (_ + p.toInt64.toUInt64.toNat) % _ at hadd
  constructor
  · rintro ⟨hread, -, -⟩
    have hlow := Nat.div_mul_le_self p.toInt64.toUInt64.toNat k
    have hhigh := Nat.lt_mul_div_succ p.toInt64.toUInt64.toNat hk
    have hbound : k * (n + 1) ≤ 1000000 * 2 ^ 31 := Nat.mul_le_mul hk' hn
    rw [hread] at hlow hhigh
    omega
  · intro h
    have hexact : p.toInt64.toUInt64.toNat = n * k := by
      have hfit := hfit (by exact_mod_cast h)
      exact_mod_cast hfit
    refine ⟨?_, ?_, ?_⟩
    · rw [hexact, Nat.mul_div_cancel n hk]
    · omega
    · change (now clock).toNat ≤ _
      rw [toNat_now]
      omega

/-- Both times can be read back, and lead from the present to deadlines that far ahead. -/
def Exact (sec msec : Int32) : Prop :=
  ((second sec).toSecond.toNat : ℤ) = sec.toInt ∧
    ((millsecond msec).toMillsecond.toNat : ℤ) = msec.toInt ∧
    ((nowSecond clock sec).toNat : ℤ) = clock.val + sec.toInt * 10 ^ 6 ∧
    ((nowMsecond clock msec).toNat : ℤ) = clock.val + msec.toInt * 10 ^ 3 ∧
    now clock ≤ nowSecond clock sec ∧ now clock ≤ nowMsecond clock msec

/-- The products fit an `int` up to 2147 seconds and up to 2147483 milliseconds. -/
theorem exact_iff {sec msec : Int32} (hsec : 0 ≤ sec.toInt) (hmsec : 0 ≤ msec.toInt) :
    Exact clock sec msec ↔ sec.toInt ≤ 2147 ∧ msec.toInt ≤ 2147483 := by
  have hlt := sec.toInt_lt
  have hlt' := msec.toInt_lt
  obtain ⟨n, hn⟩ := Int.eq_ofNat_of_zero_le hsec
  obtain ⟨n', hn'⟩ := Int.eq_ofNat_of_zero_le hmsec
  have hs := deadline_iff clock (n := n) (k := 1000000) (p := sec * 1000000) (by omega) (by omega)
    (by omega) (by rw [Int32.toInt_mul, hn]; rfl)
  have hm := deadline_iff clock (n := n') (k := 1000) (p := msec * 1000) (by omega) (by omega)
    (by omega) (by rw [Int32.toInt_mul, hn']; rfl)
  have hread : (second sec).toSecond.toNat = (sec * 1000000).toInt64.toUInt64.toNat / 1000000 :=
    UInt64.toNat_div _ _
  have hread' : (millsecond msec).toMillsecond.toNat = (msec * 1000).toInt64.toUInt64.toNat / 1000 :=
    UInt64.toNat_div _ _
  rw [Exact, hn, hn', hread, hread', nowSecond, nowMsecond, second, millsecond]
  constructor
  · rintro ⟨h₁, h₂, h₃, h₄, h₅, h₆⟩
    have := hs.mp ⟨by omega, by omega, h₅⟩
    have := hm.mp ⟨by omega, by omega, h₆⟩
    omega
  · rintro ⟨h, h'⟩
    obtain ⟨h₁, h₃, h₅⟩ := hs.mpr (by omega)
    obtain ⟨h₂, h₄, h₆⟩ := hm.mpr (by omega)
    exact ⟨by omega, by omega, by omega, by omega, h₅, h₆⟩

/-- A time of the clock in November of 2023. -/
def november : Clock := ⟨1700000000000000, by decide⟩

theorem exact_iff_default : Exact november 1800 2000 ↔
    (1800 : Int32).toInt ≤ 2147 ∧ (2000 : Int32).toInt ≤ 2147483 :=
  exact_iff november (by decide) (by decide)

/-- With a lifetime of an hour the deadline has passed before the session starts. -/
theorem not_exact_hour : ¬ Exact november 3600 2000 ∧ nowSecond november 3600 < now november :=
  ⟨fun h ↦ absurd h.1 (by decide), by decide⟩

end Deadlines

end TimeStamp

end Socnet.Net
