import Mathlib.Tactic.Linarith
import Socnet.Net.TimeStamp

namespace Socnet.Net

/-- `timespec`, two numbers of type `long`. -/
structure Timespec where
  tvSec : Int64
  tvNsec : Int64
  deriving DecidableEq

namespace Timespec

def nanoseconds (s : Timespec) : ℤ := s.tvSec.toInt * 10 ^ 9 + s.tvNsec.toInt

/-- `timerfd_settime` takes no other nanoseconds. -/
def Valid (s : Timespec) : Prop := 0 ≤ s.tvNsec.toInt ∧ s.tvNsec.toInt < 10 ^ 9

instance : DecidablePred Valid := fun _ ↦ inferInstanceAs (Decidable (_ ∧ _))

end Timespec

/-- What `clock_gettime` answers. -/
structure RealTime extends Timespec where
  valid : toTimespec.Valid

structure Itimerspec where
  itInterval : Timespec
  itValue : Timespec
  deriving DecidableEq

namespace TimerQueue

/-- The second local of `runOnce` and `runEvery`. -/
def nanosecond (t : TimeStamp) : UInt64 := (t.microsecond - t.toSecond * 1000000) * 100

/-- The sums are unsigned and are converted back to `long`. -/
def itValue (now : RealTime) (t : TimeStamp) : Timespec where
  tvSec := (now.tvSec.toUInt64 + t.toSecond).toInt64
  tvNsec := (now.tvNsec.toUInt64 + nanosecond t).toInt64

/-- The `itimerspec` that `runOnce` hands to `timerfd_settime`. -/
def runOnce (now : RealTime) (t : TimeStamp) : Itimerspec where
  itValue := itValue now t
  itInterval := ⟨0, 0⟩

def runEvery (now : RealTime) (t : TimeStamp) : Itimerspec where
  itValue := itValue now t
  itInterval := ⟨t.toSecond.toInt64, (nanosecond t).toInt64⟩

/-- The first expiry lies one period ahead, and the next ones `interval` nanoseconds apart. -/
structure Arms (now : RealTime) (t : TimeStamp) (interval : ℤ) (itsp : Itimerspec) : Prop where
  validValue : itsp.itValue.Valid
  validInterval : itsp.itInterval.Valid
  period : itsp.itInterval.nanoseconds = interval
  first : itsp.itValue.nanoseconds = now.nanoseconds + t.toNanosecond.toNat

theorem toInt_toInt64 (a : UInt64) : a.toInt64.toInt % 2 ^ 64 = a.toNat := by
  have hlt := a.toBitVec.isLt
  change a.toBitVec.toInt % 2 ^ 64 = a.toBitVec.toNat
  rw [BitVec.toInt_eq_toNat_cond]
  split_ifs
  · omega
  · omega

theorem toNat_toUInt64 (a : Int64) : (a.toUInt64.toNat : ℤ) = a.toInt % 2 ^ 64 := by
  have h := toInt_toInt64 a.toUInt64
  rw [Int64.toInt64_toUInt64] at h
  exact h.symm

theorem toInt_add (a : Int64) (b : UInt64) :
    (a.toUInt64 + b).toInt64.toInt % 2 ^ 64 = (a.toInt + b.toNat) % 2 ^ 64 := by
  have ha := toNat_toUInt64 a
  rw [toInt_toInt64, UInt64.toNat_add]
  omega

variable (now : RealTime) (t : TimeStamp)

theorem toNat_toSecond : t.toSecond.toNat = t.toNat / 1000000 := UInt64.toNat_div _ _

theorem toNat_nanosecond : (nanosecond t).toNat = t.toNat % 1000000 * 100 := by
  have hlt := t.microsecond.toNat_lt
  have hs := toNat_toSecond t
  change t.toSecond.toNat = t.microsecond.toNat / 1000000 at hs
  change _ = t.microsecond.toNat % 1000000 * 100
  rw [nanosecond, UInt64.toNat_mul, UInt64.toNat_sub, UInt64.toNat_mul, hs]
  change (2 ^ 64 - _ * 1000000 % 2 ^ 64 + _) % 2 ^ 64 * 100 % 2 ^ 64 = _
  omega

theorem toNat_toNanosecond : t.toNanosecond.toNat = t.toNat * 1000 % 2 ^ 64 := UInt64.toNat_mul _ _

/-- A timer is armed for the time it is given when that is a whole number of seconds whose
nanoseconds can be counted, and the clock can reach it. -/
def Reachable (now : RealTime) (t : TimeStamp) : Prop :=
  t.toNat % 1000000 = 0 ∧ t.toNat * 1000 < 2 ^ 64 ∧
    now.tvSec.toInt + (t.toNat / 1000000 : ℕ) < 2 ^ 63

theorem toInt_tvNsec : (itValue now t).tvNsec.toInt = now.tvNsec.toInt + (t.toNat % 1000000 * 100 : ℕ) := by
  obtain ⟨hnow0, hnow⟩ := now.valid
  have hsum := toInt_add now.tvNsec (nanosecond t)
  have hlow := (itValue now t).tvNsec.le_toInt
  have hhigh := (itValue now t).tvNsec.toInt_lt
  change (itValue now t).tvNsec.toInt % _ = _ at hsum
  rw [toNat_nanosecond] at hsum
  omega

/-- The seconds wrap around when the clock cannot reach them. -/
theorem toInt_tvSec :
    (itValue now t).tvSec.toInt = now.tvSec.toInt + (t.toNat / 1000000 : ℕ) -
      if now.tvSec.toInt + (t.toNat / 1000000 : ℕ) < 2 ^ 63 then 0 else 2 ^ 64 := by
  have hlt := t.microsecond.toNat_lt
  change t.toNat < _ at hlt
  have hnow := now.tvSec.le_toInt
  have hnow' := now.tvSec.toInt_lt
  have hsum := toInt_add now.tvSec t.toSecond
  have hlow := (itValue now t).tvSec.le_toInt
  have hhigh := (itValue now t).tvSec.toInt_lt
  change (itValue now t).tvSec.toInt % _ = _ at hsum
  rw [toNat_toSecond] at hsum
  split_ifs
  · omega
  · omega

/-- Of `q` seconds and `r` microseconds, which are counted in tenths of what they are, the
nanoseconds `w` come out only if there are no microseconds and `w` has not wrapped around. -/
theorem tenths_iff {q r w k : ℤ} (hr0 : 0 ≤ r) (hr : r < 10 ^ 6) (hk : 0 ≤ k)
    (hw : w = q * 10 ^ 9 + r * 1000 - k * 2 ^ 64) : q * 10 ^ 9 + r * 100 = w ↔ r = 0 ∧ k = 0 := by
  constructor
  · intro h
    obtain rfl | hpos := hk.eq_or_lt
    · omega
    · linarith
  · rintro ⟨rfl, rfl⟩
    omega

theorem tenths_iff_toNat (t : TimeStamp) :
    ((t.toNat / 1000000 : ℕ) : ℤ) * 10 ^ 9 + (t.toNat % 1000000 * 100 : ℕ) = t.toNanosecond.toNat ↔
      t.toNat % 1000000 = 0 ∧ t.toNat * 1000 < 2 ^ 64 := by
  have hsplit := Nat.div_add_mod t.toNat 1000000
  have hrest := Nat.mod_lt t.toNat (show 0 < 1000000 by omega)
  have hwrap := Nat.div_add_mod (t.toNat * 1000) (2 ^ 64)
  have hiff := tenths_iff (q := (t.toNat / 1000000 : ℕ)) (r := (t.toNat % 1000000 : ℕ))
    (w := (t.toNat * 1000 % 2 ^ 64 : ℕ)) (k := (t.toNat * 1000 / 2 ^ 64 : ℕ))
    (by omega) (by omega) (by omega) (by omega)
  rw [toNat_toNanosecond]
  push_cast at hiff ⊢
  rw [hiff, ← Nat.div_eq_zero_iff_lt (Nat.two_pow_pos 64)]
  norm_cast

/-- The nanoseconds that a time wraps around by are less than the seconds that a clock wraps
around by. -/
theorem first_iff : (itValue now t).nanoseconds = now.nanoseconds + t.toNanosecond.toNat ↔
    Reachable now t := by
  have hlt := t.toNanosecond.toNat_lt
  have htenths := tenths_iff_toNat t
  rw [Timespec.nanoseconds, Timespec.nanoseconds, Reachable, toInt_tvNsec, toInt_tvSec, ← and_assoc,
    ← htenths]
  push_cast
  split_ifs with hreach
  · rw [and_iff_left hreach]
    constructor
    · intro h
      linarith
    · intro h
      linarith
  · refine iff_of_false ?_ fun h ↦ hreach h.2
    have hsmall := Nat.mod_lt t.toNat (show 0 < 1000000 by omega)
    have hlt := t.microsecond.toNat_lt
    change t.toNat < _ at hlt
    omega

theorem toInt_toInt64_of_lt {a : UInt64} (h : a.toNat < 2 ^ 63) : a.toInt64.toInt = a.toNat := by
  have hmod := toInt_toInt64 a
  have hlow := a.toInt64.le_toInt
  have hhigh := a.toInt64.toInt_lt
  omega

theorem valid_itValue (hreach : Reachable now t) : (itValue now t).Valid := by
  have hnsec := toInt_tvNsec now t
  rw [hreach.1] at hnsec
  obtain ⟨hnow0, hnow⟩ := now.valid
  constructor
  · omega
  · omega

theorem toInt_nanosecond : (nanosecond t).toInt64.toInt = (t.toNat % 1000000 * 100 : ℕ) := by
  have hnsec := toNat_nanosecond t
  rw [toInt_toInt64_of_lt (by omega), hnsec]

theorem valid_itInterval : (runEvery now t).itInterval.Valid := by
  have hnsec := toInt_nanosecond t
  constructor
  · change 0 ≤ (nanosecond t).toInt64.toInt
    omega
  · change (nanosecond t).toInt64.toInt < _
    omega

theorem period_iff : (runEvery now t).itInterval.nanoseconds = t.toNanosecond.toNat ↔
    t.toNat % 1000000 = 0 ∧ t.toNat * 1000 < 2 ^ 64 := by
  have hlt := t.microsecond.toNat_lt
  change t.toNat < _ at hlt
  have hsec := toNat_toSecond t
  rw [← tenths_iff_toNat, Timespec.nanoseconds]
  change t.toSecond.toInt64.toInt * _ + (nanosecond t).toInt64.toInt = _ ↔ _
  rw [toInt_nanosecond, toInt_toInt64_of_lt (by omega), hsec]

/-- Both functions arm the timer for what they are given at the same times. -/
theorem arms_iff :
    Arms now t t.toNanosecond.toNat (runEvery now t) ∧ Arms now t 0 (runOnce now t) ↔
      Reachable now t := by
  constructor
  · rintro ⟨hevery, -⟩
    exact (first_iff now t).mp hevery.first
  · intro h
    have hvalue := valid_itValue now t h
    have hfirst := (first_iff now t).mpr h
    have hperiod := (period_iff now t).mpr ⟨h.1, h.2.1⟩
    have hnone : Timespec.Valid ⟨0, 0⟩ := by decide
    have hzero : Timespec.nanoseconds ⟨0, 0⟩ = 0 := by decide
    exact ⟨⟨hvalue, valid_itInterval now t, hperiod, hfirst⟩, ⟨hvalue, hnone, hzero, hfirst⟩⟩

/-- The last nanosecond of a second. -/
def lastNanosecond : RealTime := ⟨⟨1700000000, 999999999⟩, by decide⟩

/-- Two and a half seconds come out as two and five hundredths, and late in a second they
are refused. -/
theorem not_arms_half : 0 < (TimeStamp.millsecond 2500).toNat ∧
    ¬ (Arms lastNanosecond (.millsecond 2500) (TimeStamp.millsecond 2500).toNanosecond.toNat
        (runEvery lastNanosecond (.millsecond 2500)) ∧
      Arms lastNanosecond (.millsecond 2500) 0 (runOnce lastNanosecond (.millsecond 2500))) ∧
    ¬ (runEvery lastNanosecond (.millsecond 2500)).itValue.Valid ∧
    (runEvery lastNanosecond (.millsecond 2500)).itInterval.nanoseconds = 2050000000 :=
  ⟨by decide, fun h ↦ absurd h.1.period (by decide), by decide, by decide⟩

end TimerQueue

end Socnet.Net
