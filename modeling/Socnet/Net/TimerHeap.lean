import Mathlib.Logic.Function.Basic
import Socnet.Bytes
import Socnet.Net.TimeStamp

namespace Socnet.Net

structure Timer (κ : Type) where
  fd : ℤ
  timestamp : TimeStamp
  callback : κ

/-- `operator<`, which holds when the other timer expires first. -/
def Timer.lt {κ : Type} (t other : Timer κ) : Bool := other.timestamp < t.timestamp

structure TimerHeap (κ : Type) where
  c : List (Timer κ)
  n : ℕ
  fds : ℤ → Option ℕ

namespace TimerHeap

variable {κ : Type}

def init : TimerHeap κ := ⟨[], 0, fun _ ↦ none⟩

/-- `c_[i]` where it is read. -/
def get (l : List (Timer κ)) (i : ℕ) : Except Fault (Timer κ) :=
  match l[i]? with
  | none => .error .badRead
  | some t => .ok t

/-- `c_[i]` where it is written. -/
def put (l : List (Timer κ)) (i : ℕ) (t : Timer κ) : Except Fault (List (Timer κ)) :=
  if i < l.length then .ok (l.set i t) else .error .badRead

/-- The timer and the index of its fd go to `c[i]` in the end. -/
def place (v : Timer κ) (i : ℕ) (h : TimerHeap κ) : Except Fault (TimerHeap κ) := do
  let c ← put h.c i v
  .ok { h with c, fds := Function.update h.fds v.fd (some i) }

/-- The loop of `upAdjust`: `v` is the timer that is on its way up, and `i` the
place left open for it. -/
def upLoop (v : Timer κ) (i : ℕ) (h : TimerHeap κ) : Except Fault (TimerHeap κ) :=
  if _hi : i = 0 then h.place v i
  else do
    let p ← get h.c ((i - 1) / 2)
    if v.lt p then h.place v i
    else do
      let c ← put h.c i p
      upLoop v ((i - 1) / 2) { h with c, fds := Function.update h.fds p.fd (some i) }
termination_by i
decreasing_by omega

def upAdjust (h : TimerHeap κ) (i : ℕ) : Except Fault (TimerHeap κ) := do
  let v ← get h.c i
  h.upLoop v i

def minChild (h : TimerHeap κ) (child : ℕ) : Except Fault ℕ :=
  if child + 1 < h.n then do
    let a ← get h.c child
    let b ← get h.c (child + 1)
    .ok (if a.lt b then child + 1 else child)
  else .ok child

theorem minChild_bounds {h : TimerHeap κ} {child m : ℕ} (hc : child < h.n)
    (hm : h.minChild child = .ok m) : child ≤ m ∧ m < h.n := by
  unfold minChild at hm
  split_ifs at hm
  · obtain ⟨a, -, hm⟩ := bind_eq_ok.mp hm
    obtain ⟨b, -, hm⟩ := bind_eq_ok.mp hm
    cases hm
    split_ifs
    · omega
    · omega
  · cases hm
    omega

/-- The loop of `downAdjust`, with the place it ends at. -/
def downLoop (v : Timer κ) (i : ℕ) (h : TimerHeap κ) : Except Fault (TimerHeap κ × ℕ) :=
  if _hn : h.n ≤ i * 2 + 1 then do
    let h ← h.place v i
    .ok (h, i)
  else
    match _hm : h.minChild (i * 2 + 1) with
    | .error e => .error e
    | .ok child => do
      let a ← get h.c child
      if a.lt v then do
        let h ← h.place v i
        .ok (h, i)
      else do
        let c ← put h.c i a
        downLoop v child { h with c, fds := Function.update h.fds a.fd (some i) }
termination_by h.n - i
decreasing_by
  have := minChild_bounds (not_le.mp _hn) _hm
  omega

/-- Whether the timer has moved to a smaller index, which it never does. -/
def downAdjust (h : TimerHeap κ) (i : ℕ) : Except Fault (TimerHeap κ × Bool) := do
  let v ← get h.c i
  let (h, j) ← h.downLoop v i
  .ok (h, i > j)

def adjustBoth (h : TimerHeap κ) (i : ℕ) : Except Fault (TimerHeap κ) := do
  let (h, moved) ← h.downAdjust i
  if moved then .ok h else h.upAdjust i

def push (h : TimerHeap κ) (timer : Timer κ) : Except Fault (TimerHeap κ) :=
  match h.fds timer.fd with
  | none =>
    let h := { h with
      c := h.c ++ [timer], fds := Function.update h.fds timer.fd (some h.n), n := h.n + 1 }
    if h.n = 1 then .ok h else h.upAdjust (h.n - 1)
  | some i => do
    let t ← get h.c i
    let c ← put h.c i { t with timestamp := timer.timestamp, callback := timer.callback }
    { h with c }.adjustBoth i

def del (h : TimerHeap κ) (i : ℕ) : Except Fault (TimerHeap κ) :=
  if h.n = 0 then .ok h
  else do
    let a ← get h.c i
    let b ← get h.c (h.n - 1)
    let c ← put h.c i b
    let c ← put c (h.n - 1) a
    let h ← { h with c, n := h.n - 1 }.adjustBoth i
    match h.c.getLast? with
    | none => .error .badRead
    | some t => .ok { h with c := h.c.dropLast, fds := Function.update h.fds t.fd none }

def pop (h : TimerHeap κ) : Except Fault (TimerHeap κ) :=
  if h.n = 0 then .error .exception else h.del 0

def top (h : TimerHeap κ) : Except Fault (Timer κ) :=
  if h.n = 0 then .error .exception else get h.c 0

def empty (h : TimerHeap κ) : Bool := h.n = 0

def adjust (h : TimerHeap κ) (timer : Timer κ) : Except Fault (TimerHeap κ) :=
  match h.fds timer.fd with
  | none => .ok h
  | some i => do
    let t ← get h.c i
    let c ← put h.c i { t with timestamp := timer.timestamp }
    let (h, _) ← { h with c }.downAdjust i
    .ok h

end TimerHeap

end Socnet.Net
