import Mathlib.Algebra.BigOperators.Group.Finset.Basic
import Mathlib.Algebra.Order.Group.Multiset
import Mathlib.Data.Fintype.Basic
import Mathlib.Tactic.Abel
import Socnet.Lib.Transition

namespace Socnet.Net

open Lib.Transition

variable {ι τ : Type}

/-- Where a thread stands in `run`: before the lock; with the lock, before the test of the
inner loop or behind it, about to wait; in `wait`, without the lock; in a task; returned. -/
inductive Worker (τ : Type)
  | locking
  | testing
  | idle
  | waiting
  | busy (task : τ)
  | exited

namespace Worker

def isWaiting : Worker τ → Bool
  | waiting => true
  | _ => false

def HasLock (w : Worker τ) : Prop := w = testing ∨ w = idle

/-- The task that is being run. -/
def inHand : Worker τ → Multiset τ
  | busy task => {task}
  | _ => 0

/-- How many steps are left before the thread waits, at most. -/
def toGo : Worker τ → ℕ
  | busy _ => 4
  | locking => 3
  | testing => 2
  | idle => 1
  | waiting => 0
  | exited => 0

end Worker

/-- `shutdownAll`: not called, with `running_` cleared, or behind `notify_all`. -/
inductive Shutdown
  | none
  | stopped
  | notified

/-- The threads of the pool, and the calls of `add` under way: those past the test of
`running_`, and the number of those that have still to notify. `added`, `taken` and
`finished` are the tasks that have passed through the queue, in order. -/
structure ThreadPool (ι τ : Type) where
  tasks : List τ
  running : Bool
  locker : Option ι
  workers : ι → Worker τ
  shutdown : Shutdown
  adding : List τ
  notifies : ℕ
  added : List τ
  taken : List τ
  finished : List τ

namespace ThreadPool

def init : ThreadPool ι τ := ⟨[], true, none, fun _ ↦ .locking, .none, [], 0, [], [], []⟩

/-- A step of one thread, between two places where another one may get ahead of it.
`notifyOne` wakes the thread it names, and `wake` is a wakeup out of nothing. -/
inductive Action (ι τ : Type)
  | add (task : τ)
  | emplace (i : ℕ)
  | notifyOne (i : Option ι)
  | lock (i : ι)
  | test (i : ι)
  | wait (i : ι)
  | wake (i : ι)
  | finish (i : ι)
  | stop
  | notifyAll

/-- What the threads and the calls under way do on their own. -/
def Action.Inner : Action ι τ → Prop
  | emplace _ | notifyOne _ | lock _ | test _ | wait _ | finish _ => True
  | add _ | wake _ | stop | notifyAll => False

variable [DecidableEq ι]

def setWorker (s : ThreadPool ι τ) (i : ι) (w : Worker τ) : ThreadPool ι τ :=
  { s with workers := Function.update s.workers i w }

/-- The test of the inner loop and what follows it with the lock still held. Once
`running_` has been cleared it stays so. -/
def test (s : ThreadPool ι τ) (i : ι) : ThreadPool ι τ :=
  match s.tasks with
  | [] =>
    if s.running then s.setWorker i .idle
    else { s.setWorker i .exited with locker := none }
  | task :: tasks =>
    { s.setWorker i (.busy task) with locker := none, tasks, taken := s.taken ++ [task] }

def notifyOne (s : ThreadPool ι τ) : Option ι → ThreadPool ι τ
  | none => { s with notifies := s.notifies - 1 }
  | some i => { s.setWorker i .locking with notifies := s.notifies - 1 }

def next [Fintype ι] (s : ThreadPool ι τ) : Action ι τ → Option (ThreadPool ι τ)
  | .add task => some (if s.running then { s with adding := s.adding ++ [task] } else s)
  | .emplace i =>
    match s.locker, s.adding[i]? with
    | none, some task => some { s with
        adding := s.adding.eraseIdx i, tasks := s.tasks ++ [task], notifies := s.notifies + 1
        added := s.added ++ [task] }
    | _, _ => none
  | .notifyOne none =>
    if 0 < s.notifies ∧ ∀ i, (s.workers i).isWaiting = false then some (s.notifyOne none) else none
  | .notifyOne (some i) =>
    if 0 < s.notifies ∧ (s.workers i).isWaiting then some (s.notifyOne (some i)) else none
  | .lock i =>
    match s.locker, s.workers i with
    | none, .locking => some { s.setWorker i .testing with locker := some i }
    | _, _ => none
  | .test i =>
    match s.workers i with
    | .testing => some (s.test i)
    | _ => none
  | .wait i =>
    match s.workers i with
    | .idle => some { s.setWorker i .waiting with locker := none }
    | _ => none
  | .wake i => if (s.workers i).isWaiting then some (s.setWorker i .locking) else none
  | .finish i =>
    match s.workers i with
    | .busy task => some { s.setWorker i .locking with finished := s.finished ++ [task] }
    | _ => none
  | .stop =>
    match s.shutdown with
    | .none => some { s with running := false, shutdown := .stopped }
    | _ => none
  | .notifyAll =>
    match s.shutdown with
    | .stopped => some { s with
        shutdown := .notified
        workers := fun i ↦ if (s.workers i).isWaiting then .locking else s.workers i }
    | _ => none

/-- The steps by what they ask for and what they change. -/
inductive Step (s : ThreadPool ι τ) : Action ι τ → ThreadPool ι τ → Prop
  | add {task : τ} : s.running = true → Step s (.add task) { s with adding := s.adding ++ [task] }
  | refused {task : τ} : s.running = false → Step s (.add task) s
  | emplace {i : ℕ} {task : τ} : s.locker = none → s.adding[i]? = some task →
      Step s (.emplace i) { s with
        adding := s.adding.eraseIdx i, tasks := s.tasks ++ [task], notifies := s.notifies + 1
        added := s.added ++ [task] }
  | notifyNone : 0 < s.notifies → (∀ i, (s.workers i).isWaiting = false) →
      Step s (.notifyOne none) { s with notifies := s.notifies - 1 }
  | notifySome {i : ι} : 0 < s.notifies → s.workers i = .waiting →
      Step s (.notifyOne (some i)) { s.setWorker i .locking with notifies := s.notifies - 1 }
  | lock {i : ι} : s.locker = none → s.workers i = .locking →
      Step s (.lock i) { s.setWorker i .testing with locker := some i }
  | testIdle {i : ι} : s.workers i = .testing → s.tasks = [] → s.running = true →
      Step s (.test i) (s.setWorker i .idle)
  | testExit {i : ι} : s.workers i = .testing → s.tasks = [] → s.running = false →
      Step s (.test i) { s.setWorker i .exited with locker := none }
  | testTake {i : ι} {task : τ} {tasks : List τ} : s.workers i = .testing →
      s.tasks = task :: tasks → Step s (.test i) { s.setWorker i (.busy task) with
        locker := none, tasks, taken := s.taken ++ [task] }
  | wait {i : ι} : s.workers i = .idle →
      Step s (.wait i) { s.setWorker i .waiting with locker := none }
  | wake {i : ι} : s.workers i = .waiting → Step s (.wake i) (s.setWorker i .locking)
  | finish {i : ι} {task : τ} : s.workers i = .busy task →
      Step s (.finish i) { s.setWorker i .locking with finished := s.finished ++ [task] }
  | stop : s.shutdown = .none → Step s .stop { s with running := false, shutdown := .stopped }
  | notifyAll : s.shutdown = .stopped → Step s .notifyAll { s with
      shutdown := .notified
      workers := fun i ↦ if (s.workers i).isWaiting then .locking else s.workers i }

omit [DecidableEq ι] in
theorem eq_waiting {w : Worker τ} (h : w.isWaiting = true) : w = .waiting := by
  cases w with
  | waiting => rfl
  | locking | testing | idle | busy | exited => cases h

theorem step_of_next [Fintype ι] {s s' : ThreadPool ι τ} {a : Action ι τ} (h : s.next a = some s') :
    Step s a s' := by
  cases a with
  | add task =>
    simp only [next, Option.some.injEq] at h
    split_ifs at h with hr
    · exact h ▸ .add hr
    · exact h ▸ .refused (Bool.not_eq_true _ ▸ hr)
  | emplace i =>
    simp only [next] at h
    split at h
    · rename_i hl ht
      cases h
      exact .emplace hl ht
    · cases h
  | notifyOne i =>
    cases i with
    | none =>
      simp only [next] at h
      split_ifs at h with hc
      cases h
      exact .notifyNone hc.1 hc.2
    | some i =>
      simp only [next] at h
      split_ifs at h with hc
      cases h
      exact .notifySome hc.1 (eq_waiting hc.2)
  | lock i =>
    simp only [next] at h
    split at h
    · rename_i hl hw
      cases h
      exact .lock hl hw
    · cases h
  | test i =>
    simp only [next] at h
    split at h
    · rename_i hw
      cases h
      unfold test
      split
      · rename_i ht
        split_ifs with hr
        · exact .testIdle hw ht hr
        · exact .testExit hw ht (Bool.not_eq_true _ ▸ hr)
      · rename_i task tasks ht
        exact .testTake hw ht
    · cases h
  | wait i =>
    simp only [next] at h
    split at h
    · rename_i hw
      cases h
      exact .wait hw
    · cases h
  | wake i =>
    simp only [next] at h
    split_ifs at h with hw
    cases h
    exact .wake (eq_waiting hw)
  | finish i =>
    simp only [next] at h
    split at h
    · rename_i task hw
      cases h
      exact .finish hw
    · cases h
  | stop =>
    simp only [next] at h
    split at h
    · rename_i hs
      cases h
      exact .stop hs
    · cases h
  | notifyAll =>
    simp only [next] at h
    split at h
    · rename_i hs
      cases h
      exact .notifyAll hs
    · cases h

theorem workers_setWorker_self (s : ThreadPool ι τ) (i : ι) (w : Worker τ) :
    (s.setWorker i w).workers i = w := by simp only [setWorker, Function.update_self]

theorem workers_setWorker_of_ne (s : ThreadPool ι τ) {i j : ι} (w : Worker τ) (h : j ≠ i) :
    (s.setWorker i w).workers j = s.workers j := by
  simp only [setWorker, Function.update_of_ne h]

theorem forall_setWorker {P : ι → Worker τ → Prop} {s : ThreadPool ι τ} {i : ι} {w : Worker τ}
    (hi : P i w) (h : ∀ j, j ≠ i → P j (s.workers j)) (j : ι) :
    P j ((s.setWorker i w).workers j) := by
  by_cases hj : j = i
  · rw [hj, workers_setWorker_self]
    exact hi
  · rw [workers_setWorker_of_ne s w hj]
    exact h j hj

section Ledger

variable [Fintype ι]

/-- A count over the threads changes by what it is for the one that has moved. -/
theorem sum_setWorker {M : Type} [AddCommMonoid M] (f : Worker τ → M) (s : ThreadPool ι τ) (i : ι)
    (w : Worker τ) : ∑ j, f ((s.setWorker i w).workers j) + f (s.workers i) =
      ∑ j, f (s.workers j) + f w := by
  have hrest : ∑ j ∈ Finset.univ.erase i, f ((s.setWorker i w).workers j) =
      ∑ j ∈ Finset.univ.erase i, f (s.workers j) := by
    refine Finset.sum_congr rfl fun j hj ↦ ?_
    rw [workers_setWorker_of_ne s w (Finset.ne_of_mem_erase hj)]
  rw [← Finset.add_sum_erase _ _ (Finset.mem_univ i), ← Finset.add_sum_erase _ _ (Finset.mem_univ i),
    hrest, workers_setWorker_self]
  abel

/-- The queue is first in, first out, and what has been taken from it is in hand or done. -/
structure Ledger (s : ThreadPool ι τ) : Prop where
  order : s.added = s.taken ++ s.tasks
  once : (s.taken : Multiset τ) = s.finished + ∑ i, (s.workers i).inHand

theorem Ledger.setWorker {s : ThreadPool ι τ} (h : s.Ledger) {i : ι} {w : Worker τ}
    (hw : w.inHand = (s.workers i).inHand) : (s.setWorker i w).Ledger where
  order := h.order
  once := by
    have hsum := sum_setWorker Worker.inHand s i w
    rw [hw] at hsum
    change (s.taken : Multiset τ) = s.finished + ∑ j, ((s.setWorker i w).workers j).inHand
    rw [add_right_cancel hsum, h.once]

theorem Ledger.step {s s' : ThreadPool ι τ} {a : Action ι τ} (h : s.Ledger) (hs : Step s a s') :
    s'.Ledger := by
  cases hs with
  | add => exact ⟨h.order, h.once⟩
  | refused => exact h
  | emplace =>
    refine ⟨?_, h.once⟩
    change s.added ++ _ = s.taken ++ (s.tasks ++ _)
    rw [h.order, List.append_assoc]
  | notifyNone => exact ⟨h.order, h.once⟩
  | notifySome _ hw =>
    have h' := h.setWorker (w := .locking) (congrArg Worker.inHand hw).symm
    exact ⟨h'.order, h'.once⟩
  | lock _ hw =>
    have h' := h.setWorker (w := .testing) (congrArg Worker.inHand hw).symm
    exact ⟨h'.order, h'.once⟩
  | testIdle hw => exact h.setWorker (congrArg Worker.inHand hw).symm
  | testExit hw =>
    have h' := h.setWorker (w := .exited) (congrArg Worker.inHand hw).symm
    exact ⟨h'.order, h'.once⟩
  | @testTake i task tasks hw ht =>
    refine ⟨?_, ?_⟩
    · change s.added = (s.taken ++ [task]) ++ tasks
      rw [h.order, ht, List.append_assoc, List.singleton_append]
    · have hsum : ∑ j, ((s.setWorker i (.busy task)).workers j).inHand =
          ∑ j, (s.workers j).inHand + {task} := by
        simpa only [hw, Worker.inHand, add_zero] using
          sum_setWorker Worker.inHand s i (.busy task)
      change ((s.taken ++ [task] : List τ) : Multiset τ) =
        s.finished + ∑ j, ((s.setWorker i (.busy task)).workers j).inHand
      rw [← Multiset.coe_add, h.once, add_assoc, hsum, Multiset.coe_singleton]
  | wait hw =>
    have h' := h.setWorker (w := .waiting) (congrArg Worker.inHand hw).symm
    exact ⟨h'.order, h'.once⟩
  | wake hw => exact h.setWorker (congrArg Worker.inHand hw).symm
  | @finish i task hw =>
    refine ⟨h.order, ?_⟩
    have hsum : ∑ j, ((s.setWorker i .locking).workers j).inHand + {task} =
        ∑ j, (s.workers j).inHand := by
      simpa only [hw, Worker.inHand, add_zero] using sum_setWorker Worker.inHand s i .locking
    change (s.taken : Multiset τ) = ((s.finished ++ [task] : List τ) : Multiset τ) +
      ∑ j, ((s.setWorker i .locking).workers j).inHand
    rw [← Multiset.coe_add, h.once, ← hsum, Multiset.coe_singleton, add_assoc,
      add_comm ({task} : Multiset τ)]
  | stop => exact ⟨h.order, h.once⟩
  | notifyAll =>
    refine ⟨h.order, h.once.trans (congrArg _ (Finset.sum_congr rfl fun j _ ↦ ?_))⟩
    dsimp only
    split_ifs with hw
    · rw [eq_waiting hw]
      rfl
    · rfl

end Ledger

/-- The lock is held by the one thread that stands behind it. -/
def Locked (s : ThreadPool ι τ) : Prop := ∀ i, (s.workers i).HasLock ↔ s.locker = some i

omit [DecidableEq ι] in
theorem Locked.unique {s : ThreadPool ι τ} (h : s.Locked) {i j : ι} (hi : (s.workers i).HasLock)
    (hj : (s.workers j).HasLock) : i = j :=
  Option.some.inj (((h i).mp hi).symm.trans ((h j).mp hj))

omit [DecidableEq ι] in
theorem Locked.free {s : ThreadPool ι τ} (h : s.Locked) (hl : s.locker = none) (i : ι) :
    ¬ (s.workers i).HasLock := by
  rw [h i, hl]
  simp

theorem Locked.move {s : ThreadPool ι τ} (h : s.Locked) {i : ι} {w : Worker τ}
    (hi : ¬ (s.workers i).HasLock) (hw : ¬ w.HasLock) : (s.setWorker i w).Locked :=
  forall_setWorker (P := fun j w ↦ w.HasLock ↔ s.locker = some j)
    (iff_of_false hw ((h i).not.mp hi)) fun j _ ↦ h j

theorem Locked.release {s : ThreadPool ι τ} (h : s.Locked) {i : ι} {w : Worker τ}
    (hi : (s.workers i).HasLock) (hw : ¬ w.HasLock) :
    Locked { s.setWorker i w with locker := none } :=
  forall_setWorker (P := fun j w ↦ w.HasLock ↔ none = some j) (iff_of_false hw (by simp))
    fun _ hj ↦ iff_of_false (fun hl ↦ hj (h.unique hl hi)) (by simp)

theorem Locked.step {s s' : ThreadPool ι τ} {a : Action ι τ} (h : s.Locked) (hs : Step s a s') :
    s'.Locked := by
  cases hs with
  | add | refused | emplace | notifyNone | stop => exact h
  | notifySome _ hw => exact h.move (by simp [hw, Worker.HasLock]) (by simp [Worker.HasLock])
  | lock hl hw =>
    refine forall_setWorker (P := fun j w ↦ w.HasLock ↔ some _ = some j)
      (iff_of_true (.inl rfl) rfl) fun j hj ↦ ?_
    exact iff_of_false (h.free hl j) fun heq ↦ hj (Option.some.inj heq).symm
  | @testIdle i hw =>
    refine forall_setWorker (P := fun j w ↦ w.HasLock ↔ s.locker = some j) ?_ fun j _ ↦ h j
    exact iff_of_true (.inr rfl) ((h i).mp (.inl hw))
  | testExit hw => exact h.release (.inl hw) (by simp [Worker.HasLock])
  | testTake hw => exact h.release (.inl hw) (by simp [Worker.HasLock])
  | wait hw => exact h.release (.inr hw) (by simp [Worker.HasLock])
  | wake hw => exact h.move (by simp [hw, Worker.HasLock]) (by simp [Worker.HasLock])
  | finish hw => exact h.move (by simp [hw, Worker.HasLock]) (by simp [Worker.HasLock])
  | notifyAll =>
    intro j
    dsimp only
    split_ifs with hw
    · exact iff_of_false (by simp [Worker.HasLock])
        ((h j).not.mp (by simp [eq_waiting hw, Worker.HasLock]))
    · exact h j

/-- A thread that is about to wait has found the queue empty, and no task can have come in
since. A thread returns only from a pool that has been stopped, and while it runs and holds
tasks, a thread is awake or a notification is on its way. -/
structure Guarded (s : ThreadPool ι τ) : Prop where
  locked : s.Locked
  idle : ∀ i, s.workers i = .idle → s.tasks = []
  exited : ∀ i, s.workers i = .exited → s.running = false
  stopped : s.running = true ↔ s.shutdown = .none
  woken : s.running = true → s.tasks ≠ [] →
    0 < s.notifies ∨ ∃ i, (s.workers i).isWaiting = false

theorem Guarded.idle_step {s s' : ThreadPool ι τ} {a : Action ι τ} (h : s.Guarded)
    (hs : Step s a s') : ∀ i, s'.workers i = .idle → s'.tasks = [] := by
  cases hs with
  | add | refused | notifyNone | stop => exact h.idle
  | emplace hl => exact fun i hi ↦ absurd (.inr hi) (h.locked.free hl i)
  | notifySome | lock | testExit | wake | finish | wait =>
    exact forall_setWorker (P := fun _ w ↦ w = .idle → s.tasks = []) (fun hw ↦ by cases hw)
      fun j _ ↦ h.idle j
  | testIdle _ ht => exact fun _ _ ↦ ht
  | @testTake i task tasks hw =>
    refine forall_setWorker (P := fun _ w ↦ w = .idle → tasks = []) (fun hw ↦ by cases hw)
      fun j hj hidle ↦ ?_
    exact absurd (h.locked.unique (.inr hidle) (.inl hw)) hj
  | notifyAll =>
    intro j
    dsimp only
    split_ifs
    · exact fun hw ↦ by cases hw
    · exact h.idle j

theorem Guarded.exited_step {s s' : ThreadPool ι τ} {a : Action ι τ} (h : s.Guarded)
    (hs : Step s a s') : ∀ i, s'.workers i = .exited → s'.running = false := by
  cases hs with
  | add | refused | notifyNone | emplace => exact h.exited
  | stop => exact fun _ _ ↦ rfl
  | notifySome | lock | testIdle | testTake | wait | wake | finish =>
    exact forall_setWorker (P := fun _ w ↦ w = .exited → s.running = false)
      (fun hw ↦ by cases hw) fun j _ ↦ h.exited j
  | testExit _ _ hr => exact fun _ _ ↦ hr
  | notifyAll =>
    intro j
    dsimp only
    split_ifs
    · exact fun hw ↦ by cases hw
    · exact h.exited j

theorem exists_awake {s : ThreadPool ι τ} {i : ι} {w : Worker τ} (hw : w.isWaiting = false) :
    ∃ j, ((s.setWorker i w).workers j).isWaiting = false :=
  ⟨i, by rw [workers_setWorker_self]; exact hw⟩

theorem Guarded.woken_step [Nonempty ι] {s s' : ThreadPool ι τ} {a : Action ι τ} (h : s.Guarded)
    (hs : Step s a s') : s'.running = true → s'.tasks ≠ [] →
      0 < s'.notifies ∨ ∃ i, (s'.workers i).isWaiting = false := by
  intro hr ht
  cases hs with
  | add | refused => exact h.woken hr ht
  | emplace => exact .inl (Nat.succ_pos _)
  | notifyNone _ hawake => exact .inr ⟨Classical.arbitrary ι, hawake _⟩
  | notifySome | lock | testIdle | testExit | testTake | wake | finish =>
    exact .inr (exists_awake rfl)
  | wait hw => exact absurd (h.idle _ hw) ht
  | stop => cases hr
  | notifyAll =>
    refine .inr ⟨Classical.arbitrary ι, ?_⟩
    dsimp only
    split_ifs with hw
    · rfl
    · exact Bool.not_eq_true _ ▸ hw

theorem Guarded.step [Nonempty ι] {s s' : ThreadPool ι τ} {a : Action ι τ} (h : s.Guarded)
    (hs : Step s a s') : s'.Guarded where
  locked := h.locked.step hs
  idle := h.idle_step hs
  exited := h.exited_step hs
  stopped := by
    cases hs with
    | stop => exact iff_of_false (by simp) (by simp)
    | notifyAll hd =>
      have hnot : ¬ s.running = true := by
        rw [h.stopped, hd]
        simp
      exact iff_of_false hnot (by simp)
    | add | refused | emplace | notifyNone | notifySome | lock | testIdle | testExit | testTake |
      wait | wake | finish => exact h.stopped
  woken := h.woken_step hs

omit [DecidableEq ι] in
theorem guarded_init : (init : ThreadPool ι τ).Guarded where
  locked i := iff_of_false (by simp [init, Worker.HasLock]) (by simp [init])
  idle _ h := by cases h
  exited _ h := by cases h
  stopped := iff_of_true rfl rfl
  woken _ h := absurd rfl h

section Runs

variable [Fintype ι]

omit [DecidableEq ι] in
theorem ledger_init : (init : ThreadPool ι τ).Ledger where
  order := rfl
  once := by simp [init, Worker.inHand]

/-- The states of the pool, in every interleaving of its threads with the callers of
`add` and `shutdownAll`. -/
def Reachable (s : ThreadPool ι τ) : Prop := ∃ as, Run next (fun _ ↦ True) init as s

theorem reachable_of_foldlM {s : ThreadPool ι τ} (as : List (Action ι τ))
    (h : as.foldlM next init = some s) : s.Reachable :=
  ⟨as, .of_foldlM (fun _ _ ↦ trivial) h⟩

theorem Reachable.guarded [Nonempty ι] {s : ThreadPool ι τ} (h : s.Reachable) : s.Guarded := by
  obtain ⟨as, hrun⟩ := h
  exact hrun.invariant (fun _ _ _ hg _ hs ↦ hg.step (step_of_next hs)) guarded_init

/-- Whatever the interleaving, the tasks are taken in the order in which they were added, each
of them once, and what has been taken has been run or is being run by one thread. -/
theorem Reachable.ledger {s : ThreadPool ι τ} (h : s.Reachable) :
    s.added = s.taken ++ s.tasks ∧
      (s.taken : Multiset τ) = s.finished + ∑ i, (s.workers i).inHand := by
  obtain ⟨as, hrun⟩ := h
  have hl : s.Ledger :=
    hrun.invariant (fun _ _ _ hl _ hs ↦ hl.step (step_of_next hs)) ledger_init
  exact ⟨hl.order, hl.once⟩

theorem Reachable.ledger_two : ∃ s : ThreadPool (Fin 2) ℕ, s.Reachable ∧ s.tasks = [8] ∧
    s.added = s.taken ++ s.tasks ∧
      (s.taken : Multiset ℕ) = s.finished + ∑ i, (s.workers i).inHand := by
  have h := reachable_of_foldlM (ι := Fin 2) (τ := ℕ)
    [.add 7, .add 8, .emplace 0, .emplace 0, .lock 1, .test 1] rfl
  exact ⟨_, h, rfl, h.ledger⟩

/-- A bound on the steps that the pool takes before it rests. -/
def measure (s : ThreadPool ι τ) : ℕ :=
  ∑ i, (s.workers i).toGo + 3 * s.tasks.length + 4 * s.notifies + 8 * s.adding.length

theorem measure_setWorker (s : ThreadPool ι τ) {i : ι} {v : Worker τ} (w : Worker τ)
    (hw : s.workers i = v) : (s.setWorker i w).measure + v.toGo = s.measure + w.toGo := by
  have hsum := sum_setWorker Worker.toGo s i w
  rw [hw] at hsum
  have hmeasure : (s.setWorker i w).measure = ∑ j, ((s.setWorker i w).workers j).toGo +
      3 * s.tasks.length + 4 * s.notifies + 8 * s.adding.length := rfl
  rw [hmeasure, measure]
  omega

omit [DecidableEq ι] in
theorem measure_notify (s : ThreadPool ι τ) (h : 0 < s.notifies) :
    ThreadPool.measure { s with notifies := s.notifies - 1 } + 4 = s.measure := by
  simp only [measure]
  omega

theorem measure_step {s s' : ThreadPool ι τ} {a : Action ι τ} (hs : Step s a s') (ha : a.Inner) :
    s'.measure < s.measure := by
  cases hs with
  | add | refused | wake | stop | notifyAll => cases ha
  | @emplace i task _ ht =>
    have hi : i < s.adding.length := (List.getElem?_eq_some_iff.mp ht).1
    have hlen := List.length_eraseIdx_add_one hi
    simp only [measure, List.length_append, List.length_singleton]
    omega
  | notifyNone hn =>
    have hmeasure := s.measure_notify hn
    omega
  | @notifySome i hn hw =>
    have hmove := s.measure_setWorker .locking hw
    have hmeasure := (s.setWorker i .locking).measure_notify hn
    change ThreadPool.measure { s.setWorker i .locking with notifies := s.notifies - 1 } + 4 = _
      at hmeasure
    simp only [Worker.toGo] at hmove
    omega
  | @lock i _ hw =>
    have hmove : (s.setWorker i .testing).measure + 3 = s.measure + 2 :=
      s.measure_setWorker .testing hw
    change (s.setWorker i .testing).measure < s.measure
    omega
  | @testIdle i hw =>
    have hmove : (s.setWorker i .idle).measure + 2 = s.measure + 1 := s.measure_setWorker .idle hw
    omega
  | @testExit i hw =>
    have hmove : (s.setWorker i .exited).measure + 2 = s.measure + 0 :=
      s.measure_setWorker .exited hw
    change (s.setWorker i .exited).measure < s.measure
    omega
  | @testTake i task tasks hw ht =>
    have hmove : (s.setWorker i (.busy task)).measure + 2 = s.measure + 4 :=
      s.measure_setWorker (.busy task) hw
    have htake : ThreadPool.measure { s.setWorker i (.busy task) with
        locker := none, tasks, taken := s.taken ++ [task] } + 3 =
          (s.setWorker i (.busy task)).measure := by
      have htasks : (s.setWorker i (.busy task)).tasks = task :: tasks := ht
      simp only [measure, htasks, List.length_cons]
      omega
    omega
  | @wait i hw =>
    have hmove : (s.setWorker i .waiting).measure + 1 = s.measure + 0 :=
      s.measure_setWorker .waiting hw
    change (s.setWorker i .waiting).measure < s.measure
    omega
  | @finish i task hw =>
    have hmove : (s.setWorker i .locking).measure + 4 = s.measure + 3 :=
      s.measure_setWorker .locking hw
    change (s.setWorker i .locking).measure < s.measure
    omega

/-- The pool rests only where every thread waits or has returned. -/
theorem rest_of_terminal {s : ThreadPool ι τ} (hl : s.Locked)
    (ht : Terminal next Action.Inner s) :
    s.adding = [] ∧ s.notifies = 0 ∧ ∀ i, s.workers i = .waiting ∨ s.workers i = .exited := by
  have hfree : s.locker = none := by
    refine Option.eq_none_iff_forall_ne_some.mpr fun i hi ↦ ?_
    rcases (hl i).mpr hi with hw | hw
    · have hnone := ht (.test i) trivial
      simp [next, hw] at hnone
    · have hnone := ht (.wait i) trivial
      simp [next, hw] at hnone
  refine ⟨?_, ?_, fun i ↦ ?_⟩
  · refine List.eq_nil_iff_forall_not_mem.mpr fun task hmem ↦ ?_
    obtain ⟨i, hi⟩ := List.getElem?_of_mem hmem
    have hnone := ht (.emplace i) trivial
    simp [next, hfree, hi] at hnone
  · refine Nat.eq_zero_of_not_pos fun hpos ↦ ?_
    by_cases hawake : ∀ i, (s.workers i).isWaiting = false
    · have hnone := ht (.notifyOne none) trivial
      simp [next, hpos, hawake] at hnone
    · obtain ⟨i, hi⟩ := not_forall.mp hawake
      have hnone := ht (.notifyOne (some i)) trivial
      simp [next, hpos, hi] at hnone
  · cases hw : s.workers i with
    | waiting => exact .inl rfl
    | exited => exact .inr rfl
    | locking =>
      have hnone := ht (.lock i) trivial
      simp [next, hfree, hw] at hnone
    | testing => exact absurd (.inl hw) (hl.free hfree i)
    | idle => exact absurd (.inr hw) (hl.free hfree i)
    | busy task =>
      have hnone := ht (.finish i) trivial
      simp [next, hw] at hnone

omit [DecidableEq ι] in
theorem finished_of_rest {s : ThreadPool ι τ} (h : s.Ledger)
    (hrest : ∀ i, s.workers i = .waiting ∨ s.workers i = .exited) :
    (s.finished : Multiset τ) = s.taken := by
  rw [h.once, Finset.sum_eq_zero, add_zero]
  intro i _
  rcases hrest i with hw | hw
  · rw [hw]
    rfl
  · rw [hw]
    rfl

omit [Fintype ι] in
theorem Step.inner_running {s s' : ThreadPool ι τ} {a : Action ι τ} (hs : Step s a s')
    (ha : a.Inner) : s'.running = s.running := by
  cases hs with
  | add | refused | wake | stop | notifyAll => cases ha
  | emplace | notifyNone | notifySome | lock | testIdle | testExit | testTake | wait | finish => rfl

/-- While the pool runs, no wakeup is lost: from every state, whichever thread goes on
next, it comes to rest after finitely many steps, and then every thread waits and every task
that `add` has accepted has been run. -/
theorem Reachable.settles [Nonempty ι] {s : ThreadPool ι τ} (h : s.Reachable)
    (hr : s.running = true) :
    Settles next Action.Inner (fun t ↦ (∀ i, t.workers i = .waiting) ∧ t.adding = [] ∧
      t.tasks = [] ∧ (t.finished : Multiset τ) = t.added) s := by
  refine settles_of_measure (I := fun s ↦ s.Guarded ∧ s.Ledger ∧ s.running = true) measure
    (fun s a s' hi ha hs ↦ ?_) (fun s hi ht ↦ ?_) ⟨h.guarded, ⟨h.ledger.1, h.ledger.2⟩, hr⟩
  · have hstep := step_of_next hs
    exact ⟨⟨hi.1.step hstep, hi.2.1.step hstep, (hstep.inner_running ha).trans hi.2.2⟩,
      measure_step hstep ha⟩
  · obtain ⟨hg, hl, hr⟩ := hi
    obtain ⟨hadding, hnotifies, hrest⟩ := rest_of_terminal hg.locked ht
    have hwaiting : ∀ i, s.workers i = .waiting := fun i ↦ by
      refine (hrest i).resolve_right fun hw ↦ ?_
      have hstopped := hg.exited i hw
      rw [hr] at hstopped
      cases hstopped
    have htasks : s.tasks = [] := by
      by_contra hne
      rcases hg.woken hr hne with hpos | ⟨i, hi⟩
      · exact hpos.ne' hnotifies
      · rw [hwaiting i] at hi
        cases hi
    refine ⟨hwaiting, hadding, htasks, ?_⟩
    rw [finished_of_rest hl hrest, hl.order, htasks, List.append_nil]

theorem Reachable.settles_two : ∃ s : ThreadPool (Fin 2) ℕ, s.tasks = [7, 8] ∧
    Settles next Action.Inner (fun t ↦ (∀ i, t.workers i = .waiting) ∧ t.adding = [] ∧
      t.tasks = [] ∧ (t.finished : Multiset ℕ) = t.added) s := by
  have h := reachable_of_foldlM (ι := Fin 2) (τ := ℕ)
    [.lock 0, .test 0, .wait 0, .add 7, .add 8, .emplace 0, .emplace 0] rfl
  exact ⟨_, rfl, h.settles rfl⟩

omit [Fintype ι] in
/-- In a pool that has been stopped, a thread that neither waits nor is about to wait
does not come to wait. -/
theorem Step.no_wait {s s' : ThreadPool ι τ} {a : Action ι τ} (hs : Step s a s') (ha : a.Inner)
    (hr : s.running = false) (h : ∀ i, s.workers i ≠ .idle ∧ s.workers i ≠ .waiting) :
    ∀ i, s'.workers i ≠ .idle ∧ s'.workers i ≠ .waiting := by
  cases hs with
  | add | refused | wake | stop | notifyAll => cases ha
  | emplace | notifyNone => exact h
  | testIdle _ _ hr' =>
    rw [hr] at hr'
    cases hr'
  | wait hw => exact absurd hw (h _).1
  | notifySome | lock | testExit | testTake | finish =>
    exact forall_setWorker (P := fun _ w ↦ w ≠ .idle ∧ w ≠ .waiting) (by simp) fun j _ ↦ h j

omit [Fintype ι] in
/-- Nothing but a notification ends a wait, and nobody notifies when nobody adds. -/
theorem Step.still_waits {s s' : ThreadPool ι τ} {a : Action ι τ} (hs : Step s a s')
    (ha : a.Inner) {i : ι} (hi : s.workers i = .idle ∨ s.workers i = .waiting)
    (hadd : s.adding = []) (hnot : s.notifies = 0) :
    (s'.workers i = .idle ∨ s'.workers i = .waiting) ∧ s'.adding = [] ∧ s'.notifies = 0 := by
  have hne {j : ι} (hj : s.workers j ≠ .idle ∧ s.workers j ≠ .waiting) : i ≠ j := by
    rintro rfl
    exact hi.elim hj.1 hj.2
  cases hs with
  | add | refused | wake | stop | notifyAll => cases ha
  | emplace _ ht =>
    rw [hadd] at ht
    cases ht
  | notifyNone hn | notifySome hn => exact absurd hnot hn.ne'
  | lock _ hw | testIdle hw | testExit hw | testTake hw | finish hw =>
    refine ⟨?_, hadd, hnot⟩
    change (setWorker s _ _).workers i = _ ∨ (setWorker s _ _).workers i = _
    rw [workers_setWorker_of_ne s _ (hne (by simp [hw]))]
    exact hi
  | @wait j hw =>
    refine ⟨?_, hadd, hnot⟩
    change (s.setWorker j .waiting).workers i = _ ∨ (s.setWorker j .waiting).workers i = _
    by_cases hij : i = j
    · rw [hij, workers_setWorker_self]
      exact .inr rfl
    · rw [workers_setWorker_of_ne s _ hij]
      exact hi

omit [Fintype ι] in
theorem Step.taken_prefix {s s' : ThreadPool ι τ} {a : Action ι τ} (hs : Step s a s') :
    s.taken <+: s'.taken := by
  cases hs with
  | testTake => exact List.prefix_append _ _
  | add | refused | emplace | notifyNone | notifySome | lock | testIdle | testExit | wait | wake |
    finish | stop | notifyAll => exact List.prefix_rfl

omit [Fintype ι] in
theorem Step.added_prefix {s s' : ThreadPool ι τ} {a : Action ι τ} (hs : Step s a s') :
    s.added <+: s'.added := by
  cases hs with
  | emplace => exact List.prefix_append _ _
  | add | refused | notifyNone | notifySome | lock | testIdle | testExit | testTake | wait | wake |
    finish | stop | notifyAll => exact List.prefix_rfl

omit [Fintype ι] in
/-- A thread returns only when it finds the queue empty. -/
theorem Step.exit_cases {s s' : ThreadPool ι τ} {a : Action ι τ} (hs : Step s a s') (i : ι) :
    s'.workers i = .exited → (∃ j, s.workers j = .exited) ∨ s.tasks = [] := by
  cases hs with
  | add | refused | emplace | notifyNone | stop => exact fun hi ↦ .inl ⟨i, hi⟩
  | testExit _ ht => exact fun _ ↦ .inr ht
  | notifySome | lock | testIdle | testTake | wait | wake | finish =>
    exact forall_setWorker (P := fun _ w ↦ w = .exited → (∃ j, s.workers j = .exited) ∨ s.tasks = [])
      (fun hw ↦ by cases hw) (fun j _ hj ↦ .inl ⟨j, hj⟩) i
  | notifyAll =>
    dsimp only
    split_ifs
    · exact fun hi ↦ by cases hi
    · exact fun hi ↦ .inl ⟨i, hi⟩

/-- No task is dropped by a shutdown: once all threads have returned, those that were in the
queue at any time while the pool was running have been run. -/
theorem Reachable.shutdown_drains [Nonempty ι] {s t : ThreadPool ι τ} {as : List (Action ι τ)}
    (h : s.Reachable) (hr : s.running = true) (hrun : Run next (fun _ ↦ True) s as t)
    (hexited : ∀ i, t.workers i = .exited) :
    s.added <+: t.taken ∧ (t.finished : Multiset τ) = t.taken := by
  have hnone : ∀ i, s.workers i ≠ .exited := fun i hi ↦ by
    have hstopped := h.guarded.exited i hi
    rw [hr] at hstopped
    cases hstopped
  have hI : t.Ledger ∧ s.added <+: t.added ∧
      ∀ i, t.workers i = .exited → s.added <+: t.taken := by
    refine hrun.invariant (I := fun t ↦ t.Ledger ∧ s.added <+: t.added ∧
      ∀ i, t.workers i = .exited → s.added <+: t.taken) (fun t a t' hI _ ht ↦ ?_)
      ⟨⟨h.ledger.1, h.ledger.2⟩, List.prefix_rfl, fun i hi ↦ absurd hi (hnone i)⟩
    obtain ⟨hl, hadded, htaken⟩ := hI
    have hstep := step_of_next ht
    refine ⟨hl.step hstep, hadded.trans hstep.added_prefix, fun i hi ↦ ?_⟩
    refine List.IsPrefix.trans ?_ hstep.taken_prefix
    rcases hstep.exit_cases i hi with ⟨j, hj⟩ | hempty
    · exact htaken j hj
    · rwa [hl.order, hempty, List.append_nil] at hadded
  exact ⟨hI.2.2 (Classical.arbitrary ι) (hexited _),
    finished_of_rest hI.1 fun i ↦ .inr (hexited i)⟩

theorem Reachable.shutdown_drains_one : ∃ s t : ThreadPool (Fin 1) ℕ, s.Reachable ∧
    s.added = [7] ∧ s.added <+: t.taken ∧ (t.finished : Multiset ℕ) = t.taken := by
  have h := reachable_of_foldlM (ι := Fin 1) (τ := ℕ) [.add 7, .emplace 0] rfl
  refine ⟨_, _, h, rfl, h.shutdown_drains rfl (@Run.of_foldlM _ _ _ _ _ _
    [.stop, .notifyAll, .notifyOne none, .lock 0, .test 0, .finish 0, .lock 0, .test 0]
    (fun _ _ ↦ trivial) rfl) ?_⟩
  rw [Fin.forall_fin_one]
  rfl

end Runs

end ThreadPool

end Socnet.Net
