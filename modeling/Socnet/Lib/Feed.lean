import Mathlib.Data.List.Basic

namespace Socnet.Lib

/-- A sequence that is handed over in pieces, with the number of calls made so far. -/
structure Feed (α : Type) where
  calls : ℕ
  rest : List α

namespace Feed

variable {α : Type} (take : ℕ → ℕ → ℕ)

/-- Call `k` for `count` symbols is given `take k count` of them, as far as there are any. -/
def read (count : ℕ) (f : Feed α) : List α × Feed α :=
  (f.rest.take (take f.calls count), ⟨f.calls + 1, f.rest.drop (take f.calls count)⟩)

/-- Every call for symbols is given some of them, and no call more than it asks for. -/
def Delivers : Prop := ∀ k count, take k count ≤ count ∧ (0 < count → 0 < take k count)

/-- From call `k` on, calls for the given numbers of symbols are each given all of them. -/
def Whole : ℕ → List ℕ → Prop
  | _, [] => True
  | k, count :: counts => take k count = count ∧ Whole (k + 1) counts

variable {take}

theorem whole_append {k : ℕ} {counts counts' : List ℕ} :
    Whole take k (counts ++ counts') ↔
      Whole take k counts ∧ Whole take (k + counts.length) counts' := by
  induction counts generalizing k with
  | nil => simp [Whole]
  | cons count counts ih =>
    have hk : k + 1 + counts.length = k + (counts.length + 1) := by omega
    simp only [List.cons_append, Whole, List.length_cons, ih, hk, and_assoc]

theorem read_of_whole {f : Feed α} {l rest : List α} (hf : f.rest = l ++ rest)
    (h : take f.calls l.length = l.length) :
    f.read take l.length = (l, ⟨f.calls + 1, rest⟩) := by
  rw [read, h, hf, List.take_left, List.drop_left]

theorem length_read (count : ℕ) (f : Feed α) :
    (f.read take count).1.length + (f.read take count).2.rest.length = f.rest.length := by
  rw [← List.length_append, read, List.take_append_drop]

end Feed

end Socnet.Lib
