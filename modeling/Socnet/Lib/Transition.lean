import Mathlib.Data.Nat.Init

namespace Socnet.Lib.Transition

variable {σ α : Type} (next : σ → α → Option σ) (A : α → Prop)

/-- A run of actions of the kind `A`, each of which is enabled in its turn. -/
inductive Run : σ → List α → σ → Prop
  | nil (s : σ) : Run s [] s
  | cons {s s' t : σ} {a : α} {as : List α} :
      A a → next s a = some s' → Run s' as t → Run s (a :: as) t

def Terminal (s : σ) : Prop := ∀ a, A a → next s a = none

/-- Whichever actions of the kind are chosen, the run comes to an end, and `P` holds there. -/
inductive Settles (P : σ → Prop) : σ → Prop
  | intro {s : σ} : (Terminal next A s → P s) →
      (∀ a s', A a → next s a = some s' → Settles P s') → Settles P s

variable {next : σ → α → Option σ} {A : α → Prop} {s t : σ}

theorem Run.of_foldlM {as : List α} (hA : ∀ a ∈ as, A a) (h : as.foldlM next s = some t) :
    Run next A s as t := by
  induction as generalizing s with
  | nil =>
    cases h
    exact .nil _
  | cons a as ih =>
    rw [List.foldlM_cons] at h
    cases hs : next s a with
    | none =>
      rw [hs] at h
      cases h
    | some s' =>
      rw [hs] at h
      have hrest : ∀ b ∈ as, A b := fun b hb ↦ hA b (List.mem_cons_of_mem a hb)
      exact .cons (hA a List.mem_cons_self) hs (ih hrest h)

/-- What every action keeps holds all along a run. -/
theorem Run.invariant {I : σ → Prop} (hstep : ∀ s a s', I s → A a → next s a = some s' → I s')
    {as : List α} (h : Run next A s as t) (hi : I s) : I t := by
  induction h with
  | nil => exact hi
  | cons ha hs _ ih => exact ih (hstep _ _ _ hi ha hs)

variable {P : σ → Prop}

/-- A run settles where each of its actions lowers a measure. -/
theorem settles_of_measure {I : σ → Prop} (μ : σ → ℕ)
    (hstep : ∀ s a s', I s → A a → next s a = some s' → I s' ∧ μ s' < μ s)
    (hend : ∀ s, I s → Terminal next A s → P s) (hi : I s) : Settles next A P s := by
  induction hn : μ s using Nat.strong_induction_on generalizing s with
  | _ n ih =>
    subst hn
    refine .intro (hend s hi) fun a s' ha hs ↦ ?_
    obtain ⟨hi', hlt⟩ := hstep s a s' hi ha hs
    exact ih _ hlt hi' rfl

theorem Settles.of_run {as : List α} (h : Settles next A P s) (hr : Run next A s as t) :
    Settles next A P t := by
  induction hr with
  | nil => exact h
  | cons ha hs _ ih =>
    obtain ⟨-, hnext⟩ := h
    exact ih (hnext _ _ ha hs)

theorem Settles.terminal (h : Settles next A P s) (ht : Terminal next A s) : P s := by
  obtain ⟨hend, -⟩ := h
  exact hend ht

/-- A run that settles has an end. -/
theorem Settles.exists_terminal (h : Settles next A P s) :
    ∃ as t, Run next A s as t ∧ Terminal next A t := by
  induction h with
  | @intro s _ _ ih =>
    by_cases ht : Terminal next A s
    · exact ⟨[], s, .nil s, ht⟩
    · obtain ⟨a, ha⟩ := Classical.not_forall.mp ht
      obtain ⟨hA, hsome⟩ := Classical.not_imp.mp ha
      obtain ⟨s', hs⟩ := Option.ne_none_iff_exists'.mp hsome
      obtain ⟨as, t, hrun, hterm⟩ := ih a s' hA hs
      exact ⟨a :: as, t, .cons hA hs hrun, hterm⟩

end Socnet.Lib.Transition
