import Mathlib.Data.List.Infix

namespace Socnet.Lib.Run

variable {σ ε δ : Type} {step : σ → ε → Except δ σ}

instance decidableForallOk (x : Except δ σ) (P : σ → Prop) [DecidablePred P] :
    Decidable (∀ s, x = .ok s → P s) :=
  match x with
  | .error _ => isTrue nofun
  | .ok s => decidable_of_iff (P s) ⟨fun h _ heq ↦ by cases heq; exact h, fun h ↦ h s rfl⟩

/-- Every step of the run meets the condition in the state it is taken from. -/
def Throughout (step : σ → ε → Except δ σ) (P : σ → ε → Prop) : σ → List ε → Prop
  | _, [] => True
  | s, e :: es => P s e ∧ ∀ s', step s e = .ok s' → Throughout step P s' es

instance decidableThroughout {P : σ → ε → Prop} [∀ s, DecidablePred (P s)] :
    (s : σ) → DecidablePred (Throughout step P s)
  | _, [] => inferInstanceAs (Decidable True)
  | _, _ :: es =>
    have (s' : σ) : Decidable (Throughout step P s' es) := decidableThroughout s' es
    inferInstanceAs (Decidable (_ ∧ ∀ s', _ = _ → Throughout step P s' es))

theorem Throughout.invariant {P : σ → ε → Prop} {I : σ → Prop}
    (hstep : ∀ s e, I s → P s e → ∃ s', step s e = .ok s' ∧ I s') {s : σ} {es : List ε}
    (ht : Throughout step P s es) (hi : I s) : ∃ s', es.foldlM step s = .ok s' ∧ I s' := by
  induction es generalizing s with
  | nil => exact ⟨s, rfl, hi⟩
  | cons e es ih =>
    obtain ⟨hp, ht⟩ := ht
    obtain ⟨s₁, hs, hi₁⟩ := hstep s e hi hp
    obtain ⟨s', hrun, hi'⟩ := ih (ht s₁ hs) hi₁
    refine ⟨s', ?_, hi'⟩
    rw [List.foldlM_cons, hs]
    exact hrun

/-- A run whose steps cannot fail where the invariant holds. -/
theorem invariant {I : σ → Prop} (hstep : ∀ s e, I s → ∃ s', step s e = .ok s' ∧ I s') {s : σ}
    (hi : I s) (es : List ε) : ∃ s', es.foldlM step s = .ok s' ∧ I s' := by
  induction es generalizing s with
  | nil => exact ⟨s, rfl, hi⟩
  | cons e es ih =>
    obtain ⟨s₁, hs, hi₁⟩ := hstep s e hi
    obtain ⟨s', hrun, hi'⟩ := ih hi₁
    refine ⟨s', ?_, hi'⟩
    rw [List.foldlM_cons, hs]
    exact hrun

/-- What a run leaves at a place is what the last event that writes there has written. -/
theorem get_foldlM {ν : Type} {get : σ → Option ν} {write : ε → Option ν}
    (hstep : ∀ s e s', step s e = .ok s' → get s' = (write e).or (get s)) {s s' : σ} {es : List ε}
    (h : es.foldlM step s = .ok s') : get s' = (es.reverse.findSome? write).or (get s) := by
  induction es generalizing s with
  | nil =>
    cases h
    rfl
  | cons e es ih =>
    rw [List.foldlM_cons] at h
    cases hs : step s e with
    | error d =>
      rw [hs] at h
      cases h
    | ok s₁ =>
      rw [hs] at h
      rw [ih h, hstep s e s₁ hs, List.reverse_cons, List.findSome?_append, Option.or_assoc]
      simp

/-- What is reached in the run and in every run that it extends. -/
def Reaches (step : σ → ε → Except δ σ) (s : σ) (es : List ε) (s' : σ) : Prop :=
  ∃ first, first <+: es ∧ first.foldlM step s = .ok s'

theorem Reaches.refl (s : σ) (es : List ε) : Reaches step s es s :=
  ⟨[], List.nil_prefix, rfl⟩

theorem reaches_cons {s s₁ s' : σ} {e : ε} {es : List ε} (hs : step s e = .ok s₁) :
    Reaches step s (e :: es) s' ↔ s' = s ∨ Reaches step s₁ es s' := by
  constructor
  · intro hr
    obtain ⟨first, hpre, hrun⟩ := hr
    cases first with
    | nil =>
      cases hrun
      exact .inl rfl
    | cons e' first =>
      obtain ⟨rfl, hpre'⟩ := List.cons_prefix_cons.mp hpre
      rw [List.foldlM_cons, hs] at hrun
      exact .inr ⟨first, hpre', hrun⟩
  · intro hr
    rcases hr with rfl | ⟨first, hpre, hrun⟩
    · exact Reaches.refl _ _
    · refine ⟨e :: first, List.cons_prefix_cons.mpr ⟨rfl, hpre⟩, ?_⟩
      rw [List.foldlM_cons, hs]
      exact hrun

/-- Where a step from a good state leads to a good one just when it meets the condition
`Q`, the states reached are good just when all steps meet it. -/
theorem Throughout.good_iff {P Q : σ → ε → Prop} {I G : σ → Prop}
    (hstep : ∀ s e, I s → P s e → ∃ s', step s e = .ok s' ∧ I s' ∧ (G s → (G s' ↔ Q s e)))
    {s : σ} {es : List ε} (ht : Throughout step P s es) (hi : I s) (hg : G s) :
    (∀ s', Reaches step s es s' → G s') ↔ Throughout step Q s es := by
  induction es generalizing s with
  | nil =>
    refine iff_of_true (fun s' hr ↦ ?_) trivial
    obtain ⟨first, hpre, hrun⟩ := hr
    rw [List.prefix_nil.mp hpre] at hrun
    cases hrun
    exact hg
  | cons e es ih =>
    obtain ⟨hp, ht⟩ := ht
    obtain ⟨s₁, hs, hi₁, hiff⟩ := hstep s e hi hp
    have ht₁ := ht s₁ hs
    constructor
    · intro hall
      have hg₁ : G s₁ := hall s₁ ((reaches_cons hs).mpr (.inr (Reaches.refl _ _)))
      refine ⟨(hiff hg).mp hg₁, fun s' hs' ↦ ?_⟩
      rw [hs] at hs'
      cases hs'
      exact (ih ht₁ hi₁ hg₁).mp fun s' hr ↦ hall s' ((reaches_cons hs).mpr (.inr hr))
    · intro hq s' hr
      have hg₁ : G s₁ := (hiff hg).mpr hq.1
      rcases (reaches_cons hs).mp hr with rfl | hr
      · exact hg
      · exact (ih ht₁ hi₁ hg₁).mpr (hq.2 s₁ hs) s' hr

/-- A run whose steps keep the invariant, unless one fails in a way that `F` allows. -/
theorem Throughout.invariant_or {P : σ → ε → Prop} {I : σ → Prop} {F : σ → δ → Prop}
    (hstep : ∀ s e, I s → P s e →
      (∃ d, step s e = .error d ∧ F s d) ∨ ∃ s', step s e = .ok s' ∧ I s')
    {s : σ} {es : List ε} (ht : Throughout step P s es) (hi : I s) :
    (∀ s', Reaches step s es s' → I s') ∧
      ∀ d, es.foldlM step s = .error d → ∃ s', Reaches step s es s' ∧ F s' d := by
  induction es generalizing s with
  | nil =>
    refine ⟨fun s' hr ↦ ?_, fun d hd ↦ by cases hd⟩
    obtain ⟨first, hpre, hrun⟩ := hr
    rw [List.prefix_nil.mp hpre] at hrun
    cases hrun
    exact hi
  | cons e es ih =>
    obtain ⟨hp, ht⟩ := ht
    rcases hstep s e hi hp with ⟨d, hs, hf⟩ | ⟨s₁, hs, hi₁⟩
    · refine ⟨fun s' hr ↦ ?_, fun d' hd' ↦ ⟨s, Reaches.refl _ _, ?_⟩⟩
      · obtain ⟨first, hpre, hrun⟩ := hr
        cases first with
        | nil =>
          cases hrun
          exact hi
        | cons e' first =>
          obtain ⟨rfl, -⟩ := List.cons_prefix_cons.mp hpre
          rw [List.foldlM_cons, hs] at hrun
          cases hrun
      · rw [List.foldlM_cons, hs] at hd'
        cases hd'
        exact hf
    · obtain ⟨hreach, hfail⟩ := ih (ht s₁ hs) hi₁
      refine ⟨fun s' hr ↦ ?_, fun d hd ↦ ?_⟩
      · rcases (reaches_cons hs).mp hr with rfl | hr
        · exact hi
        · exact hreach s' hr
      · rw [List.foldlM_cons, hs] at hd
        obtain ⟨s', hr, hf⟩ := hfail d hd
        exact ⟨s', (reaches_cons hs).mpr (.inr hr), hf⟩

end Socnet.Lib.Run
