import Mathlib.Data.Nat.Init

namespace Socnet.Lib.Loop

variable {σ ε α : Type} (exit : σ → Option α) (turn : σ → Except ε σ)

/-- A loop that tests for its end and then takes a turn comes to a result after
finitely many turns: a value, or what a turn raises. -/
inductive Ends : σ → Except ε α → Prop
  | exit {s : σ} {a : α} : exit s = some a → Ends s (.ok a)
  | fault {s : σ} {e : ε} : exit s = none → turn s = .error e → Ends s (.error e)
  | next {s s' : σ} {r : Except ε α} :
      exit s = none → turn s = .ok s' → Ends s' r → Ends s r

variable {exit : σ → Option α} {turn : σ → Except ε σ}

/-- A turn that changes nothing is taken again for ever. -/
theorem not_ends_of_spin {s : σ} (hx : exit s = none) (ht : turn s = .ok s) (r : Except ε α) :
    ¬ Ends exit turn s r := by
  intro h
  induction h with
  | exit hx' => simp [hx] at hx'
  | fault _ ht' => simp [ht] at ht'
  | next _ ht' _ ih =>
    obtain rfl := Except.ok.inj (ht.symm.trans ht')
    exact ih hx ht

theorem ends_next_iff {s s' : σ} {r : Except ε α} (hx : exit s = none) (ht : turn s = .ok s') :
    Ends exit turn s r ↔ Ends exit turn s' r := by
  constructor
  · intro h
    cases h with
    | exit hx' => simp [hx] at hx'
    | fault _ ht' => simp [ht] at ht'
    | next _ ht' h =>
      obtain rfl := Except.ok.inj (ht.symm.trans ht')
      exact h
  · exact .next hx ht

/-- Where each turn raises, spins or comes closer to the end, a function that follows
the turns tells whether the loop ends and with which value. -/
theorem ends_ok_iff {run : σ → Except ε α} {μ : σ → ℕ} {hang : ε}
    (hexit : ∀ s a, exit s = some a → run s = .ok a)
    (hturn : ∀ s, exit s = none →
      (∃ e, turn s = .error e ∧ run s = .error e) ∨ (turn s = .ok s ∧ run s = .error hang) ∨
        ∃ s', turn s = .ok s' ∧ μ s' < μ s ∧ run s = run s')
    (s : σ) (a : α) : Ends exit turn s (.ok a) ↔ run s = .ok a := by
  induction hn : μ s using Nat.strong_induction_on generalizing s with
  | _ n ih =>
    subst hn
    cases hx : exit s with
    | some b =>
      rw [hexit s b hx]
      constructor
      · intro h
        cases h with
        | exit hx' => rw [Option.some.inj (hx.symm.trans hx')]
        | next hx' => simp [hx] at hx'
      · intro h
        cases h
        exact .exit hx
    | none =>
      rcases hturn s hx with ⟨e, ht, hr⟩ | ⟨ht, hr⟩ | ⟨s', ht, hlt, hr⟩
      · rw [hr]
        refine iff_of_false (fun h ↦ ?_) (by simp)
        cases h with
        | exit hx' => simp [hx] at hx'
        | next _ ht' => simp [ht] at ht'
      · rw [hr]
        exact iff_of_false (not_ends_of_spin hx ht _) (by simp)
      · rw [hr, ends_next_iff hx ht]
        exact ih (μ s') hlt s' rfl

/-- A loop has one result. -/
theorem Ends.unique {s : σ} {r r' : Except ε α} (h : Ends exit turn s r) (h' : Ends exit turn s r') :
    r = r' := by
  induction h with
  | exit hx =>
    cases h' with
    | exit hx' => rw [Option.some.inj (hx.symm.trans hx')]
    | fault hx' => simp [hx] at hx'
    | next hx' => simp [hx] at hx'
  | fault hx ht =>
    cases h' with
    | exit hx' => simp [hx] at hx'
    | fault _ ht' =>
      cases ht.symm.trans ht'
      rfl
    | next _ ht' => simp [ht] at ht'
  | next hx ht _ ih => exact ih ((ends_next_iff hx ht).mp h')

/-- Where each turn raises what a function says, or keeps what it says and comes closer to
the end, the function is the result of the loop. Only where it says `hang` a turn need not
come closer, and the loop goes on for ever. -/
theorem ends_iff {run : σ → Except ε α} {μ : σ → ℕ} {hang : ε} {Inv : σ → Prop}
    (hexit : ∀ s a, Inv s → exit s = some a → run s = .ok a)
    (hturn : ∀ s, Inv s → exit s = none →
      (∃ e, e ≠ hang ∧ turn s = .error e ∧ run s = .error e) ∨
        ∃ s', turn s = .ok s' ∧ Inv s' ∧ run s' = run s ∧ (μ s' < μ s ∨ run s = .error hang))
    {s : σ} (hs : Inv s) (r : Except ε α) :
    Ends exit turn s r ↔ run s = r ∧ r ≠ .error hang := by
  constructor
  · intro h
    induction h with
    | exit hx => exact ⟨hexit _ _ hs hx, by simp⟩
    | fault hx ht =>
      rcases hturn _ hs hx with ⟨e, he, ht', hr⟩ | ⟨s', ht', -⟩
      · cases ht.symm.trans ht'
        exact ⟨hr, by simpa using he⟩
      · simp [ht] at ht'
    | next hx ht _ ih =>
      rcases hturn _ hs hx with ⟨e, -, ht', -⟩ | ⟨s', ht', hs', hr, -⟩
      · simp [ht] at ht'
      · obtain rfl := Except.ok.inj (ht.symm.trans ht')
        exact hr ▸ ih hs'
  · rintro ⟨rfl, hne⟩
    induction hn : μ s using Nat.strong_induction_on generalizing s with
    | _ n ih =>
      subst hn
      cases hx : exit s with
      | some a =>
        rw [hexit s a hs hx]
        exact .exit hx
      | none =>
        rcases hturn s hs hx with ⟨e, -, ht, hr⟩ | ⟨s', ht, hs', hr, hlt⟩
        · rw [hr]
          exact .fault hx ht
        · have hcloser : μ s' < μ s := hlt.resolve_right hne
          rw [← hr] at hne ⊢
          exact .next hx ht (ih (μ s') hcloser hs' hne rfl)

end Socnet.Lib.Loop
