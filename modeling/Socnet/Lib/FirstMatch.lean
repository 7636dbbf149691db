import Mathlib.Data.List.Perm.Basic

namespace Socnet.Lib.FirstMatch

variable {α β : Type} {f : α → Option β}

theorem findSome?_isSome {l : List α} {a : α} {b : β} (ha : a ∈ l) (hb : f a = some b) :
    ∃ a' ∈ l, ∃ b', f a' = some b' ∧ l.findSome? f = some b' := by
  cases h : l.findSome? f with
  | none =>
    have hnone := List.findSome?_eq_none_iff.mp h a ha
    rw [hb] at hnone
    cases hnone
  | some b' =>
    obtain ⟨a', ha', hb'⟩ := List.exists_of_findSome?_eq_some h
    exact ⟨a', ha', b', hb', rfl⟩

/-- The first match, or else a default, is the same in every order just when all matches
agree. -/
theorem findSome?_perm_iff [DecidableEq α] {l : List α} (d : β) :
    (∀ l' : List α, l'.Perm l → (l'.findSome? f).getD d = (l.findSome? f).getD d) ↔
      ∀ a ∈ l, ∀ a' ∈ l, ∀ b b', f a = some b → f a' = some b' → b = b' := by
  constructor
  · intro h a ha a' ha' b b' hb hb'
    have hfront {c : α} {b : β} (hc : c ∈ l) (hb : f c = some b) : (l.findSome? f).getD d = b := by
      rw [← h (c :: l.erase c) (List.perm_cons_erase hc).symm, List.findSome?_cons, hb]
      rfl
    exact (hfront ha hb).symm.trans (hfront ha' hb')
  · intro h l' hl
    cases hf : l'.findSome? f with
    | none =>
      have hnone : l.findSome? f = none := by
        refine List.findSome?_eq_none_iff.mpr fun a ha ↦ ?_
        exact List.findSome?_eq_none_iff.mp hf a (hl.mem_iff.mpr ha)
      rw [hnone]
    | some b =>
      obtain ⟨a, ha, hb⟩ := List.exists_of_findSome?_eq_some hf
      obtain ⟨a', ha', b', hb', hl'⟩ := findSome?_isSome (hl.mem_iff.mp ha) hb
      rw [hl', h a (hl.mem_iff.mp ha) a' ha' b b' hb hb']

end Socnet.Lib.FirstMatch
