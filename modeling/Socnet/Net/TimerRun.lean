import Mathlib.Data.Finmap
import Socnet.Net.TimerOps

namespace Socnet.Net

abbrev TimerMap (κ : Type) := Finmap fun _ : ℤ ↦ TimeStamp × κ

namespace TimerMap

variable {κ : Type}

def push (m : TimerMap κ) (t : Timer κ) : TimerMap κ := m.insert t.fd (t.timestamp, t.callback)

def adjust (m : TimerMap κ) (t : Timer κ) : TimerMap κ :=
  match m.lookup t.fd with
  | none => m
  | some (_, callback) => m.insert t.fd (t.timestamp, callback)

/-- Removal of the timer that stands first in the heap, if there is one. -/
def pop (m : TimerMap κ) (first : Option (Timer κ)) : TimerMap κ :=
  match first with
  | none => m
  | some t => m.erase t.fd

end TimerMap

namespace TimerHeap

open Lib.Heap

variable {κ : Type} {h h' : TimerHeap κ}

inductive Op (κ : Type)
  | push (t : Timer κ)
  | pop
  | adjust (t : Timer κ)

def apply (h : TimerHeap κ) : Op κ → Except Fault (TimerHeap κ)
  | .push t => h.push t
  | .pop => h.pop
  | .adjust t => h.adjust t

/-- An operation that raises leaves the heap as it was. -/
def step (h : TimerHeap κ) (op : Op κ) : TimerHeap κ :=
  match h.apply op with
  | .error _ => h
  | .ok h' => h'

def mapStep (h : TimerHeap κ) (m : TimerMap κ) : Op κ → TimerMap κ
  | .push t => m.push t
  | .pop => m.pop h.c[0]?
  | .adjust t => m.adjust t

/-- The heap and the map side by side over a sequence of operations. -/
def run (ops : List (Op κ)) : TimerHeap κ × TimerMap κ :=
  ops.foldl (fun s op ↦ (s.1.step op, s.1.mapStep s.2 op)) (init, ∅)

def entry (t : Timer κ) : (_ : ℤ) × (TimeStamp × κ) := ⟨t.fd, t.timestamp, t.callback⟩

def toMap (h : TimerHeap κ) (hw : h.WellFormed) : TimerMap κ where
  entries := (h.c.map entry : List _)
  nodupKeys := by
    rw [Multiset.coe_nodupKeys, List.NodupKeys, List.keys, List.map_map]
    exact hw.nodup

theorem lookup_toMap {hw : h.WellFormed} {fd : ℤ} {x : TimeStamp × κ} :
    (h.toMap hw).lookup fd = some x ↔
      ∃ t ∈ h.c, t.fd = fd ∧ (t.timestamp, t.callback) = x := by
  rw [← Option.mem_def, Finmap.mem_lookup_iff]
  change (⟨fd, x⟩ : (_ : ℤ) × (TimeStamp × κ)) ∈ h.c.map entry ↔ _
  rw [List.mem_map]
  constructor
  · rintro ⟨t, ht, heq⟩
    cases heq
    exact ⟨t, ht, rfl, rfl⟩
  · rintro ⟨t, ht, rfl, rfl⟩
    exact ⟨t, ht, rfl⟩

theorem toMap_insert {hw : h.WellFormed} {hw' : h'.WellFormed} {v : Timer κ}
    (hmem : ∀ s, s ∈ h'.c ↔ s = v ∨ s ∈ h.c ∧ s.fd ≠ v.fd) :
    h'.toMap hw' = (h.toMap hw).insert v.fd (v.timestamp, v.callback) := by
  refine Finmap.ext_lookup fun fd ↦ ?_
  by_cases hfd : fd = v.fd
  · rw [hfd, Finmap.lookup_insert, lookup_toMap]
    exact ⟨v, (hmem v).mpr (.inl rfl), rfl, rfl⟩
  · rw [Finmap.lookup_insert_of_ne _ hfd]
    ext x
    rw [lookup_toMap, lookup_toMap]
    constructor
    · rintro ⟨t, ht, rfl, rfl⟩
      rcases (hmem t).mp ht with rfl | ht
      · exact absurd rfl hfd
      · exact ⟨t, ht.1, rfl, rfl⟩
    · rintro ⟨t, ht, rfl, rfl⟩
      exact ⟨t, (hmem t).mpr (.inr ⟨ht, hfd⟩), rfl, rfl⟩

theorem toMap_erase {hw : h.WellFormed} {hw' : h'.WellFormed} {fd : ℤ}
    (hmem : ∀ s, s ∈ h'.c ↔ s ∈ h.c ∧ s.fd ≠ fd) : h'.toMap hw' = (h.toMap hw).erase fd := by
  refine Finmap.ext_lookup fun fd' ↦ ?_
  by_cases hfd : fd' = fd
  · rw [hfd, Finmap.lookup_erase]
    by_contra hne
    obtain ⟨x, hx⟩ := Option.ne_none_iff_exists'.mp hne
    obtain ⟨t, ht, heq, -⟩ := lookup_toMap.mp hx
    exact ((hmem t).mp ht).2 heq
  · rw [Finmap.lookup_erase_ne hfd]
    ext x
    rw [lookup_toMap, lookup_toMap]
    constructor
    · rintro ⟨t, ht, rfl, rfl⟩
      exact ⟨t, ((hmem t).mp ht).1, rfl, rfl⟩
    · rintro ⟨t, ht, rfl, rfl⟩
      exact ⟨t, (hmem t).mpr ⟨ht, hfd⟩, rfl, rfl⟩

theorem mem_set_iff {l : List (Timer κ)} (hc : (l.map Timer.fd).Nodup) {i : ℕ} {u v : Timer κ}
    (hu : l[i]? = some u) (hfd : u.fd = v.fd) (s : Timer κ) :
    s ∈ l.set i v ↔ s = v ∨ s ∈ l ∧ s.fd ≠ v.fd := by
  have hi : i < l.length := (List.getElem?_eq_some_iff.mp hu).1
  constructor
  · intro hs
    obtain ⟨j, hj⟩ := List.mem_iff_getElem?.mp hs
    by_cases hji : j = i
    · rw [hji, List.getElem?_set_self hi] at hj
      cases hj
      exact .inl rfl
    · rw [List.getElem?_set_ne (Ne.symm hji)] at hj
      exact .inr ⟨List.mem_of_getElem? hj, hfd ▸ fd_ne hc hj hu hji⟩
  · rintro (rfl | ⟨hs, hne⟩)
    · exact List.mem_of_getElem? (List.getElem?_set_self hi)
    · obtain ⟨j, hj⟩ := List.mem_iff_getElem?.mp hs
      have hji : j ≠ i := by
        rintro rfl
        rw [hu] at hj
        cases hj
        exact hne hfd
      refine List.mem_of_getElem? (i := j) ?_
      rw [List.getElem?_set_ne (Ne.symm hji), hj]

theorem WellFormed.filter_fd (hw : h.WellFormed) {t : Timer κ} (ht : t ∈ h.c) :
    h.c.filter (fun u ↦ u.fd = t.fd) = [t] := by
  have hnd := hw.nodup
  generalize h.c = c at hnd ht
  induction c with
  | nil => cases ht
  | cons u c ih =>
    rw [List.map_cons, List.nodup_cons] at hnd
    have hnot (v : Timer κ) (hv : v ∈ c) : v.fd ≠ u.fd := fun heq ↦
      hnd.1 (heq ▸ List.mem_map_of_mem hv)
    rcases List.mem_cons.mp ht with rfl | ht
    · rw [List.filter_cons_of_pos (by simp), List.filter_eq_nil_iff.mpr]
      simpa using hnot
    · rw [List.filter_cons_of_neg (by simpa using (hnot t ht).symm), ih hnd.2 ht]

theorem WellFormed.push_mem (hw : h.WellFormed) (t : Timer κ) :
    ∃ h', h.push t = .ok h' ∧ h'.WellFormed ∧ (∀ s, s ∈ h'.c ↔ s = t ∨ s ∈ h.c ∧ s.fd ≠ t.fd) ∧
      (Ordered h.n (key h.c) → Ordered h'.n (key h'.c)) := by
  obtain ⟨h', hpush, hw', hperm, hord⟩ := hw.push_ok t
  refine ⟨h', hpush, hw', fun s ↦ ?_, hord⟩
  rw [hperm.mem_iff]
  cases hfd : h.fds t.fd with
  | none =>
    have hnot := hw.fds_eq_none.mp hfd
    have hne (hs : s ∈ h.c) : s.fd ≠ t.fd := fun heq ↦ hnot (heq ▸ List.mem_map_of_mem hs)
    rw [List.mem_cons]
    exact or_congr_right ⟨fun hs ↦ ⟨hs, hne hs⟩, And.left⟩
  | some i =>
    obtain ⟨u, hu, hut⟩ := hw.lookup hfd
    exact mem_set_iff hw.nodup hu hut s

theorem WellFormed.adjust_mem (hw : h.WellFormed) (t : Timer κ) :
    ∃ h', h.adjust t = .ok h' ∧ h'.WellFormed ∧
      (t.fd ∉ h.c.map Timer.fd ∧ h' = h ∨
        ∃ u ∈ h.c, u.fd = t.fd ∧
          (∀ s, s ∈ h'.c ↔ s = { u with timestamp := t.timestamp } ∨ s ∈ h.c ∧ s.fd ≠ t.fd) ∧
          (Ordered h.n (key h.c) → u.timestamp ≤ t.timestamp → Ordered h'.n (key h'.c))) := by
  obtain ⟨h', hadjust, hw', hcase⟩ := hw.adjust_ok t
  refine ⟨h', hadjust, hw', ?_⟩
  cases hfd : h.fds t.fd with
  | none =>
    rw [hfd] at hcase
    exact .inl ⟨hw.fds_eq_none.mp hfd, hcase⟩
  | some i =>
    rw [hfd] at hcase
    obtain ⟨u, hu, hut, hperm, hord⟩ := hcase
    refine .inr ⟨u, List.mem_of_getElem? hu, hut, fun s ↦ ?_, hord⟩
    rw [hperm.mem_iff, ← hut]
    exact mem_set_iff (v := { u with timestamp := t.timestamp }) hw.nodup hu rfl s

/-- An operation on a well-formed heap succeeds unless it pops an empty one, and
does to the map of the heap what it does to the map. -/
theorem WellFormed.apply_cases (hw : h.WellFormed) (op : Op κ) :
    (op = .pop ∧ h.c = [] ∧ h.apply op = .error .exception ∧
      h.mapStep (h.toMap hw) op = h.toMap hw) ∨
    ¬ (op = .pop ∧ h.c = []) ∧ ∃ h', h.apply op = .ok h' ∧
      ∃ hw' : h'.WellFormed, h.mapStep (h.toMap hw) op = h'.toMap hw' := by
  cases op with
  | push t =>
    refine .inr ⟨by simp, ?_⟩
    obtain ⟨h', hpush, hw', hmem, -⟩ := hw.push_mem t
    exact ⟨h', hpush, hw', (toMap_insert hmem).symm⟩
  | pop =>
    cases ht : h.c[0]? with
    | none =>
      have hnil : h.c = [] := by simpa using ht
      have hn : h.n = 0 := by rw [← hw.size, hnil, List.length_nil]
      refine .inl ⟨rfl, hnil, ?_, ?_⟩
      · rw [apply, pop, if_pos hn]
      · rw [mapStep, ht, TimerMap.pop]
    | some t =>
      obtain ⟨h', hpop, hw', -, hperm, -⟩ := hw.pop_ok ht
      refine .inr ⟨fun hp ↦ by simp [hp.2] at ht, h', hpop, hw', ?_⟩
      rw [mapStep, ht]
      refine (toMap_erase fun s ↦ ?_).symm
      have hnd : ((t :: h'.c).map Timer.fd).Nodup := (hperm.map _).nodup_iff.mpr hw.nodup
      rw [List.map_cons, List.nodup_cons] at hnd
      rw [← hperm.mem_iff, List.mem_cons]
      constructor
      · intro hs
        exact ⟨.inr hs, fun heq ↦ hnd.1 (heq ▸ List.mem_map_of_mem hs)⟩
      · rintro ⟨rfl | hs, hne⟩
        · exact absurd rfl hne
        · exact hs
  | adjust t =>
    refine .inr ⟨by simp, ?_⟩
    obtain ⟨h', hadjust, hw', hcase⟩ := hw.adjust_mem t
    refine ⟨h', hadjust, hw', ?_⟩
    rw [mapStep, TimerMap.adjust]
    rcases hcase with ⟨hnot, rfl⟩ | ⟨u, hu, hut, hmem, -⟩
    · have hlookup : (h'.toMap hw).lookup t.fd = none := by
        by_contra hne
        obtain ⟨x, hx⟩ := Option.ne_none_iff_exists'.mp hne
        obtain ⟨s, hs, heq, -⟩ := lookup_toMap.mp hx
        exact hnot (heq ▸ List.mem_map_of_mem hs)
      rw [hlookup]
    · have hlookup : (h.toMap hw).lookup t.fd = some (u.timestamp, u.callback) :=
        lookup_toMap.mpr ⟨u, hu, hut, rfl⟩
      rw [hlookup]
      rw [← hut] at hmem ⊢
      exact (toMap_insert (v := { u with timestamp := t.timestamp }) hmem).symm

theorem run_append (ops : List (Op κ)) (op : Op κ) :
    run (ops ++ [op]) = ((run ops).1.step op, (run ops).1.mapStep (run ops).2 op) := by
  rw [run, List.foldl_append]
  rfl

theorem run_wellFormed (ops : List (Op κ)) :
    ∃ hw : (run ops).1.WellFormed, (run ops).2 = (run ops).1.toMap hw := by
  induction ops using List.reverseRecOn with
  | nil => exact ⟨wellFormed_init, rfl⟩
  | append_singleton ops op ih =>
    obtain ⟨hw, hmap⟩ := ih
    rw [run_append, hmap]
    rcases hw.apply_cases op with ⟨-, -, herr, hmap'⟩ | ⟨-, h', hok, hw', hmap'⟩
    · rw [step, herr]
      exact ⟨hw, hmap'⟩
    · rw [step, hok]
      exact ⟨hw', hmap'⟩

/-- Over every sequence of operations the heap is a map from fds to timers. -/
theorem run_map (ops : List (Op κ)) :
    (run ops).1.c.length = (run ops).1.n ∧
    ((run ops).1.c.map Timer.fd).Nodup ∧
    (∀ fd, (run ops).1.fds fd ≠ none ↔ ∃ t ∈ (run ops).1.c, t.fd = fd) ∧
    (∀ fd i, (run ops).1.fds fd = some i → ∃ t, (run ops).1.c[i]? = some t ∧ t.fd = fd) ∧
    ((run ops).1.c : Multiset (Timer κ)).map entry = (run ops).2.entries ∧
    ∀ op e, (run ops).1.apply op = .error e ↔
      op = .pop ∧ (run ops).1.c = [] ∧ e = .exception := by
  obtain ⟨hw, hmap⟩ := run_wellFormed ops
  refine ⟨hw.size, hw.nodup, fun fd ↦ ⟨hw.keys fd, ?_⟩, fun fd i hi ↦ hw.lookup hi, ?_, ?_⟩
  · rintro ⟨t, ht, rfl⟩ hnone
    exact hw.fds_eq_none.mp hnone (List.mem_map_of_mem ht)
  · rw [hmap]
    rfl
  · intro op e
    rcases hw.apply_cases op with ⟨rfl, hnil, herr, -⟩ | ⟨hno, h', hok, -⟩
    · rw [herr]
      simp [hnil, eq_comm]
    · rw [hok]
      refine iff_of_false (by simp) fun hp ↦ hno ⟨hp.1, hp.2.1⟩

def NotEarlier (h : TimerHeap κ) : Op κ → Prop
  | .adjust t => ∀ u ∈ h.c, u.fd = t.fd → u.timestamp ≤ t.timestamp
  | _ => True

def Forward (h : TimerHeap κ) : List (Op κ) → Prop
  | [] => True
  | op :: ops => h.NotEarlier op ∧ (h.step op).Forward ops

instance (h : TimerHeap κ) : DecidablePred h.NotEarlier
  | .push _ => inferInstanceAs (Decidable True)
  | .pop => inferInstanceAs (Decidable True)
  | .adjust _ => inferInstanceAs (Decidable (∀ _ ∈ _, _))

instance decidableForward : (h : TimerHeap κ) → DecidablePred h.Forward
  | _, [] => inferInstanceAs (Decidable True)
  | h, op :: ops =>
    have := decidableForward (h.step op) ops
    inferInstanceAs (Decidable (_ ∧ _))

theorem WellFormed.step_ordered (hw : h.WellFormed) (ho : Ordered h.n (key h.c)) {op : Op κ}
    (hop : h.NotEarlier op) :
    (h.step op).WellFormed ∧ Ordered (h.step op).n (key (h.step op).c) := by
  cases op with
  | push t =>
    obtain ⟨h', hpush, hw', -, hord⟩ := hw.push_ok t
    rw [step, apply, hpush]
    exact ⟨hw', hord ho⟩
  | pop =>
    rw [step, apply]
    cases ht : h.c[0]? with
    | none =>
      have hn : h.n = 0 := by
        rw [← hw.size]
        simpa using ht
      rw [pop, if_pos hn]
      exact ⟨hw, ho⟩
    | some t =>
      obtain ⟨h', hpop, hw', -, -, hord⟩ := hw.pop_ok ht
      rw [hpop]
      exact ⟨hw', hord ho⟩
  | adjust t =>
    obtain ⟨h', hadjust, hw', hcase⟩ := hw.adjust_mem t
    rw [step, apply, hadjust]
    refine ⟨hw', ?_⟩
    rcases hcase with ⟨-, rfl⟩ | ⟨u, hu, hut, -, hord⟩
    · exact ho
    · exact hord ho (hop u hu hut)

theorem WellFormed.foldl_ordered (hw : h.WellFormed) (ho : Ordered h.n (key h.c))
    {ops : List (Op κ)} (hf : h.Forward ops) :
    (ops.foldl step h).WellFormed ∧ Ordered (ops.foldl step h).n (key (ops.foldl step h).c) := by
  induction ops generalizing h with
  | nil => exact ⟨hw, ho⟩
  | cons op ops ih =>
    obtain ⟨hw', ho'⟩ := hw.step_ordered ho hf.1
    exact ih hw' ho' hf.2

theorem WellFormed.top_least (hw : h.WellFormed) (ho : Ordered h.n (key h.c)) {t : Timer κ}
    (ht : h.c[0]? = some t) : ∀ u ∈ h.c, t.timestamp ≤ u.timestamp := by
  intro u hu
  obtain ⟨j, hj⟩ := List.mem_iff_getElem?.mp hu
  have hlt : j < h.n := hw.size ▸ (List.getElem?_eq_some_iff.mp hj).1
  rw [← key_of_getElem? ht, ← key_of_getElem? hj]
  exact ho.root_le hlt

theorem WellFormed.top_eq (hw : h.WellFormed) {t : Timer κ} (ht : h.c[0]? = some t) :
    h.top = .ok t := by
  have hn : h.n ≠ 0 := by
    rw [← hw.size]
    exact (Nat.zero_lt_of_lt (List.getElem?_eq_some_iff.mp ht).1).ne'
  rw [top, if_neg hn, get_eq_ok ht]

/-- Popping at most `k` times, with the timestamps found on top and the heap
that is left. -/
def drain : ℕ → TimerHeap κ → Except Fault (List TimeStamp × TimerHeap κ)
  | 0, h => .ok ([], h)
  | k + 1, h =>
    if h.empty then .ok ([], h)
    else do
      let t ← h.top
      let h ← h.pop
      let (l, h) ← drain k h
      .ok (t.timestamp :: l, h)

theorem WellFormed.drain_sorted (hw : h.WellFormed) (ho : Ordered h.n (key h.c)) :
    ∃ l h', drain h.n h = .ok (l, h') ∧ h'.c = [] ∧ l.Pairwise (· ≤ ·) ∧
      l.Perm (h.c.map Timer.timestamp) := by
  induction hk : h.n generalizing h with
  | zero =>
    have hnil : h.c = [] := List.eq_nil_of_length_eq_zero (hw.size.trans hk)
    exact ⟨[], h, rfl, hnil, List.Pairwise.nil, by simp [hnil]⟩
  | succ k ih =>
    obtain ⟨t, ht⟩ : ∃ t, h.c[0]? = some t :=
      ⟨_, List.getElem?_eq_getElem (by rw [hw.size]; omega)⟩
    obtain ⟨h₁, hpop, hw₁, hn₁, hperm, hord⟩ := hw.pop_ok ht
    obtain ⟨l, h', hdrain, hnil, hsorted, hl⟩ := ih hw₁ (hord ho) (by omega)
    refine ⟨t.timestamp :: l, h', ?_, hnil, ?_, ?_⟩
    · have hempty : ¬ h.empty = true := by simp [empty, hk]
      rw [drain, if_neg hempty, hw.top_eq ht, hpop]
      simp only [bind, Except.bind, hdrain]
    · refine List.pairwise_cons.mpr ⟨fun x hx ↦ ?_, hsorted⟩
      obtain ⟨u, hu, rfl⟩ := List.mem_map.mp (hl.mem_iff.mp hx)
      exact hw.top_least ho ht u (hperm.mem_iff.mp (List.mem_cons_of_mem _ hu))
    · exact (hl.cons _).trans (hperm.map Timer.timestamp)

/-- Over every sequence of operations that adjusts no timer to an earlier time,
no timer expires before its parent, a timer that expires first is on top, and
the timers come off in the order in which they expire. -/
theorem run_ordered (ops : List (Op κ)) (hf : init.Forward ops) :
    let h := ops.foldl step init
    (∀ j t p, 0 < j → h.c[j]? = some t → h.c[(j - 1) / 2]? = some p →
      p.timestamp ≤ t.timestamp) ∧
    (h.c ≠ [] → ∃ t ∈ h.c, h.top = .ok t ∧ ∀ u ∈ h.c, t.timestamp ≤ u.timestamp) ∧
    ∃ l h', drain h.n h = .ok (l, h') ∧ h'.c = [] ∧ l.Pairwise (· ≤ ·) ∧
      l.Perm (h.c.map Timer.timestamp) := by
  obtain ⟨hw, ho⟩ := wellFormed_init.foldl_ordered (fun j _ hj ↦ absurd hj (Nat.not_lt_zero j)) hf
  refine ⟨fun j t p h0 ht hp ↦ ?_, fun hne ↦ ?_, hw.drain_sorted ho⟩
  · have hlt := hw.size ▸ (List.getElem?_eq_some_iff.mp ht).1
    rw [← key_of_getElem? ht, ← key_of_getElem? hp]
    exact ho j h0 hlt
  · obtain ⟨t, rest, hc⟩ := List.exists_cons_of_ne_nil hne
    have ht : (ops.foldl step init).c[0]? = some t := by rw [hc]; rfl
    exact ⟨t, List.mem_of_getElem? ht, hw.top_eq ht, hw.top_least ho ht⟩

theorem run_ordered_ties :
    let h := [Op.push ⟨3, ⟨5⟩, ()⟩, .push ⟨4, ⟨5⟩, ()⟩, .push ⟨5, ⟨2⟩, ()⟩, .adjust ⟨5, ⟨9⟩, ()⟩,
      .push ⟨4, ⟨1⟩, ()⟩].foldl step init
    ∃ l h', drain h.n h = .ok (l, h') ∧ h'.c = [] ∧ l.Pairwise (· ≤ ·) ∧
      l.Perm (h.c.map Timer.timestamp) :=
  (run_ordered _ (by decide +kernel)).2.2

end TimerHeap

end Socnet.Net
