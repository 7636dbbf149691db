import Mathlib.Data.List.Basic
import Mathlib.Data.List.Infix

namespace Socnet.Lib.Path

section Segments

variable {α : Type} [DecidableEq α] (sep : α)

def segments (path : List α) : List (List α) := (path.splitOn sep).filter (· ≠ [])

theorem segments_append_cons (xs ys : List α) :
    segments sep (xs ++ sep :: ys) = segments sep xs ++ segments sep ys := by
  rw [segments, List.splitOn_append_cons_self, List.filter_append]
  rfl

@[simp]
theorem segments_nil : segments sep ([] : List α) = [] := by simp [segments]

theorem segments_concat (xs : List α) : segments sep (xs ++ [sep]) = segments sep xs := by
  rw [segments_append_cons, segments_nil, List.append_nil]

end Segments

variable {σ : Type} [DecidableEq σ] (dot up : σ)

/-- Where one segment leads from a place. There is nothing above the root. -/
def enter (place : List σ) (seg : σ) : List σ :=
  if seg = dot then place
  else if seg = up then place.dropLast
  else place ++ [seg]

def resolve (place segs : List σ) : List σ := segs.foldl (enter dot up) place

theorem resolve_append (place segs segs' : List σ) :
    resolve dot up place (segs ++ segs') = resolve dot up (resolve dot up place segs) segs' :=
  List.foldl_append

theorem resolve_of_plain {segs : List σ} (h : ∀ s ∈ segs, s ≠ dot ∧ s ≠ up) (place : List σ) :
    resolve dot up place segs = place ++ segs := by
  induction segs generalizing place with
  | nil => exact (List.append_nil place).symm
  | cons s segs ih =>
    have hs := h s List.mem_cons_self
    have hrest := ih (fun t ht ↦ h t (.tail s ht)) (place ++ [s])
    rw [List.append_assoc] at hrest
    change resolve dot up (enter dot up place s) segs = _
    rw [enter, if_neg hs.1, if_neg hs.2]
    exact hrest

/-- One more segment of a path that climbs some levels and then descends. -/
def follow (route : ℕ × List σ) (seg : σ) : ℕ × List σ :=
  if seg = dot then route
  else if seg = up then
    match route.2 with
    | [] => (route.1 + 1, [])
    | _ :: _ => (route.1, route.2.dropLast)
  else (route.1, route.2 ++ [seg])

/-- How many levels a list of segments climbs, and the names it descends through
from there. -/
def route (segs : List σ) : ℕ × List σ := segs.foldl (follow dot up) (0, [])

def arrive (place : List σ) (route : ℕ × List σ) : List σ :=
  place.take (place.length - route.1) ++ route.2

theorem enter_arrive (place : List σ) (route : ℕ × List σ) (seg : σ) :
    enter dot up (arrive place route) seg = arrive place (follow dot up route seg) := by
  obtain ⟨levels, names⟩ := route
  unfold enter follow
  split_ifs
  · rfl
  · cases names with
    | nil =>
      simp only [arrive, List.append_nil]
      rw [List.dropLast_eq_take, List.length_take, List.take_take]
      congr 1
      omega
    | cons name names =>
      simp only [arrive]
      rw [List.dropLast_append_of_ne_nil (List.cons_ne_nil name names)]
  · simp only [arrive, List.append_assoc]

theorem resolve_eq_arrive (place segs : List σ) :
    resolve dot up place segs = arrive place (route dot up segs) := by
  have hgen (start : ℕ × List σ) :
      resolve dot up (arrive place start) segs = arrive place (segs.foldl (follow dot up) start) := by
    induction segs generalizing start with
    | nil => rfl
    | cons s segs ih =>
      change resolve dot up (enter dot up (arrive place start) s) segs = _
      rw [enter_arrive]
      exact ih _
  have hstart : arrive place (0, []) = place := by simp [arrive]
  rw [route, ← hgen, hstart]

/-- A path stays below a place when it comes back through the names it has left. -/
theorem below_iff (place segs : List σ) :
    place <+: resolve dot up place segs ↔
      place.drop (place.length - (route dot up segs).1) <+: (route dot up segs).2 := by
  rw [resolve_eq_arrive, arrive]
  generalize place.length - (route dot up segs).1 = k
  nth_rewrite 1 [← List.take_append_drop k place]
  exact List.prefix_append_right_inj _

end Socnet.Lib.Path
