import Socnet.Bytes

namespace Socnet.Utility

open Lib.Sequence

/-- An open file: the bytes that are left to read and its end-of-file mark. -/
structure FileUtil where
  rest : Bytes
  eof : Bool

namespace FileUtil

def load (file : Bytes) : FileUtil := ⟨file, false⟩

/-- `fgets` ends behind a line feed, with the array full or at the end of the file, and
only there sets the mark. -/
def fgets (size : ℕ) (fp : FileUtil) : Option (Bytes × FileUtil) :=
  let room := fp.rest.take (size - 1)
  let s := match find [LF] room with
    | none => room
    | some n => room.take (n + 1)
  if s = [] then none
  else some (s, ⟨fp.rest.drop s.length,
    fp.eof || (find [LF] room).isNone && room.length < size - 1⟩)

def readLine (fp : FileUtil) : Option (Bytes × FileUtil) :=
  if fp.eof then none
  else (fgets 1024 fp).map fun (s, fp) ↦ (s.takeWhile fun c ↦ c ≠ LF ∧ c ≠ 0, fp)

theorem fgets_rest_lt {size : ℕ} {fp fp' : FileUtil} {s : Bytes}
    (h : fgets size fp = some (s, fp')) : fp'.rest.length < fp.rest.length := by
  rw [fgets] at h
  generalize hm : (match find [LF] (fp.rest.take (size - 1)) with
    | none => fp.rest.take (size - 1)
    | some n => (fp.rest.take (size - 1)).take (n + 1)) = m at h
  split_ifs at h with hs
  obtain ⟨rfl, rfl⟩ := Prod.mk.inj (Option.some.inj h)
  have hle : m.length ≤ fp.rest.length := by
    rw [← hm]
    split
    · exact (List.take_prefix _ _).length_le
    · exact ((List.take_prefix _ _).trans (List.take_prefix _ _)).length_le
  have hpos := List.length_pos_iff.mpr hs
  simp only [List.length_drop]
  omega

theorem readLine_rest_lt {fp fp' : FileUtil} {line : Bytes}
    (h : fp.readLine = some (line, fp')) : fp'.rest.length < fp.rest.length := by
  rw [readLine] at h
  split_ifs at h
  obtain ⟨p, hp, h⟩ := Option.map_eq_some_iff.mp h
  obtain ⟨-, rfl⟩ := Prod.mk.inj h
  exact fgets_rest_lt hp

/-- The lines that a loop over `readLine` sees. -/
def readLines (fp : FileUtil) : List Bytes :=
  match _h : fp.readLine with
  | none => []
  | some (line, fp') => line :: fp'.readLines
termination_by fp.rest.length
decreasing_by exact readLine_rest_lt _h

theorem readLines_of_none {fp : FileUtil} (h : fp.readLine = none) : fp.readLines = [] := by
  rw [readLines]
  split
  · rfl
  · rename_i line fp' h'
    exact absurd (h.symm.trans h') (by simp)

theorem readLines_of_some {fp fp' : FileUtil} {line : Bytes} (h : fp.readLine = some (line, fp')) :
    fp.readLines = line :: fp'.readLines := by
  rw [readLines]
  split
  · rename_i h'
    exact absurd (h.symm.trans h') (by simp)
  · rename_i line' fp'' h'
    obtain ⟨rfl, rfl⟩ := Prod.mk.inj (Option.some.inj (h.symm.trans h'))
    rfl

/-- What is in front of a NUL. -/
def cut (line : Bytes) : Bytes := line.takeWhile (· ≠ 0)

/-- A line in the pieces that an array of 1024 bytes holds; the last one, which has its
line feed or the end of the file behind it, has less than the 1023 bytes of the others. -/
def pieces (line : Bytes) : List Bytes :=
  if line.length < 1023 then [line] else line.take 1023 :: pieces (line.drop 1023)
termination_by line.length
decreasing_by
  rw [List.length_drop]
  omega

theorem pieces_of_lt {line : Bytes} (h : line.length < 1023) : pieces line = [line] := by
  rw [pieces, if_pos h]

theorem pieces_of_le {line : Bytes} (h : 1023 ≤ line.length) :
    pieces line = line.take 1023 :: pieces (line.drop 1023) := by
  rw [pieces.eq_1 line, if_neg (by omega)]

theorem takeWhile_line {s : Bytes} (h : LF ∉ s) (t : Bytes) :
    (s ++ LF :: t).takeWhile (fun c ↦ c ≠ LF ∧ c ≠ 0) = cut s ∧
    s.takeWhile (fun c ↦ c ≠ LF ∧ c ≠ 0) = cut s := by
  induction s with
  | nil => simp [cut]
  | cons c s ih =>
    rw [List.mem_cons, not_or] at h
    obtain ⟨ih₁, ih₂⟩ := ih h.2
    have hc : c ≠ LF := fun he ↦ h.1 he.symm
    simp only [List.cons_append, cut, List.takeWhile_cons] at ih₁ ih₂ ⊢
    simp only [ih₁, ih₂, hc, ne_eq, not_false_eq_true, true_and, and_self]

theorem take_line {line : Bytes} {n : ℕ} (hlen : line.length < n) (rest : Bytes) :
    (line ++ LF :: rest).take n = line ++ LF :: rest.take (n - line.length - 1) := by
  obtain ⟨k, hk⟩ := Nat.exists_eq_add_of_lt hlen
  rw [List.take_append, List.take_of_length_le (by omega), hk,
    show line.length + k + 1 - line.length = k + 1 by omega, List.take_succ_cons,
    Nat.add_sub_cancel]

/-- A line that the array holds is read with its line feed. -/
theorem readLine_line {line : Bytes} (hlf : LF ∉ line) (hlen : line.length < 1023) (rest : Bytes) :
    readLine ⟨line ++ LF :: rest, false⟩ = some (cut line, ⟨rest, false⟩) := by
  have hs : (line ++ LF :: rest).take (line.length + 1) = line ++ [LF] := by
    rw [take_line (Nat.lt_succ_self _), show line.length + 1 - line.length - 1 = 0 by omega,
      List.take_zero]
  have hdrop : (line ++ LF :: rest).drop (line ++ [LF]).length = rest := by
    rw [List.append_cons line LF rest, List.drop_left]
  have hroom := take_line hlen rest
  rw [readLine, if_neg (by simp), fgets]
  simp only [hroom, find_singleton hlf]
  rw [← hroom, List.take_take, min_eq_left (by omega), hs, if_neg (by simp), hdrop,
    Option.map_some, (takeWhile_line hlf []).1]
  rfl

/-- Where no line feed is within the array, it is filled. -/
theorem readLine_piece {text : Bytes} (hlf : LF ∉ text.take 1023) (hlen : 1023 ≤ text.length) :
    readLine ⟨text, false⟩ = some (cut (text.take 1023), ⟨text.drop 1023, false⟩) := by
  have hl : (text.take 1023).length = 1023 := by
    rw [List.length_take]
    omega
  have hne : text.take 1023 ≠ [] := List.ne_nil_of_length_pos (by omega)
  rw [readLine, if_neg (by simp), fgets]
  simp only [Nat.add_one_sub_one, find_singleton_none.mpr hlf, if_neg hne, hl, Option.map_some,
    (takeWhile_line hlf []).2]
  rfl

/-- What is left without a line feed is read to the end of the file. -/
theorem readLine_last {line : Bytes} (hlf : LF ∉ line) (hlen : line.length < 1023)
    (hne : line ≠ []) : readLine ⟨line, false⟩ = some (cut line, ⟨[], true⟩) := by
  have hroom : line.take (1024 - 1) = line := List.take_of_length_le (by omega)
  rw [readLine, if_neg (by simp), fgets]
  simp only [hroom, find_singleton_none.mpr hlf, if_neg hne, Option.map_some,
    (takeWhile_line hlf []).2, List.drop_length, Nat.add_one_sub_one, hlen]
  rfl

theorem readLines_line {line : Bytes} (hlf : LF ∉ line) (rest : Bytes) :
    readLines ⟨line ++ LF :: rest, false⟩ =
      (pieces line).map cut ++ readLines ⟨rest, false⟩ := by
  induction line using pieces.induct with
  | case1 line hlen =>
    rw [pieces_of_lt hlen, readLines_of_some (readLine_line hlf hlen rest)]
    rfl
  | case2 line hlen ih =>
    have htake : (line ++ LF :: rest).take 1023 = line.take 1023 :=
      List.take_append_of_le_length (by omega)
    have hdrop : (line ++ LF :: rest).drop 1023 = line.drop 1023 ++ LF :: rest :=
      List.drop_append_of_le_length (by omega)
    have hno : LF ∉ (line ++ LF :: rest).take 1023 := by
      rw [htake]
      exact fun h ↦ hlf (List.mem_of_mem_take h)
    have hpiece := readLine_piece hno (by rw [List.length_append]; omega)
    rw [readLines_of_some hpiece, htake, hdrop, ih fun h ↦ hlf (List.mem_of_mem_drop h),
      pieces_of_le (by omega : 1023 ≤ line.length)]
    rfl

theorem readLines_last {line : Bytes} (hlf : LF ∉ line) :
    readLines ⟨line, false⟩ = ((pieces line).filter (· ≠ [])).map cut := by
  induction line using pieces.induct with
  | case1 line hlen =>
    rw [pieces_of_lt hlen]
    by_cases hne : line = []
    · subst hne
      exact readLines_of_none rfl
    · rw [readLines_of_some (readLine_last hlf hlen hne), readLines_of_none rfl]
      simp [hne]
  | case2 line hlen ih =>
    have hne : line.take 1023 ≠ [] :=
      List.ne_nil_of_length_pos (by rw [List.length_take]; omega)
    rw [readLines_of_some (readLine_piece (fun h ↦ hlf (List.mem_of_mem_take h)) (by omega)),
      ih fun h ↦ hlf (List.mem_of_mem_drop h), pieces_of_le (by omega : 1023 ≤ line.length),
      List.filter_cons_of_pos (by simpa using hne), List.map_cons]

/-- The file's lines are read in their order, each in the pieces that the array holds. -/
theorem readLines_load {lines : List Bytes} {last : Bytes} (h : ∀ line ∈ lines, LF ∉ line)
    (hlast : LF ∉ last) :
    readLines (load (lines.flatMap (· ++ [LF]) ++ last)) =
      (lines.flatMap pieces ++ (pieces last).filter (· ≠ [])).map cut := by
  induction lines with
  | nil => exact readLines_last hlast
  | cons line lines ih =>
    have ih := ih fun l hl ↦ h l (List.mem_cons_of_mem _ hl)
    rw [List.flatMap_cons, List.append_assoc, List.append_assoc, List.singleton_append, load,
      readLines_line (h line List.mem_cons_self)]
    rw [load] at ih
    rw [ih, List.flatMap_cons, List.append_assoc, @List.map_append _ _ cut (pieces line)]

end FileUtil

end Socnet.Utility
