import Mathlib.Algebra.Group.Nat.Defs
import Socnet.Bytes

namespace Socnet.Net

/-- The receive and send queue of a channel. The readable bytes lie between the
two indices; what lies past `windex` is memory left over from earlier use. -/
structure Buffer where
  buffer : Bytes
  rindex : ℕ
  windex : ℕ
  rindex_le : rindex ≤ windex
  windex_le : windex ≤ buffer.length

namespace Buffer

def init (size : ℕ := 4096) : Buffer where
  buffer := List.replicate size 0
  rindex := 0
  windex := 0
  rindex_le := le_rfl
  windex_le := Nat.zero_le _

variable (b : Buffer)

def readable : ℕ := b.windex - b.rindex
def writable : ℕ := b.buffer.length - b.windex

/-- The view `(peek(), readable())` that the parsers work on. -/
def peek : Bytes := (b.buffer.drop b.rindex).take b.readable

/-- The bytes of the underlying vector that follow the readable ones. -/
def memory : Bytes := b.buffer.drop b.windex

def retiredAll : Buffer :=
  { b with rindex := 0, windex := 0, rindex_le := le_rfl, windex_le := Nat.zero_le _ }

def reset : Buffer := b.retiredAll

def retired (len : ℕ) : Buffer :=
  if h : len < b.readable then
    { b with
      rindex := b.rindex + len
      rindex_le := by unfold readable at h; omega }
  else b.retiredAll

/-- `std::vector::resize`, filling with zero bytes. -/
def resize (v : Bytes) (size : ℕ) : Bytes := v.take size ++ List.replicate (size - v.length) 0

theorem resize_length (v : Bytes) (size : ℕ) : (resize v size).length = size := by
  simp only [resize, List.length_append, List.length_take, List.length_replicate]
  omega

def makeSpace (len : ℕ) : Buffer :=
  if b.rindex + b.writable < len then
    { b with
      buffer := resize b.buffer (b.windex + len + 1)
      windex_le := by rw [resize_length]; omega }
  else
    { buffer := b.peek ++ b.buffer.drop b.readable
      rindex := 0
      windex := b.readable
      rindex_le := Nat.zero_le _
      windex_le := by
        have h₁ := b.rindex_le
        have h₂ := b.windex_le
        simp only [peek, readable, List.length_append, List.length_take, List.length_drop]
        omega }

def ensureWritable (len : ℕ) : Buffer := if b.writable < len then b.makeSpace len else b

/-- Copying bytes to `beginWrite()` followed by `hasWritten` of their number;
the caller has made the room. -/
def hasWritten (data : Bytes) (_room : data.length ≤ b.writable) : Buffer :=
  { b with
    buffer := b.buffer.take b.windex ++ data ++ b.buffer.drop (b.windex + data.length)
    windex := b.windex + data.length
    rindex_le := b.rindex_le.trans (Nat.le_add_right _ _)
    windex_le := by
      have := b.windex_le
      simp only [List.length_append, List.length_take, List.length_drop]
      omega }

theorem writable_ensureWritable (len : ℕ) : len ≤ (b.ensureWritable len).writable := by
  have h₁ := b.rindex_le
  have h₂ := b.windex_le
  unfold ensureWritable makeSpace
  split
  · split
    · simp only [writable, resize_length]
      omega
    · simp only [writable, peek, readable, List.length_append, List.length_take,
        List.length_drop] at *
      omega
  · omega

def append (data : Bytes) : Buffer :=
  if data = [] then b
  else (b.ensureWritable data.length).hasWritten data (b.writable_ensureWritable data.length)

/-- The template `append`, whose length is an `int`: nothing is appended when it is not
positive, and otherwise all the bytes are copied and that many count as written. -/
def appendRange (data : Bytes) : Except Fault Buffer :=
  let len := data.length % 2 ^ 32
  if len = 0 ∨ 2 ^ 31 ≤ len then .ok b
  else
    let b := b.ensureWritable len
    if room : data.length ≤ b.writable then
      .ok { b.hasWritten data room with
        windex := b.windex + len
        rindex_le := b.rindex_le.trans (Nat.le_add_right _ _)
        windex_le := (Nat.add_le_add_left (Nat.mod_le _ _) _).trans
          (b.hasWritten data room).windex_le }
    else .error .overflow

theorem peek_length : b.peek.length = b.readable := by
  have h₁ := b.rindex_le
  have h₂ := b.windex_le
  simp only [peek, readable, List.length_take, List.length_drop]
  omega

@[simp] theorem peek_init (size : ℕ) : (init size).peek = [] := by simp [peek, readable, init]

@[simp] theorem peek_retiredAll : b.retiredAll.peek = [] := by
  simp [peek, readable, retiredAll]

@[simp] theorem peek_retired (len : ℕ) : (b.retired len).peek = b.peek.drop len := by
  unfold retired
  split
  · rename_i h
    have hr : b.windex - (b.rindex + len) = b.windex - b.rindex - len := by omega
    simp only [peek, readable, hr, List.drop_take, List.drop_drop]
  · rename_i h
    rw [peek_retiredAll, List.drop_eq_nil_of_le]
    rw [peek_length]
    omega

theorem peek_makeSpace (len : ℕ) : (b.makeSpace len).peek = b.peek := by
  have h₁ := b.rindex_le
  have h₂ := b.windex_le
  unfold makeSpace
  split
  · rename_i h
    simp only [writable] at h
    have ht : b.buffer.take (b.windex + len + 1) = b.buffer := List.take_of_length_le (by omega)
    simp only [peek, readable, resize, ht]
    rw [List.drop_append_of_le_length (by omega), List.take_append_of_le_length]
    rw [List.length_drop]
    omega
  · have hl := b.peek_length
    simp only [peek, readable, List.drop_zero, Nat.sub_zero] at hl ⊢
    rw [List.take_append_of_le_length hl.ge, List.take_of_length_le hl.le]

theorem peek_ensureWritable (len : ℕ) : (b.ensureWritable len).peek = b.peek := by
  unfold ensureWritable
  split
  · exact b.peek_makeSpace len
  · rfl

theorem peek_hasWritten (data : Bytes) (room : data.length ≤ b.writable) :
    (b.hasWritten data room).peek = b.peek ++ data := by
  have h₁ := b.rindex_le
  have h₂ := b.windex_le
  have hr : b.windex + data.length - b.rindex = b.readable + data.length := by
    simp only [readable]
    omega
  have hd : (b.buffer.take b.windex).drop b.rindex = b.peek := by
    simp only [peek, readable, List.drop_take]
  simp only [peek, readable, hasWritten, hr]
  rw [List.append_assoc, List.drop_append_of_le_length (by simp; omega), hd, ← List.append_assoc,
    List.take_append_of_le_length]
  · rw [List.take_of_length_le]
    · rfl
    · rw [List.length_append, peek_length, readable]
  · rw [List.length_append, peek_length, readable]

@[simp] theorem peek_append (data : Bytes) : (b.append data).peek = b.peek ++ data := by
  unfold append
  split
  · rename_i h
    simp [h]
  · rw [peek_hasWritten, peek_ensureWritable]

theorem appendRange_of_lt {data : Bytes} (h : data.length < 2 ^ 31) :
    b.appendRange data = .ok (b.append data) := by
  have hlen : data.length % 2 ^ 32 = data.length := Nat.mod_eq_of_lt (by omega)
  have hroom := b.writable_ensureWritable data.length
  unfold appendRange append
  simp only [hlen]
  by_cases hnil : data = []
  · simp [hnil]
  · have hpos : data.length ≠ 0 := fun h0 ↦ hnil (List.eq_nil_of_length_eq_zero h0)
    rw [if_neg (by omega), dif_pos hroom, if_neg hnil]
    rfl

/-- Too many bytes for an `int` are not appended, or not all of them. -/
theorem peek_appendRange_of_le {data : Bytes} {b' : Buffer} (h : 2 ^ 31 ≤ data.length)
    (ha : b.appendRange data = .ok b') : b'.peek.length < b.peek.length + data.length := by
  rw [peek_length, peek_length]
  unfold appendRange at ha
  dsimp only at ha
  split_ifs at ha with hlen hroom
  · cases ha
    omega
  · cases ha
    have hr := (b.ensureWritable (data.length % 2 ^ 32)).peek_length
    rw [peek_ensureWritable, peek_length] at hr
    have hle := (b.ensureWritable (data.length % 2 ^ 32)).rindex_le
    simp only [readable, hasWritten] at hr ⊢
    omega

theorem peek_foldl_append {α : Type} (f : α → Bytes) (l : List α) (b : Buffer) :
    (l.foldl (fun b e ↦ b.append (f e)) b).peek = b.peek ++ l.flatMap f := by
  induction l generalizing b with
  | nil => exact (List.append_nil _).symm
  | cons e l ih => rw [List.foldl_cons, ih, peek_append, List.flatMap_cons, List.append_assoc]

/-- Counting less of what has been written leaves in front what was there. -/
theorem peek_prefix {data : Bytes} (room : data.length ≤ b.writable) {b' : Buffer}
    (hbuffer : b'.buffer = (b.hasWritten data room).buffer) (hrindex : b'.rindex = b.rindex)
    (hwindex : b.windex ≤ b'.windex) : b.peek <+: b'.peek := by
  have hpeek := congrArg (List.take b.readable) (b.peek_hasWritten data room)
  have hlen := b.peek_length
  rw [List.take_left' hlen, peek, List.take_take, Nat.min_eq_left] at hpeek
  · rw [← hpeek, peek, hbuffer, hrindex]
    apply List.take_prefix_take_left
    simp only [readable, hrindex]
    omega
  · simp only [readable, hasWritten]
    omega

/-- What was there stays in front, and only too many bytes do not fit. -/
theorem appendRange_cases (data : Bytes) :
    (∃ b', b.appendRange data = .ok b' ∧ b.peek <+: b'.peek) ∨
      b.appendRange data = .error .overflow ∧ 2 ^ 32 ≤ data.length := by
  rw [appendRange]
  dsimp only
  split_ifs with hlen hroom
  · exact .inl ⟨b, rfl, List.prefix_rfl⟩
  · refine .inl ⟨_, rfl, ?_⟩
    rw [← b.peek_ensureWritable (data.length % 2 ^ 32)]
    exact peek_prefix _ hroom rfl rfl (Nat.le_add_right _ _)
  · refine .inr ⟨rfl, ?_⟩
    by_contra hlt
    apply hroom
    rw [Nat.mod_eq_of_lt (not_le.mp hlt)]
    exact b.writable_ensureWritable data.length

/-- `std::copy` of `n` bytes from `src` on to the front, byte after byte and in place. -/
def copyFront (v : Bytes) (src : ℕ) : ℕ → Bytes
  | 0 => v
  | n + 1 => (copyFront v src n).set n ((copyFront v src n).getD (src + n) 0)

/-- The bytes are read before they are overwritten. -/
theorem copyFront_eq {v : Bytes} {src n : ℕ} (h : src + n ≤ v.length) :
    copyFront v src n = (v.drop src).take n ++ v.drop n := by
  induction n with
  | zero => rfl
  | succ n ih =>
    have hlen : ((v.drop src).take n).length = n := by
      rw [List.length_take, List.length_drop]
      omega
    have hread : ((v.drop src).take n ++ v.drop n).getD (src + n) 0 = v[src + n] := by
      rw [List.getD_eq_getElem?_getD, List.getElem?_append_right (by omega), hlen,
        Nat.add_sub_cancel, List.getElem?_drop, Nat.add_comm, List.getElem?_eq_getElem (by omega)]
      rfl
    have htake : (v.drop src).take (n + 1) = (v.drop src).take n ++ [v[src + n]] := by
      rw [List.take_add_one, List.getElem?_drop, List.getElem?_eq_getElem (by omega)]
      rfl
    have hdrop : v.drop n = v[n] :: v.drop (n + 1) := List.drop_eq_getElem_cons (by omega)
    rw [copyFront, ih (by omega), hread, htake, List.append_assoc, List.set_append_right _ _ hlen.le,
      hlen, Nat.sub_self, hdrop]
    rfl

/-- Where the buffer is long enough, making space is copying in place. -/
theorem makeSpace_copyFront {len : ℕ} (h : ¬ b.rindex + b.writable < len) :
    (b.makeSpace len).buffer = copyFront b.buffer b.rindex b.readable := by
  have h₁ := b.rindex_le
  have h₂ := b.windex_le
  rw [makeSpace, if_neg h, copyFront_eq (by unfold readable; omega)]
  rfl

/-- The calls of a reader or a sender. `write` makes room, copies bytes to `beginWrite()`
and counts them. A vector is too short for a sum of its indices to wrap around. -/
inductive Op
  | append (data : Bytes)
  | write (data : Bytes)
  | retired (len : ℕ)
  | retiredAll
  | reset

def step (b : Buffer) : Op → Buffer
  | .append data => b.append data
  | .write data =>
    (b.ensureWritable data.length).hasWritten data (b.writable_ensureWritable data.length)
  | .retired len => b.retired len
  | .retiredAll => b.retiredAll
  | .reset => b.reset

/-- What the calls do to a queue of bytes. -/
def Op.queue (q : Bytes) : Op → Bytes
  | .append data => q ++ data
  | .write data => q ++ data
  | .retired len => q.drop (min len q.length)
  | .retiredAll => []
  | .reset => []

theorem drop_min (q : Bytes) (len : ℕ) : q.drop (min len q.length) = q.drop len := by
  rcases le_total len q.length with h | h
  · rw [min_eq_left h]
  · rw [min_eq_right h, List.drop_length, List.drop_eq_nil_of_le h]

theorem peek_step (op : Op) : (b.step op).peek = op.queue b.peek := by
  cases op with
  | append data => exact b.peek_append data
  | write data =>
    have hpeek := (b.ensureWritable data.length).peek_hasWritten data
      (b.writable_ensureWritable data.length)
    rw [peek_ensureWritable] at hpeek
    exact hpeek
  | retired len => exact (b.peek_retired len).trans (drop_min b.peek len).symm
  | retiredAll => exact b.peek_retiredAll
  | reset => exact b.peek_retiredAll

theorem peek_run (ops : List Op) (b : Buffer) :
    (ops.foldl step b).peek = ops.foldl Op.queue b.peek := by
  induction ops generalizing b with
  | nil => rfl
  | cons op ops ih => rw [List.foldl_cons, List.foldl_cons, ih, peek_step]

/-- The indices stay in order and in the buffer, room can be made for any number of bytes
with no byte lost, and what can be read is what a queue would hold. -/
theorem run_queue (size : ℕ) (ops : List Op) :
    let b := ops.foldl step (init size)
    (b.rindex ≤ b.windex ∧ b.windex ≤ b.buffer.length) ∧
      (∀ len, len ≤ (b.ensureWritable len).writable ∧ (b.ensureWritable len).peek = b.peek ∧
        (b.ensureWritable len).rindex ≤ (b.ensureWritable len).windex ∧
        (b.ensureWritable len).windex ≤ (b.ensureWritable len).buffer.length) ∧
      b.peek = ops.foldl Op.queue [] := by
  intro b
  refine ⟨⟨b.rindex_le, b.windex_le⟩, fun len ↦ ?_, ?_⟩
  · have hroom := b.writable_ensureWritable len
    have hpeek := b.peek_ensureWritable len
    exact ⟨hroom, hpeek, (b.ensureWritable len).rindex_le, (b.ensureWritable len).windex_le⟩
  · rw [peek_run, peek_init]

end Buffer

end Socnet.Net
