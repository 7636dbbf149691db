import Socnet.Lib.Loop
import Socnet.Net.Buffer

namespace Socnet.Utility.EncodeUtil

open Lib.Loop

/-- zlib, as far as `gzipCompress` uses it: a stream that is made for an input, and
`deflate` with `Z_FINISH`, which writes as much of what is left as there is room for. -/
structure Deflate where
  Stream : Type
  init : Bytes → Stream
  deflate : Stream → ℕ → Bytes × Stream
  rest : Stream → Bytes
  written : ∀ s availOut, (deflate s availOut).1 = (rest s).take availOut
  remaining : ∀ s availOut, rest (deflate s availOut).2 = (rest s).drop availOut

variable (zlib : Deflate)

/-- The locals of `gzipCompress`. `availOut` has no value before the first turn. -/
structure Compression where
  strm : zlib.Stream
  availOut : Option ℕ
  output : Bytes
  sizeCompressed : ℕ

namespace Compression

variable {zlib}

/-- `avail_in` is the size of the input as an `uint32_t`. -/
def start (buf output : Bytes) : Compression zlib :=
  ⟨zlib.init (buf.take (buf.length % 2 ^ 32)), none, output, 0⟩

def increase (size : ℕ) : ℕ := size / 2 + 1024

/-- The bytes that `deflate` writes from `output.data() + size_compressed` on. -/
def store (output : Bytes) (pos : ℕ) (bytes : Bytes) : Except Fault Bytes :=
  if pos + bytes.length ≤ output.length then
    .ok (output.take pos ++ bytes ++ output.drop (pos + bytes.length))
  else .error .overflow

def turn (size : ℕ) (c : Compression zlib) : Except Fault (Compression zlib) := do
  let output := if c.output.length < c.sizeCompressed + increase size then
    Net.Buffer.resize c.output (c.sizeCompressed + increase size) else c.output
  let (bytes, strm) := zlib.deflate c.strm (increase size % 2 ^ 32)
  let availOut := increase size % 2 ^ 32 - bytes.length
  let output ← store output c.sizeCompressed bytes
  .ok ⟨strm, some availOut, output, c.sizeCompressed + (increase size - availOut)⟩

/-- The loop ends when a turn has left room, and `output` is then cut to what was written. -/
def exit (c : Compression zlib) : Option Bytes :=
  if c.availOut = none ∨ c.availOut = some 0 then none
  else some (Net.Buffer.resize c.output c.sizeCompressed)

end Compression

open Compression

/-- `output` after `gzipCompress`. -/
def GzipCompress (buf output : Bytes) (r : Except Fault Bytes) : Prop :=
  Ends Compression.exit (turn buf.length) (start buf output : Compression zlib) r

namespace Compression

variable {zlib} {size : ℕ} {c : Compression zlib}

theorem length_room (pos n : ℕ) (output : Bytes) (hpos : pos ≤ output.length) :
    let room := if output.length < pos + n then Net.Buffer.resize output (pos + n) else output
    pos + n ≤ room.length ∧ room.take pos = output.take pos := by
  intro room
  change pos + n ≤ (if _ then _ else _ : Bytes).length ∧ (if _ then _ else _ : Bytes).take pos = _
  split_ifs with h
  · rw [Net.Buffer.resize_length]
    refine ⟨le_rfl, ?_⟩
    rw [Net.Buffer.resize, List.take_of_length_le h.le, List.take_append_of_le_length hpos]
  · exact ⟨by omega, rfl⟩

theorem store_eq {output bytes : Bytes} {pos : ℕ} (hroom : pos + bytes.length ≤ output.length) :
    ∃ output', store output pos bytes = .ok output' ∧ pos + bytes.length ≤ output'.length ∧
      output'.take (pos + bytes.length) = output.take pos ++ bytes := by
  have hpos : (output.take pos).length = pos := by
    rw [List.length_take]
    omega
  refine ⟨_, if_pos hroom, ?_, ?_⟩
  · simp only [List.length_append, hpos, List.length_drop]
    omega
  · rw [List.take_left']
    rw [List.length_append, hpos]

/-- The room that a turn makes is filled as far as the stream goes. -/
theorem turn_eq (hsize : size < 2 ^ 32) (hpos : c.sizeCompressed ≤ c.output.length) :
    ∃ c', turn size c = .ok c' ∧ zlib.rest c'.strm = (zlib.rest c.strm).drop (increase size) ∧
      c'.availOut = some (increase size - (zlib.rest c.strm).length) ∧
      c'.sizeCompressed ≤ c'.output.length ∧
      c'.output.take c'.sizeCompressed =
        c.output.take c.sizeCompressed ++ (zlib.rest c.strm).take (increase size) := by
  have hmod : increase size % 2 ^ 32 = increase size := by
    unfold increase
    omega
  have hwritten := zlib.written c.strm (increase size)
  have hlen : (zlib.deflate c.strm (increase size)).1.length =
      min (increase size) (zlib.rest c.strm).length := by
    rw [hwritten, List.length_take]
  obtain ⟨hroom, hkept⟩ := length_room c.sizeCompressed (increase size) c.output hpos
  obtain ⟨output', hstore, hfit, htake⟩ := store_eq
    ((Nat.add_le_add_left (hlen.le.trans (min_le_left _ _)) c.sizeCompressed).trans hroom)
  have hsum : c.sizeCompressed + (increase size -
        (increase size - (zlib.deflate c.strm (increase size)).1.length)) =
      c.sizeCompressed + (zlib.deflate c.strm (increase size)).1.length := by omega
  have hleft : increase size - (zlib.deflate c.strm (increase size)).1.length =
      increase size - (zlib.rest c.strm).length := by omega
  refine ⟨⟨(zlib.deflate c.strm (increase size)).2,
    some (increase size - (zlib.deflate c.strm (increase size)).1.length), output', _⟩, ?_,
    zlib.remaining c.strm (increase size), congrArg some hleft, hfit, ?_⟩
  · rw [turn, hmod]
    dsimp only
    rw [hstore, hsum]
    rfl
  · rw [← hwritten, ← hkept]
    exact htake

theorem resize_of_le {output : Bytes} {n : ℕ} (h : n ≤ output.length) :
    Net.Buffer.resize output n = output.take n := by
  rw [Net.Buffer.resize, Nat.sub_eq_zero_of_le h, List.replicate_zero, List.append_nil]

/-- By induction on what is left of the stream: a turn that leaves no room has written some
of it. -/
theorem ends_run (hsize : size < 2 ^ 32) (hpos : c.sizeCompressed ≤ c.output.length)
    (hgo : Compression.exit c = none) : Ends Compression.exit (turn size) c
      (.ok (c.output.take c.sizeCompressed ++ zlib.rest c.strm)) := by
  induction hn : (zlib.rest c.strm).length using Nat.strong_induction_on generalizing c with
  | _ n ih =>
    subst hn
    obtain ⟨c', hturn, hrest, hroom, hpos', htake⟩ := turn_eq hsize hpos
    have hpositive : 0 < increase size := Nat.add_pos_right _ (by decide)
    apply Ends.next hgo hturn
    rcases Nat.lt_or_ge (zlib.rest c.strm).length (increase size) with hlt | hle
    · have hstop : Compression.exit c' = some (c'.output.take c'.sizeCompressed) := by
        rw [Compression.exit, hroom, if_neg (by simp; omega), resize_of_le hpos']
      rw [htake, List.take_of_length_le hlt.le] at hstop
      exact .exit hstop
    · have hagain : Compression.exit c' = none := by
        rw [Compression.exit, hroom, if_pos (.inr (by rw [Nat.sub_eq_zero_of_le hle]))]
      have hshorter : (zlib.rest c'.strm).length < (zlib.rest c.strm).length := by
        rw [hrest, List.length_drop]
        omega
      have hih := ih _ hshorter hpos' hagain rfl
      rw [htake, hrest, List.append_assoc, List.take_append_drop] at hih
      exact hih

end Compression

/-- Whatever `output` held, it ends as the compressed stream. -/
theorem gzipCompress_eq {buf : Bytes} (hsize : buf.length < 2 ^ 32) (output : Bytes)
    (r : Except Fault Bytes) :
    GzipCompress zlib buf output r ↔ r = .ok (zlib.rest (zlib.init buf)) := by
  have hstart := ends_run (c := (start buf output : Compression zlib)) hsize (Nat.zero_le _) rfl
  change Ends _ _ _ (.ok (zlib.rest (zlib.init (buf.take (buf.length % 2 ^ 32))))) at hstart
  rw [Nat.mod_eq_of_lt hsize, List.take_length] at hstart
  constructor
  · intro h
    exact h.unique hstart
  · rintro rfl
    exact hstart

/-- What gzip makes of no bytes. -/
def emptyGzip : Bytes :=
  [0x1f, 0x8b, 8, 0, 0, 0, 0, 0, 0, 3, 3, 0, 0, 0, 0, 0, 0, 0, 0, 0]

def emptyDeflate : Deflate where
  Stream := Bytes
  init _ := emptyGzip
  deflate s availOut := (s.take availOut, s.drop availOut)
  rest s := s
  written _ _ := rfl
  remaining _ _ := rfl

theorem gzipCompress_eq_empty :
    GzipCompress emptyDeflate [] [1, 2, 3] (.ok emptyGzip) ↔
      (.ok emptyGzip : Except Fault Bytes) = .ok (emptyDeflate.rest (emptyDeflate.init [])) :=
  @gzipCompress_eq emptyDeflate [] (by decide) [1, 2, 3] (.ok emptyGzip)

end Socnet.Utility.EncodeUtil
