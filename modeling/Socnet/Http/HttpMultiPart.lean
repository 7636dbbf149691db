import Mathlib.Tactic.SplitIfs
import Socnet.Http.HttpMap

namespace Socnet.Http

open Lib Utility.EncodeUtil

structure Part where
  name : Bytes
  fileName : Bytes
  fileType : Bytes
  data : Bytes
  deriving DecidableEq

/-- Equality under `strncmp` or `strncasecmp` (with `fold` the letter case
map) of raw memory and the whole of `s`. The comparison stops at a common NUL
and otherwise reads as many bytes of memory as `s` has. -/
def cstrEq (fold : UInt8 → UInt8) : Bytes → Bytes → Except Fault Bool
  | _, [] => .ok true
  | [], _ :: _ => .error .badRead
  | a :: memory, c :: s =>
    if fold a ≠ fold c then .ok false
    else if a = 0 then .ok true
    else cstrEq fold memory s

structure HttpMultiPart where
  boundary : Bytes
  form : HttpMap Bytes Bytes
  files : HttpMap Bytes (List Part)

namespace HttpMultiPart

def init : HttpMultiPart := ⟨[], ∅, ∅⟩

inductive State
  | startBody
  | startBoundary
  | endBoundary
  | startContentDisposition
  | endContentDisposition
  | startContentType
  | endContentType
  | startContentData
  | endContentData
  | endBody
  deriving DecidableEq

/-- The local variables of the parse loop; `rest` is the body from index `i`. -/
structure Cursor where
  rest : Bytes
  state : State
  name : Bytes
  filename : Bytes
  type : Bytes
  data : Bytes
  fileMark : Bool
  multipart : HttpMultiPart

/-- The inner loop over a `Content-Disposition` line. The remaining text is
`none` when the line does not end. -/
def disposition (inValue isName : Bool) (name filename : Bytes) (rest : Bytes) :
    Bytes × Bytes × Option Bytes :=
  match rest with
  | [] => (name, filename, none)
  | c :: tail =>
    if CRLF <+: rest then (name, filename, some tail.tail)
    else if ascii "=\"" <+: rest then disposition true isName name filename tail.tail
    else if c = '"'.toUInt8 then disposition false (!isName) name filename tail
    else if inValue then
      if isName then disposition inValue isName (name ++ [c]) filename tail
      else disposition inValue isName name (filename ++ [c]) tail
    else disposition inValue isName name filename tail
termination_by rest.length
decreasing_by all_goals simp only [List.length_tail, List.length_cons]; omega

theorem disposition_length (inValue isName : Bool) (name filename rest rest' : Bytes)
    (h : (disposition inValue isName name filename rest).2.2 = some rest') :
    rest'.length ≤ rest.length := by
  induction hn : rest.length using Nat.strong_induction_on
    generalizing inValue isName name filename rest with
  | _ n ih =>
    subst hn
    cases rest with
    | nil => simp [disposition] at h
    | cons c tail =>
      have hrec {inValue isName : Bool} {name filename text : Bytes}
          (ht : text.length ≤ tail.length)
          (hd : (disposition inValue isName name filename text).2.2 = some rest') :
          rest'.length ≤ (c :: tail).length :=
        (ih text.length (Nat.lt_succ_of_le ht) inValue isName name filename text hd rfl).trans
          (ht.trans (Nat.le_succ _))
      rw [disposition] at h
      split_ifs at h
      · simp only [Option.some.injEq] at h
        simp only [← h, List.length_tail, List.length_cons]
        omega
      · exact hrec (by simp) h
      · exact hrec le_rfl h
      · exact hrec le_rfl h
      · exact hrec le_rfl h
      · exact hrec le_rfl h

/-- Number of content bytes before the next delimiter. A delimiter is only
looked for while more than four bytes remain, but the boundary itself is
compared in raw memory. -/
def contentLength (boundary memory : Bytes) : Bytes → Except Fault (Option ℕ)
  | [] => .ok none
  | c :: rest => do
    let delimiter ←
      if 4 < (c :: rest).length ∧ CRLF ++ ascii "--" <+: c :: rest then
        cstrEq id (rest.drop 3 ++ memory) boundary
      else .ok false
    if delimiter then .ok (some 0)
    else do
      let n ← contentLength boundary memory rest
      .ok (n.map (· + 1))

/-- One turn of the parse loop. A branch of the source that leaves every local
variable as it was repeats for ever. -/
def step (memory : Bytes) (c : Cursor) : Except Fault Cursor :=
  let boundary := c.multipart.boundary
  match c.state with
  | .startBody =>
    if ascii "--" <+: c.rest then .ok { c with rest := c.rest.drop 2, state := .startBoundary }
    else .error .hang
  | .startBoundary => do
    if ← cstrEq id (c.rest ++ memory) boundary then
      let rest := c.rest.drop boundary.length
      if CRLF <+: rest then .ok { c with rest := rest.drop 2, state := .endBoundary }
      else if ascii "--" <+: rest then .ok { c with rest := rest.drop 2, state := .endBody }
      else if boundary = [] then .error .hang
      else .ok { c with rest := rest }
    else .error .hang
  | .endBoundary => do
    if ← cstrEq toLower (c.rest ++ memory) (ascii "Content-Disposition") then
      .ok { c with rest := c.rest.drop 19, state := .startContentDisposition }
    else .error .hang
  | .startContentDisposition =>
    match disposition false true c.name c.filename (c.rest.drop 13) with
    | (name, filename, some rest) =>
      .ok { c with name, filename, rest, state := .endContentDisposition }
    | (name, filename, none) => .ok { c with name, filename, rest := [] }
  | .endContentDisposition =>
    if CRLF <+: c.rest then
      .ok { c with rest := c.rest.drop 2, fileMark := false, state := .startContentData }
    else do
      if ← cstrEq toLower (c.rest ++ memory) (ascii "Content-Type") then
        .ok { c with rest := c.rest.drop 14, fileMark := true, state := .startContentType }
      else .error .hang
  | .startContentType =>
    match Sequence.find CRLF c.rest with
    | some pos =>
      .ok { c with type := c.type ++ c.rest.take pos, rest := c.rest.drop (pos + 2),
                   state := .endContentType }
    | none => .ok { c with type := c.type ++ c.rest, rest := [] }
  | .endContentType =>
    if CRLF <+: c.rest then .ok { c with rest := c.rest.drop 2, state := .startContentData }
    else .error .hang
  | .startContentData => do
    match ← contentLength boundary memory c.rest with
    | some n => .ok { c with data := c.rest.take n, rest := c.rest.drop (n + 2),
                             state := .endContentData }
    | none => .ok { c with rest := [] }
  | .endContentData =>
    -- a second file of one name is pushed into a copy of the vector and lost
    let multipart :=
      if ¬ c.fileMark then { c.multipart with form := c.multipart.form.add c.name c.data }
      else if c.multipart.files.contain c.name then c.multipart
      else { c.multipart with
        files := c.multipart.files.add c.name [⟨c.name, c.filename, c.type, c.data⟩] }
    .ok ⟨c.rest, .startBody, [], [], [], [], false, multipart⟩
  | .endBody => .ok { c with rest := c.rest.drop 2 }

def Cursor.weight (c : Cursor) : ℕ :=
  2 * c.rest.length + if c.state = .endContentData then 1 else 0

/-- Every turn that returns takes input or leaves `endContentData`. -/
theorem step_weight {memory : Bytes} {c c' : Cursor} (hr : c.rest ≠ [])
    (h : step memory c = .ok c') : c'.weight < c.weight := by
  have hpos : 0 < c.rest.length := List.length_pos_iff.mpr hr
  have hdrop (text : Bytes) (n : ℕ) : (text.drop n).length = text.length - n := List.length_drop
  have hcrlf {text : Bytes} {s : Bytes} (hp : s <+: text) : s.length ≤ text.length := hp.length_le
  obtain ⟨rest, state, name, filename, type, data, fileMark, multipart⟩ := c
  unfold step at h
  cases state with
  | startBody =>
    dsimp only at h hpos
    split_ifs at h
    cases h
    simp only [Cursor.weight, hdrop, reduceCtorEq, if_false]
    omega
  | startBoundary =>
    obtain ⟨b, -, h⟩ := bind_eq_ok.mp h
    dsimp only at h hpos
    split_ifs at h with hb hp hq hn
    · cases h
      have := hcrlf hp
      simp only [Cursor.weight, hdrop, reduceCtorEq, if_false, CRLF, List.length_cons] at *
      omega
    · cases h
      have := hcrlf hq
      simp only [Cursor.weight, hdrop, reduceCtorEq, if_false] at *
      have : (ascii "--").length = 2 := rfl
      omega
    · cases h
      have := List.length_pos_iff.mpr hn
      simp only [Cursor.weight, hdrop, reduceCtorEq, if_false]
      omega
  | endBoundary =>
    obtain ⟨b, -, h⟩ := bind_eq_ok.mp h
    dsimp only at h hpos
    split_ifs at h
    cases h
    simp only [Cursor.weight, hdrop, reduceCtorEq, if_false]
    omega
  | startContentDisposition =>
    dsimp only at h hpos
    split at h
    · rename_i rest' hd
      cases h
      have := disposition_length _ _ _ _ _ _ (congrArg (·.2.2) hd)
      simp only [Cursor.weight, hdrop, reduceCtorEq, if_false] at *
      omega
    · cases h
      simp only [Cursor.weight, reduceCtorEq, if_false, List.length_nil]
      omega
  | endContentDisposition =>
    dsimp only at h hpos
    split_ifs at h
    · cases h
      simp only [Cursor.weight, hdrop, reduceCtorEq, if_false]
      omega
    · obtain ⟨b, -, h⟩ := bind_eq_ok.mp h
      split_ifs at h
      cases h
      simp only [Cursor.weight, hdrop, reduceCtorEq, if_false]
      omega
  | startContentType =>
    dsimp only at h hpos
    split at h
    · cases h
      simp only [Cursor.weight, hdrop, reduceCtorEq, if_false]
      omega
    · cases h
      simp only [Cursor.weight, reduceCtorEq, if_false, List.length_nil]
      omega
  | endContentType =>
    dsimp only at h hpos
    split_ifs at h
    cases h
    simp only [Cursor.weight, hdrop, reduceCtorEq, if_false]
    omega
  | startContentData =>
    obtain ⟨n, -, h⟩ := bind_eq_ok.mp h
    dsimp only at h hpos
    split at h
    · cases h
      simp only [Cursor.weight, hdrop, reduceCtorEq, if_false, if_true]
      omega
    · cases h
      simp only [Cursor.weight, reduceCtorEq, if_false, List.length_nil]
      omega
  | endContentData =>
    cases h
    simp only [Cursor.weight, reduceCtorEq, if_false, if_true]
    omega
  | endBody =>
    cases h
    dsimp only at hpos
    simp only [Cursor.weight, hdrop, reduceCtorEq, if_false]
    omega

def parseLoop (memory : Bytes) (c : Cursor) : Except Fault HttpMultiPart :=
  if _hr : c.rest = [] then .ok c.multipart
  else
    match _h : step memory c with
    | .error e => .error e
    | .ok c' => parseLoop memory c'
termination_by c.weight
decreasing_by exact step_weight _hr _h

/-- `memory` is what follows the body in the receive buffer. -/
def parse (m : HttpMultiPart) (body memory : Bytes) : Except Fault HttpMultiPart :=
  parseLoop memory ⟨body, .startBody, [], [], [], [], false, m⟩

end HttpMultiPart

end Socnet.Http
