import Socnet.Modules.NameValue

namespace Socnet.FastCgi

def beginRequest : UInt8 := 1

/-- What a request is to the application that it is sent to. -/
structure Request where
  id : ℕ
  role : ℕ
  keepConn : Bool
  env : List (Bytes × Bytes)
  input : Bytes

/-- How far the application is with a request: the parameters, and then the standard input,
are a stream that a record without content ends. -/
inductive Responder
  | idle
  | params (q : Request) (stream : Bytes)
  | input (q : Request)
  | complete (q : Request)

/-- The record is of the stream that the application reads. -/
def Record.Belongs (type : UInt8) (id : ℕ) (r : Record) : Prop :=
  r.header.type = type ∧ r.header.requestId = id

instance (type : UInt8) (id : ℕ) : DecidablePred (Record.Belongs type id) := fun _ ↦
  inferInstanceAs (Decidable (_ ∧ _))

namespace Responder

def take : Responder → Record → Option Responder
  | .idle, r =>
    match r.content with
    | [role₁, role₀, flags, _, _, _, _, _] =>
      if r.header.type = beginRequest then
        some (.params ⟨r.header.requestId, role₁.toNat <<< 8 + role₀.toNat, flags &&& 1 = 1, [], []⟩ [])
      else none
    | _ => none
  | .params q stream, r =>
    if r.Belongs FastCgi.params q.id then
      if r.content = [] then
        (Lib.Framing.decode readNameValue stream).map fun env ↦ .input { q with env }
      else some (.params q (stream ++ r.content))
    else none
  | .input q, r =>
    if r.Belongs stdin q.id then
      if r.content = [] then some (.complete q)
      else some (.input { q with input := q.input ++ r.content })
    else none
  -- the end of the input may be told again
  | .complete q, r => if r.Belongs stdin q.id ∧ r.content = [] then some (.complete q) else none

def takeAll (s : Responder) (rs : List Record) : Option Responder := rs.foldlM take s

variable {q : Request} {r : Record} {rs : List Record}

theorem takeAll_cons {s s' : Responder} :
    takeAll s (r :: rs) = some s' ↔ ∃ t, take s r = some t ∧ takeAll t rs = some s' := by
  rw [takeAll, List.foldlM_cons]
  exact Option.bind_eq_some_iff

theorem takeAll_append (s : Responder) (rs rs' : List Record) :
    takeAll s (rs ++ rs') = (takeAll s rs).bind (takeAll · rs') := List.foldlM_append

theorem takeAll_params {stream : Bytes} (hrs : ∀ r ∈ rs, r.Belongs FastCgi.params q.id)
    (hne : ∀ r ∈ rs, r.content ≠ []) :
    takeAll (.params q stream) rs = some (.params q (stream ++ rs.flatMap Record.content)) := by
  induction rs generalizing stream with
  | nil => simp [takeAll]
  | cons r rs ih =>
    have hstep : take (.params q stream) r = some (.params q (stream ++ r.content)) := by
      rw [take, if_pos (hrs r List.mem_cons_self), if_neg (hne r List.mem_cons_self)]
    refine takeAll_cons.mpr ⟨_, hstep, ?_⟩
    rw [ih (fun r' h ↦ hrs r' (.tail _ h)) fun r' h ↦ hne r' (.tail _ h), List.flatMap_cons,
      List.append_assoc]

theorem take_params_end {stream : Bytes} {env : List (Bytes × Bytes)}
    (hr : r.Belongs FastCgi.params q.id) (hnil : r.content = [])
    (henv : Lib.Framing.decode readNameValue stream = some env) :
    take (.params q stream) r = some (.input { q with env }) := by
  rw [take, if_pos hr, if_pos hnil, henv]
  rfl

theorem take_input (hr : r.Belongs stdin q.id) (hne : r.content ≠ []) :
    take (.input q) r = some (.input { q with input := q.input ++ r.content }) := by
  rw [take, if_pos hr, if_neg hne]

theorem take_input_end (hr : r.Belongs stdin q.id) (hnil : r.content = []) :
    take (.input q) r = some (.complete q) := by
  rw [take, if_pos hr, if_pos hnil]

theorem take_complete (hr : r.Belongs stdin q.id) (hnil : r.content = []) :
    take (.complete q) r = some (.complete q) := if_pos ⟨hr, hnil⟩

theorem takeAll_complete {s : Responder} (h : takeAll (.complete q) rs = some s) :
    s = .complete q ∧ ∀ r ∈ rs, r.Belongs stdin q.id ∧ r.content = [] := by
  induction rs with
  | nil => exact ⟨(Option.some.inj h).symm, by simp⟩
  | cons r rs ih =>
    obtain ⟨t, ht, h⟩ := takeAll_cons.mp h
    rw [take] at ht
    split_ifs at ht with hr
    cases ht
    exact ⟨(ih h).1, List.forall_mem_cons.mpr ⟨hr, (ih h).2⟩⟩

/-- The records that complete a request are its standard input: some with content, and then
only such without. -/
theorem takeAll_input {q' : Request} (h : takeAll (.input q) rs = some (.complete q')) :
    ∃ contents ends, rs = contents ++ ends ∧ ends ≠ [] ∧ (∀ r ∈ rs, r.Belongs stdin q.id) ∧
      (∀ r ∈ contents, r.content ≠ []) ∧ (∀ r ∈ ends, r.content = []) ∧
      q' = { q with input := q.input ++ contents.flatMap Record.content } := by
  induction rs generalizing q with
  | nil => cases h
  | cons r rs ih =>
    obtain ⟨t, ht, h⟩ := takeAll_cons.mp h
    rw [take] at ht
    split_ifs at ht with hr hnil
    · cases ht
      obtain ⟨hq, hends⟩ := takeAll_complete h
      cases hq
      refine ⟨[], r :: rs, rfl, List.cons_ne_nil _ _, ?_, by simp, ?_, by simp⟩
      · exact List.forall_mem_cons.mpr ⟨hr, fun r' h' ↦ (hends r' h').1⟩
      · exact List.forall_mem_cons.mpr ⟨hnil, fun r' h' ↦ (hends r' h').2⟩
    · cases ht
      obtain ⟨contents, ends, rfl, hends, hbelongs, hne, hnone, rfl⟩ := ih h
      refine ⟨r :: contents, ends, rfl, hends, ?_, ?_, hnone, ?_⟩
      · exact List.forall_mem_cons.mpr ⟨hr, hbelongs⟩
      · exact List.forall_mem_cons.mpr ⟨hnil, hne⟩
      · rw [List.flatMap_cons, List.append_assoc]

end Responder

end Socnet.FastCgi
