import Socnet.Net.TcpServer

namespace Socnet.Net

namespace TcpConnection

def SSL_ERROR_WANT_WRITE : ℤ := 3

/-- The error with which a channel asks to be written to again. -/
def writeBlocked : ChannelType → ℤ
  | .raw => EAGAIN
  | .ssl => SSL_ERROR_WANT_WRITE

def readBlocked : ChannelType → ℤ
  | .raw => EAGAIN
  | .ssl => SSL_ERROR_WANT_READ

/-- `write`, by what the calls of `Channel::write` return and leave in the flag. The loop
goes on after the last of them when it neither fails nor completes. -/
def write (getError : ℤ → ℤ) : List (ℤ × Bool) → Option (ℤ × ℤ × Bool)
  | [] => none
  | (n, cflag) :: results =>
    if n < 0 then some (n, getError n, cflag)
    else if cflag then some (0, getError 0, cflag)
    else write getError results

/-- Some calls that send part of what is left, and one that fails. -/
def Fails (results : List (ℤ × Bool)) (n : ℤ) (cflag : Bool) : Prop :=
  n < 0 ∧ ∃ sent : List ℤ, (∀ k ∈ sent, 0 ≤ k) ∧ results = sent.map (·, false) ++ [(n, cflag)]

theorem write_of_fails (getError : ℤ → ℤ) {results : List (ℤ × Bool)} {n : ℤ} {cflag : Bool}
    (h : Fails results n cflag) : write getError results = some (n, getError n, cflag) := by
  obtain ⟨hn, sent, hsent, rfl⟩ := h
  induction sent with
  | nil => exact if_pos hn
  | cons k sent ih =>
    have hk : ¬ k < 0 := not_lt.mpr (hsent k List.mem_cons_self)
    rw [List.map_cons, List.cons_append, write, if_neg hk]
    exact ih fun j hj ↦ hsent j (.tail k hj)

theorem readAgain_snd (type : ChannelType) (n err : ℤ) :
    (readAgain type n err).2 = decide (err = readBlocked type) := by
  cases type with
  | raw => rfl
  | ssl => rfl

theorem writeBlocked_ne_zero (type : ChannelType) : writeBlocked type ≠ 0 := by
  cases type with
  | raw => decide
  | ssl => decide

end TcpConnection

namespace Connections

open TcpConnection

variable (c : Connections) (slot : ℤ)

/-- `onWrite`, as far as `write` returns. -/
def onWriteResults (getError : ℤ → ℤ) (results : List (ℤ × Bool)) (out : Outcome) :
    Option Connections :=
  (write getError results).map fun (n, err, cflag) ↦ c.onWrite slot { out with n, err, cflag }

/-- A failed write sends for the next event whatever the error is, unless it is zero. -/
theorem onWrite_of_neg {out : Outcome} (hn : out.n < 0) : c.onWrite slot out =
    if out.err ≠ 0 then c.updateEvent (c.conns slot).connfd .epollout
    else c.handleConnectionClose slot := by
  rw [onWrite, writeAgain]
  dsimp only
  rw [if_neg hn.ne, if_pos hn]

/-- A failed read closes the connection unless it is to be tried again. -/
theorem onRead_of_neg (type : ChannelType) {out : Outcome} (hn : out.n < 0)
    (herr : out.err ≠ readBlocked type) : c.onRead slot type out = c.handleConnectionClose slot := by
  have hagain := readAgain_snd type out.n out.err
  rw [decide_eq_false herr] at hagain
  have hfst : (readAgain type out.n out.err).1 = out.n := by cases type <;> rfl
  rw [onRead]
  dsimp only
  rw [hagain, hfst]
  exact if_pos ⟨hn.le, rfl⟩

theorem updateEvent_ne_handleConnectionClose (hopen : ¬ (c.conns slot).Closed) (e : Interest) :
    c.updateEvent (c.conns slot).connfd e ≠ c.handleConnectionClose slot := by
  intro h
  have hclosed : ((c.handleConnectionClose slot).conns slot).Closed :=
    c.closed_handleConnectionClose
  rw [← h, conns_updateEvent] at hclosed
  exact hopen hclosed

/-- The flag that `writeAgain` computes is not among what it returns: `onWrite` reads the
error in its place, and only an error of zero closes the connection. -/
theorem onWriteResults_iff {channel : Channel} (hchannel : (c.conns slot).channel = some channel)
    (hopen : (c.conns slot).disconnected = false) (getError : ℤ → ℤ)
    {results : List (ℤ × Bool)} {n : ℤ} {cflag : Bool} (hfails : Fails results n cflag)
    (out : Outcome) :
    c.onWriteResults slot getError results out =
        some (if getError n = writeBlocked channel.type then
          c.updateEvent (c.conns slot).connfd .epollout
        else c.handleConnectionClose slot) ↔
      getError n = writeBlocked channel.type ∨ getError n = 0 := by
  have hlive : ¬ (c.conns slot).Closed := by
    rintro (hd | hc)
    · rw [hopen] at hd
      cases hd
    · rw [hchannel] at hc
      cases hc
  have hwrite := @onWrite_of_neg c slot { out with n, err := getError n, cflag } hfails.1
  rw [onWriteResults, write_of_fails getError hfails, Option.map_some, Option.some_inj]
  dsimp only at hwrite ⊢
  rw [hwrite]
  by_cases hblocked : getError n = writeBlocked channel.type
  · rw [if_pos hblocked, if_pos (hblocked ▸ writeBlocked_ne_zero channel.type)]
    exact iff_of_true rfl (.inl hblocked)
  · rw [if_neg hblocked, or_iff_right hblocked]
    by_cases hzero : getError n = 0
    · rw [if_neg (not_not.mpr hzero)]
      exact iff_of_true rfl hzero
    · rw [if_pos hzero]
      exact iff_of_false (c.updateEvent_ne_handleConnectionClose slot hlive _) hzero

/-- One connection, on descriptor 5, that waits to be written to. -/
def writing (type : ChannelType) : Connections where
  conns := Function.update (fun _ ↦ .init) 5 ⟨5, false, true, some ⟨0, type⟩⟩
  poller := Function.update (fun _ ↦ none) 5 (some .epollout)

def noOutcome : Outcome := ⟨0, 0, false, false, false, false⟩

theorem fails_reset : Fails [(100, false), (-1, false)] (-1) false :=
  ⟨by decide, [100], by decide, rfl⟩

theorem onWriteResults_iff_blocked :
    (writing .ssl).onWriteResults 5 (fun _ ↦ SSL_ERROR_WANT_WRITE) [(100, false), (-1, false)]
        noOutcome =
      some (if SSL_ERROR_WANT_WRITE = writeBlocked .ssl then
        (writing .ssl).updateEvent ((writing .ssl).conns 5).connfd .epollout
      else (writing .ssl).handleConnectionClose 5) ↔
    SSL_ERROR_WANT_WRITE = writeBlocked .ssl ∨ SSL_ERROR_WANT_WRITE = 0 :=
  @onWriteResults_iff (writing .ssl) 5 ⟨0, .ssl⟩ rfl rfl (fun _ ↦ SSL_ERROR_WANT_WRITE) _ _ _
    fails_reset noOutcome

def ECONNRESET : ℤ := 104

/-- After a reset by the peer the connection stays open. -/
theorem onWriteResults_reset :
    (writing .raw).onWriteResults 5 (fun _ ↦ ECONNRESET) [(100, false), (-1, false)] noOutcome ≠
      some (if ECONNRESET = writeBlocked .raw then
        (writing .raw).updateEvent ((writing .raw).conns 5).connfd .epollout
      else (writing .raw).handleConnectionClose 5) := by
  intro h
  have hopen := congrArg (Option.map fun c ↦ (c.conns 5).disconnected) h
  exact absurd hopen (by decide)

end Connections

end Socnet.Net
