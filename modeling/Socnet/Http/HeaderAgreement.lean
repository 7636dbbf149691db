import Socnet.Http.HttpHeader
import Socnet.Http.RequestHead

namespace Socnet.Http

open Lib Sequence Net HeaderLine HttpHeader Utility.EncodeUtil

/-- The colon is followed by one blank and not by a second one. -/
def HeaderLine.OneSpace (l : HeaderLine) : Prop :=
  l.rest.head? = some SP ∧ (l.rest.drop 1).head? ≠ some SP

instance HeaderLine.decidableOneSpace (l : HeaderLine) : Decidable l.OneSpace :=
  inferInstanceAs (Decidable (_ ∧ _))

/-- Cutting one byte behind the colon is the same as skipping the blanks there. -/
theorem HeaderLine.oneSpace_iff (l : HeaderLine) (h : l.rest ≠ []) :
    l.rest.drop 1 = l.value ↔ l.OneSpace := by
  obtain ⟨c, v, hcv⟩ := List.exists_cons_of_ne_nil h
  rw [value, OneSpace, hcv]
  simp only [List.drop_one, List.tail_cons, List.head?_cons, Option.some.injEq]
  by_cases hc : c = SP
  · rw [List.dropWhile_cons_of_pos (by simpa using hc)]
    cases v with
    | nil => simp [hc]
    | cons x v =>
      by_cases hx : x = SP
      · have hlen := (List.dropWhile_sublist (· = SP) (l := v)).length_le
        rw [List.dropWhile_cons_of_pos (by simpa using hx)]
        refine iff_of_false (fun he ↦ ?_) (by simp [hx])
        have := congrArg List.length he
        simp only [List.length_cons] at this
        omega
      · rw [List.dropWhile_cons_of_neg (by simpa using hx)]
        simp [hc, hx]
  · rw [List.dropWhile_cons_of_neg (by simpa using hc)]
    simp [hc]

namespace HttpRequest

theorem headerTurn_text (l : HeaderLine) (t : Bytes) :
    headerTurn (l.text ++ (CRLF ++ t)) =
      if l.rest = [] then .raise .outOfRange
      else .line l.name (l.rest.drop 1) (l.text.length + 2) := by
  have hlen := l.length_text
  unfold headerTurn
  rw [if_neg (l.not_blank t), l.find_crlf t]
  dsimp only
  rw [List.take_left' rfl, l.find_colon]
  dsimp only
  by_cases hr : l.rest = []
  · have hrest : l.rest.length = 0 := by rw [hr, List.length_nil]
    have hout : substr l.text (l.name.length + 2) (l.text.length - l.name.length - 2) =
        .error .outOfRange := if_neg (by omega)
    rw [hout, if_pos hr]
  · have hrest := List.length_pos_iff.mpr hr
    have hvalue : substr l.text (l.name.length + 2) (l.text.length - l.name.length - 2) =
        .ok (l.rest.drop 1) := by
      rw [substr_of_le (by omega), l.drop_text 1, List.take_of_length_le (by simp; omega)]
    rw [hvalue, l.take_text, if_neg hr]

/-- A header with lines stored in it as `parseRequestHeader` does. -/
def storeCut (h : HttpHeader) (ls : List HeaderLine) : HttpHeader :=
  ls.foldl (fun h l ↦ h.add l.name (l.rest.drop 1)) h

theorem scanLines_lines (ls : List HeaderLine) (h : HttpHeader) (t : Bytes) :
    scanLines (lines ls ++ (CRLF ++ t)) h =
      if ∀ l ∈ ls, l.rest ≠ [] then .ok (.requestHeaderDone, storeCut h ls, t)
      else .error .outOfRange := by
  induction ls generalizing h with
  | nil =>
    have hblank : headerTurn (CRLF ++ t) = .blank := if_pos (List.prefix_append _ _)
    change scanLines (CRLF ++ t) h = _
    rw [scanLines_eq, hblank]
    rfl
  | cons l ls ih =>
    rw [lines_cons, scanLines_eq, headerTurn_text]
    by_cases hr : l.rest = []
    · simp [hr]
    · rw [if_neg hr]
      dsimp only
      rw [drop_line, ih]
      simp [hr, storeCut]

end HttpRequest

namespace HttpHeader

theorem parse_lines (ls : List HeaderLine) (h : HttpHeader) (t : Bytes) :
    parse h (lines ls ++ (CRLF ++ t)) =
      let index := Int.bmod (lines ls).length (2 ^ 32)
      if index + 2 < 2 ^ 31 then .ok (index + 2, storeLines h ls) else .error .overflow := by
  have hb : parseTurn (CRLF ++ t) = .ok .blank := if_pos (List.prefix_append _ _)
  rw [parse, parseLoop_lines ls (CRLF ++ t) rfl h, Int.zero_add, parseLoop_eq, hb]

/-- The value returned is the length of a block just when an `int` holds it. -/
theorem parse_lines_iff {ls : List HeaderLine} {h h' : HttpHeader} {t : Bytes} :
    parse h (lines ls ++ (CRLF ++ t)) = .ok (((lines ls ++ CRLF).length : ℕ), h') ↔
      (lines ls ++ CRLF).length < 2 ^ 31 ∧ h' = storeLines h ls := by
  have hlen : (lines ls ++ CRLF).length = (lines ls).length + 2 := List.length_append
  rw [parse_lines, hlen]
  dsimp only
  constructor
  · intro he
    split at he
    · rename_i hlt
      simp only [Except.ok.injEq, Prod.mk.injEq] at he
      obtain ⟨hi, rfl⟩ := he
      refine ⟨?_, rfl⟩
      have hi : Int.bmod (lines ls).length (2 ^ 32) = (lines ls).length := by omega
      rw [hi] at hlt
      omega
    · cases he
  · rintro ⟨hlt, rfl⟩
    rw [bmod_of_lt (by omega), if_pos (by omega)]
    rfl

/-- Two ways to read the values of the same names leave the same header when they
agree on the values that stay. -/
theorem foldl_add_eq_iff {α : Type} (name f g : α → Bytes) (items : List α) (h : HttpHeader) :
    items.foldl (fun h a ↦ h.add (name a) (f a)) h =
        items.foldl (fun h a ↦ h.add (name a) (g a)) h ↔
      ∀ a ∈ items, ∀ b ∈ shown name items (toLowers (name a)), f b = g b := by
  constructor
  · intro he a _
    have hv := congrArg (fun m : HttpHeader ↦ m.values (toLowers (name a))) he
    simp only [values_foldl] at hv
    apply List.map_inj_left.mp
    split_ifs at hv
    · exact List.append_cancel_left hv
    · exact List.append_cancel_right hv
  · intro hall
    apply Multimap.ext_values
    intro k
    have hmap : (shown name items k).map f = (shown name items k).map g := by
      apply List.map_congr_left
      intro b hb
      obtain ⟨hmem, hk⟩ := mem_of_mem_shown hb
      exact hall b hmem b (hk ▸ hb)
    rw [values_foldl, values_foldl, hmap]

end HttpHeader

/-- The two parsers read the same header from a block just when every line has a byte
behind its colon, every line that the header shows has one blank there, and the block
is short enough for an `int`. -/
theorem parseRequestHeader_parse_iff (r : HttpRequest) (ls : List HeaderLine) (t : Bytes)
    (hr : r.recver.peek = lines ls ++ (CRLF ++ t)) :
    (∃ r' h, r.parseRequestHeader = .ok r' ∧ r'.retCode = .requestHeaderDone ∧
        r'.recver.peek = t ∧
        HttpHeader.parse r.header (lines ls ++ (CRLF ++ t)) =
          .ok (((lines ls ++ CRLF).length : ℕ), h) ∧ r'.header = h) ↔
      (∀ l ∈ ls, l.rest ≠ []) ∧
        (∀ l ∈ ls, ∀ l' ∈ shown HeaderLine.name ls (toLowers l.name), l'.OneSpace) ∧
        (lines ls ++ CRLF).length < 2 ^ 31 := by
  have hscan := HttpRequest.outcome_parseRequestHeader r
  rw [hr, HttpRequest.scanLines_lines] at hscan
  have hspace (hrest : ∀ l ∈ ls, l.rest ≠ []) : HttpRequest.storeCut r.header ls =
      storeLines r.header ls ↔
        ∀ l ∈ ls, ∀ l' ∈ shown HeaderLine.name ls (toLowers l.name), l'.OneSpace := by
    rw [HttpRequest.storeCut, storeLines, foldl_add_eq_iff]
    refine forall₄_congr fun l _ l' hl' ↦ ?_
    exact l'.oneSpace_iff (hrest l' (mem_of_mem_shown hl').1)
  simp only [parse_lines_iff]
  constructor
  · rintro ⟨r', h, hp, -, -, ⟨hlt, rfl⟩, heq⟩
    rw [hp] at hscan
    by_cases hrest : ∀ l ∈ ls, l.rest ≠ []
    · rw [if_pos hrest] at hscan
      simp only [Except.map, HttpRequest.outcome, Except.ok.injEq, Prod.mk.injEq] at hscan
      exact ⟨hrest, (hspace hrest).mp (hscan.2.1.symm.trans heq), hlt⟩
    · rw [if_neg hrest] at hscan
      cases hscan
  · rintro ⟨hrest, hone, hlt⟩
    rw [if_pos hrest] at hscan
    cases hp : r.parseRequestHeader with
    | error e =>
      rw [hp] at hscan
      cases hscan
    | ok r' =>
      rw [hp] at hscan
      simp only [Except.map, HttpRequest.outcome, Except.ok.injEq, Prod.mk.injEq] at hscan
      obtain ⟨hcode, hheader, hpeek⟩ := hscan
      exact ⟨r', _, rfl, hcode, hpeek, ⟨hlt, rfl⟩, hheader.trans ((hspace hrest).mpr hone)⟩

def hostLine : HeaderLine := ⟨ascii "Host", ascii " a", by decide, by decide, by decide⟩

theorem parseRequestHeader_parse_host : ∃ r' h,
    (HttpRequest.init (Buffer.init.append (lines [hostLine] ++ (CRLF ++ [])))).parseRequestHeader =
      .ok r' ∧ r'.retCode = .requestHeaderDone ∧ r'.recver.peek = [] ∧
    HttpHeader.parse Multimap.empty (lines [hostLine] ++ (CRLF ++ [])) =
      .ok (((lines [hostLine] ++ CRLF).length : ℕ), h) ∧ r'.header = h := by
  have hr : (HttpRequest.init (Buffer.init.append
      (lines [hostLine] ++ (CRLF ++ [])))).recver.peek = lines [hostLine] ++ (CRLF ++ []) := by
    rw [HttpRequest.init, Buffer.peek_append, Buffer.peek_init, List.nil_append]
  exact (parseRequestHeader_parse_iff _ [hostLine] [] hr).mpr ⟨by decide, by decide, by decide⟩

/-- A line without a blank behind its colon. -/
def bareLine : HeaderLine := ⟨ascii "a", ascii "b", by decide, by decide, by decide⟩

theorem not_parseRequestHeader_parse : ¬ ∃ r' h,
    (HttpRequest.init (Buffer.init.append (lines [bareLine] ++ (CRLF ++ [])))).parseRequestHeader =
      .ok r' ∧ r'.retCode = .requestHeaderDone ∧ r'.recver.peek = [] ∧
    HttpHeader.parse Multimap.empty (lines [bareLine] ++ (CRLF ++ [])) =
      .ok (((lines [bareLine] ++ CRLF).length : ℕ), h) ∧ r'.header = h := by
  rintro ⟨r', h, hp, -, -, hparse, rfl⟩
  have hscan := HttpRequest.outcome_parseRequestHeader
    (HttpRequest.init (Buffer.init.append (lines [bareLine] ++ (CRLF ++ []))))
  rw [hp, HttpRequest.init, Buffer.peek_append, Buffer.peek_init, List.nil_append,
    HttpRequest.scanLines_lines, if_pos (by decide)] at hscan
  simp only [Except.map, HttpRequest.outcome, Except.ok.injEq, Prod.mk.injEq] at hscan
  have heq := hscan.2.1.symm.trans (parse_lines_iff.mp hparse).2
  have hget := congrArg (fun m : HttpHeader ↦ m.get (ascii "a")) heq
  revert hget
  decide

end Socnet.Http
