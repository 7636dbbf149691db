import Socnet.Http.ParserSafety
import Socnet.Lib.Loop

namespace Socnet.Http.HttpRequest

open Lib Net

/-- The `state` of the digest loop, with what `buffer` holds of a pair. -/
inductive DigestState
  | name
  | value (key : Bytes)
  | separator

/-- The variables of the digest loop; `auth` is the text from index `i`. -/
structure DigestLoop where
  state : DigestState
  auth : Bytes
  da : HttpMap Bytes Bytes

namespace DigestLoop

/-- The loop on the value of an `Authorization` header. -/
def start (x : Bytes) (da : HttpMap Bytes Bytes) : DigestLoop := ⟨.name, x.drop 7, da⟩

def exit (l : DigestLoop) : Option (HttpMap Bytes Bytes) :=
  if l.auth = [] then some l.da else none

/-- One `switch` of the loop, inner loops included. -/
def turn (l : DigestLoop) : Except Fault DigestLoop :=
  match l.state with
  | .name =>
    match scanName [] l.auth with
    | .error e => .error e
    | .ok (_, none) => .ok { l with auth := [] }
    | .ok (key, some auth) => .ok { l with state := .value key, auth }
  | .value key =>
    match scanValue key.length [] (skipQuote l.auth) with
    | .error e => .error e
    | .ok (value, auth) => .ok ⟨.separator, auth, l.da.add key value⟩
  | .separator =>
    if ascii ", " <+: l.auth then .ok { l with state := .name, auth := l.auth.drop 2 } else .ok l

/-- The loop ends with the value. -/
abbrev Ends : DigestLoop → Except Fault (HttpMap Bytes Bytes) → Prop := Loop.Ends exit turn

/-- What `digestFields` makes of the text behind a pair. -/
def runSeparator (auth : Bytes) (da : HttpMap Bytes Bytes) : Except Fault (HttpMap Bytes Bytes) :=
  if auth = [] then .ok da
  else if ascii ", " <+: auth then digestFields (auth.drop 2) da
  else .error .hang

/-- What `digestFields` makes of the text behind a name. -/
def runValue (key auth : Bytes) (da : HttpMap Bytes Bytes) : Except Fault (HttpMap Bytes Bytes) :=
  if auth = [] then .ok da
  else
    match scanValue key.length [] (skipQuote auth) with
    | .error e => .error e
    | .ok (value, auth) => runSeparator auth (da.add key value)

def run (l : DigestLoop) : Except Fault (HttpMap Bytes Bytes) :=
  match l.state with
  | .name => digestFields l.auth l.da
  | .value key => runValue key l.auth l.da
  | .separator => runSeparator l.auth l.da

theorem digestFields_eq (auth : Bytes) (da : HttpMap Bytes Bytes) :
    digestFields auth da =
      match scanName [] auth with
      | .error e => .error e
      | .ok (_, none) => .ok da
      | .ok (key, some auth) => runValue key auth da := by
  rw [digestFields]
  split
  · rename_i e he
    rw [he]
  · rename_i key he
    rw [he]
  · rename_i key rest he
    rw [he]
    simp only [runValue]
    split_ifs
    · rfl
    · split
      · rename_i e hv
        rw [hv]
      · rename_i value rest' hv
        rw [hv]
        rfl

def weight (l : DigestLoop) : ℕ :=
  2 * l.auth.length + match l.state with | .value _ => 1 | _ => 0

theorem skipQuote_length (auth : Bytes) : (skipQuote auth).length ≤ auth.length := by
  unfold skipQuote
  split_ifs
  · simp
  · exact le_rfl

/-- Each turn raises, spins or comes closer to the end, as `run` says. -/
theorem turn_cases (l : DigestLoop) (hx : l.exit = none) :
    (∃ e, l.turn = .error e ∧ l.run = .error e) ∨ (l.turn = .ok l ∧ l.run = .error .hang) ∨
      ∃ l', l.turn = .ok l' ∧ l'.weight < l.weight ∧ l.run = l'.run := by
  obtain ⟨state, auth, da⟩ := l
  have hne : auth ≠ [] := by
    rintro rfl
    simp [exit] at hx
  have hpos : 0 < auth.length := List.length_pos_iff.mpr hne
  cases state with
  | name =>
    simp only [turn, run, digestFields_eq]
    cases hn : scanName [] auth with
    | error e => exact .inl ⟨e, rfl, rfl⟩
    | ok r =>
      obtain ⟨key, _ | auth'⟩ := r
      · refine .inr (.inr ⟨_, rfl, ?_, ?_⟩)
        · simpa [weight] using hpos
        · simp [scanName]
      · have hlt := scanName_length hn
        refine .inr (.inr ⟨_, rfl, ?_, rfl⟩)
        simp only [weight]
        omega
  | value key =>
    simp only [turn, run, runValue, if_neg hne]
    cases hv : scanValue key.length [] (skipQuote auth) with
    | error e => exact .inl ⟨e, rfl, rfl⟩
    | ok r =>
      obtain ⟨value, auth'⟩ := r
      have hle := (scanValue_length hv).trans (skipQuote_length auth)
      refine .inr (.inr ⟨_, rfl, ?_, rfl⟩)
      simp only [weight]
      omega
  | separator =>
    simp only [turn, run, runSeparator, if_neg hne]
    split_ifs with hs
    · refine .inr (.inr ⟨_, rfl, ?_, rfl⟩)
      simp only [weight, List.length_drop]
      omega
    · exact .inr (.inl ⟨rfl, rfl⟩)

private theorem run_of_exit (l : DigestLoop) (da : HttpMap Bytes Bytes)
    (h : l.exit = some da) : l.run = .ok da := by
  obtain ⟨state, auth, m⟩ := l
  simp only [exit] at h
  split_ifs at h with hnil
  obtain rfl := Option.some.inj h
  subst hnil
  cases state with
  | name => simp [run, digestFields_eq, scanName]
  | value key => simp [run, runValue]
  | separator => simp [run, runSeparator]

/-- The loop ends with a map just when `digestFields` returns it. -/
theorem ends_ok_iff (auth : Bytes) (da da' : HttpMap Bytes Bytes) :
    Ends ⟨.name, auth, da⟩ (.ok da') ↔ digestFields auth da = .ok da' :=
  Loop.ends_ok_iff run_of_exit turn_cases ⟨.name, auth, da⟩ da'

end DigestLoop

/-- A pair of the credentials as the loop reads it, with or without each of the quotes
around its value. -/
structure DigestField where
  name : Bytes
  value : Bytes
  opening : Bool
  closing : Bool
  name_free : '='.toUInt8 ∉ name
  value_free : '"'.toUInt8 ∉ value ∧ ','.toUInt8 ∉ value
  fits : name.length + value.length ≤ 128

namespace DigestField

def quote (present : Bool) : Bytes := if present then ascii "\"" else []

/-- What stands behind the `=`. -/
def valueText (f : DigestField) : Bytes := quote f.opening ++ (f.value ++ quote f.closing)

def text (f : DigestField) : Bytes := f.name ++ (ascii "=" ++ f.valueText)

end DigestField

/-- Credentials of fields separated by `", "`, where a name without a value may stand
behind the last separator. -/
inductive DigestText : Bytes → Prop
  | name {n : Bytes} : '='.toUInt8 ∉ n → n.length ≤ 128 → DigestText n
  | last (f : DigestField) : DigestText f.text
  | cons (f : DigestField) {t : Bytes} : DigestText t → DigestText (f.text ++ (ascii ", " ++ t))

theorem scanName_append {key n rest : Bytes} (hn : '='.toUInt8 ∉ n)
    (hk : key.length + n.length ≤ 128) :
    scanName key (n ++ (ascii "=" ++ rest)) = .ok (key ++ n, some rest) := by
  induction n generalizing key with
  | nil =>
    rw [List.nil_append, List.append_nil]
    change scanName key ('='.toUInt8 :: rest) = _
    rw [scanName, if_pos rfl]
  | cons c n ih =>
    rw [List.mem_cons, not_or] at hn
    rw [List.length_cons] at hk
    rw [List.cons_append, scanName, if_neg (Ne.symm hn.1), if_pos (by omega),
      ih hn.2 (by rw [List.length_append, List.length_singleton]; omega), List.append_assoc]
    rfl

theorem scanName_none {key n : Bytes} (hn : '='.toUInt8 ∉ n) (hk : key.length + n.length ≤ 128) :
    scanName key n = .ok (key ++ n, none) := by
  induction n generalizing key with
  | nil => simp [scanName]
  | cons c n ih =>
    rw [List.mem_cons, not_or] at hn
    rw [List.length_cons] at hk
    rw [scanName, if_neg (Ne.symm hn.1), if_pos (by omega),
      ih hn.2 (by rw [List.length_append, List.length_singleton]; omega), List.append_assoc]
    rfl

/-- What the name scan has read. -/
theorem scanName_cases {key text name : Bytes} {rest : Option Bytes} (hk : key.length ≤ 128)
    (h : scanName key text = .ok (name, rest)) :
    ∃ n, name = key ++ n ∧ '='.toUInt8 ∉ n ∧ name.length ≤ 128 ∧
      text = n ++ (rest.map (ascii "=" ++ ·)).getD [] := by
  induction text generalizing key with
  | nil =>
    cases h
    exact ⟨[], by simp, List.not_mem_nil, hk, rfl⟩
  | cons c text ih =>
    rw [scanName] at h
    split_ifs at h with hc hlt
    · cases h
      subst hc
      exact ⟨[], by simp, List.not_mem_nil, hk, rfl⟩
    · have hk' : (key ++ [c]).length ≤ 128 := by
        rw [List.length_append, List.length_singleton]
        omega
      obtain ⟨n, rfl, hn, hl, ht⟩ := ih hk' h
      refine ⟨c :: n, by simp, ?_, hl, by rw [ht, List.cons_append]⟩
      rw [List.mem_cons, not_or]
      exact ⟨Ne.symm hc, hn⟩

/-- A value ends at the end of the text, at a comma or behind a quote. -/
theorem scanValue_append {k : ℕ} {value v rest : Bytes} (hq : '"'.toUInt8 ∉ v)
    (hc : ','.toUInt8 ∉ v) (hk : k + value.length + v.length ≤ 128) :
    scanValue k value (v ++ rest) = scanValue k (value ++ v) rest := by
  induction v generalizing value with
  | nil => simp
  | cons c v ih =>
    rw [List.mem_cons, not_or] at hq hc
    rw [List.length_cons] at hk
    rw [List.cons_append, scanValue, if_neg (Ne.symm hc.1), if_neg (Ne.symm hq.1),
      if_pos (by omega), ih hq.2 hc.2 (by rw [List.length_append, List.length_singleton]; omega),
      List.append_assoc]
    rfl

theorem scanValue_cases {k : ℕ} {value text value' rest : Bytes} (hk : k + value.length ≤ 128)
    (h : scanValue k value text = .ok (value', rest)) :
    ∃ v closing, value' = value ++ v ∧ '"'.toUInt8 ∉ v ∧ ','.toUInt8 ∉ v ∧
      k + value'.length ≤ 128 ∧ text = v ++ (DigestField.quote closing ++ rest) := by
  induction text generalizing value with
  | nil =>
    cases h
    exact ⟨[], false, by simp, List.not_mem_nil, List.not_mem_nil, hk, rfl⟩
  | cons c text ih =>
    rw [scanValue] at h
    split_ifs at h with hc hq hlt
    · cases h
      exact ⟨[], false, by simp, List.not_mem_nil, List.not_mem_nil, hk, rfl⟩
    · cases h
      subst hq
      exact ⟨[], true, by simp, List.not_mem_nil, List.not_mem_nil, hk, rfl⟩
    · have hk' : k + (value ++ [c]).length ≤ 128 := by
        rw [List.length_append, List.length_singleton]
        omega
      obtain ⟨v, closing, rfl, hvq, hvc, hl, ht⟩ := ih hk' h
      refine ⟨c :: v, closing, by simp, ?_, ?_, hl, by rw [ht, List.cons_append]⟩
      · rw [List.mem_cons, not_or]
        exact ⟨Ne.symm hq, hvq⟩
      · rw [List.mem_cons, not_or]
        exact ⟨Ne.symm hc, hvc⟩

theorem skipQuote_eq (text : Bytes) :
    ∃ opening, text = DigestField.quote opening ++ skipQuote text := by
  unfold skipQuote
  split_ifs with h
  · obtain ⟨t, rfl⟩ := h
    exact ⟨true, rfl⟩
  · exact ⟨false, rfl⟩

theorem skipQuote_of_ne {c : UInt8} (hc : c ≠ '"'.toUInt8) (text : Bytes) :
    skipQuote (c :: text) = c :: text := by
  refine if_neg fun hp ↦ hc ?_
  exact (List.cons_prefix_cons.mp hp).1.symm

/-- What may follow a field: nothing, or the separator with its comma. -/
def FieldEnd (rest : Bytes) : Prop := rest = [] ∨ ∃ t, rest = ','.toUInt8 :: t

theorem FieldEnd.scanValue_eq {rest : Bytes} (hr : FieldEnd rest) (k : ℕ) (value : Bytes) :
    scanValue k value rest = .ok (value, rest) := by
  rcases hr with rfl | ⟨t, rfl⟩
  · rfl
  · rw [scanValue, if_pos rfl]

theorem FieldEnd.skipQuote_eq {rest : Bytes} (hr : FieldEnd rest) : skipQuote rest = rest := by
  rcases hr with rfl | ⟨t, rfl⟩
  · exact if_neg (by decide)
  · exact skipQuote_of_ne (by decide) t

theorem scanValue_quote (k : ℕ) (value rest : Bytes) :
    scanValue k value (ascii "\"" ++ rest) = .ok (value, rest) := by
  change scanValue k value ('"'.toUInt8 :: rest) = _
  rw [scanValue, if_neg (by decide), if_pos rfl]

/-- The scan lands behind the text of a value, whichever quotes it has. -/
theorem scanValue_valueText (f : DigestField) {rest : Bytes} (hr : FieldEnd rest) :
    scanValue f.name.length [] (skipQuote (f.valueText ++ rest)) = .ok (f.value, rest) := by
  obtain ⟨name, value, opening, closing, hn, ⟨hq, hc⟩, hfit⟩ := f
  have hclose : scanValue name.length value (DigestField.quote closing ++ rest) =
      .ok (value, rest) := by
    cases closing with
    | true => exact scanValue_quote _ _ _
    | false => exact hr.scanValue_eq _ _
  have hscan : scanValue name.length [] (value ++ (DigestField.quote closing ++ rest)) =
      .ok (value, rest) := by
    rw [scanValue_append hq hc (by simpa using hfit), List.nil_append, hclose]
  simp only [DigestField.valueText, List.append_assoc]
  cases opening with
  | true =>
    have hskip : skipQuote (ascii "\"" ++ (value ++ (DigestField.quote closing ++ rest))) =
        value ++ (DigestField.quote closing ++ rest) := if_pos (List.prefix_append _ _)
    exact (congrArg _ hskip).trans hscan
  | false =>
    cases value with
    | cons c value =>
      have hne : c ≠ '"'.toUInt8 := fun h ↦ hq (h ▸ .head value)
      exact (congrArg _ (skipQuote_of_ne hne _)).trans hscan
    | nil =>
      -- a closing quote alone is taken for the opening one
      cases closing with
      | true =>
        have hskip : skipQuote (ascii "\"" ++ rest) = rest := if_pos (List.prefix_append _ _)
        exact (congrArg _ hskip).trans (hr.scanValue_eq _ _)
      | false => exact (congrArg _ hr.skipQuote_eq).trans (hr.scanValue_eq _ _)

theorem digestFields_text (f : DigestField) {rest : Bytes} (hr : FieldEnd rest)
    (da : HttpMap Bytes Bytes) :
    digestFields (f.text ++ rest) da =
      if f.valueText ++ rest = [] then .ok da
      else DigestLoop.runSeparator rest (da.add f.name f.value) := by
  have hname : scanName [] (f.text ++ rest) = .ok (f.name, some (f.valueText ++ rest)) := by
    have hlen : ([] : Bytes).length + f.name.length ≤ 128 := by
      have := f.fits
      rw [List.length_nil]
      omega
    rw [DigestField.text, List.append_assoc, List.append_assoc, scanName_append f.name_free hlen]
    rfl
  rw [DigestLoop.digestFields_eq, hname]
  simp only [DigestLoop.runValue]
  split_ifs
  · rfl
  · rw [scanValue_valueText f hr]

theorem digestFields_cons (f : DigestField) (t : Bytes) (da : HttpMap Bytes Bytes) :
    digestFields (f.text ++ (ascii ", " ++ t)) da = digestFields t (da.add f.name f.value) := by
  have hne : f.valueText ++ (ascii ", " ++ t) ≠ [] := by simp [ascii]
  have hp : ascii ", " <+: ascii ", " ++ t := List.prefix_append _ t
  have hend : FieldEnd (ascii ", " ++ t) := .inr ⟨_, rfl⟩
  rw [digestFields_text f hend, if_neg hne, DigestLoop.runSeparator,
    if_neg (by simp [ascii]), if_pos hp]
  rfl

theorem digestFields_last (f : DigestField) (da : HttpMap Bytes Bytes) :
    digestFields f.text da = .ok (if f.valueText = [] then da else da.add f.name f.value) := by
  have h := digestFields_text f (.inl rfl) da
  rw [List.append_nil, List.append_nil] at h
  rw [h, DigestLoop.runSeparator, if_pos rfl]
  split_ifs
  · rfl
  · rfl

/-- What the two scans have read is a field. -/
theorem exists_field {auth name value rest rest' : Bytes}
    (hn : scanName [] auth = .ok (name, some rest))
    (hv : scanValue name.length [] (skipQuote rest) = .ok (value, rest')) :
    ∃ f : DigestField, f.name = name ∧ f.value = value ∧ auth = f.text ++ rest' := by
  obtain ⟨n, rfl, hfree, hlen, rfl⟩ := scanName_cases (Nat.zero_le _) hn
  obtain ⟨opening, hopen⟩ := skipQuote_eq rest
  obtain ⟨v, closing, rfl, hvq, hvc, hfit, hv'⟩ := scanValue_cases (by simpa using hlen) hv
  refine ⟨⟨_, _, opening, closing, hfree, ⟨hvq, hvc⟩, hfit⟩, rfl, rfl, ?_⟩
  simp [DigestField.text, DigestField.valueText, hopen.trans (congrArg _ hv')]

/-- The digest loop reads the credentials of this form and no others. -/
theorem digestFields_ok_iff (auth : Bytes) (da : HttpMap Bytes Bytes) :
    (∃ da', digestFields auth da = .ok da') ↔ DigestText auth := by
  constructor
  · intro h
    obtain ⟨da', h⟩ := h
    induction hl : auth.length using Nat.strong_induction_on generalizing auth da with
    | _ n ih =>
      subst hl
      rw [DigestLoop.digestFields_eq] at h
      split at h
      · cases h
      · rename_i name hn
        obtain ⟨n, rfl, hfree, hlen, ht⟩ := scanName_cases (Nat.zero_le _) hn
        rw [ht, Option.map_none, Option.getD_none, List.append_nil]
        exact .name hfree hlen
      · rename_i name rest hn
        simp only [DigestLoop.runValue] at h
        split_ifs at h with hnil
        · obtain ⟨n, rfl, hfree, hlen, rfl⟩ := scanName_cases (Nat.zero_le _) hn
          subst hnil
          exact .last ⟨_, [], false, false, hfree, by simp, by simpa using hlen⟩
        · split at h
          · cases h
          · rename_i value rest' hv
            obtain ⟨f, -, -, rfl⟩ := exists_field hn hv
            rw [DigestLoop.runSeparator] at h
            split_ifs at h with hend hsep
            · rw [hend, List.append_nil]
              exact .last f
            · obtain ⟨t, rfl⟩ := hsep
              refine .cons f (ih t.length ?_ t _ h rfl)
              have h2 : (ascii ", ").length = 2 := rfl
              simp only [List.length_append, h2]
              omega
  · intro h
    induction h generalizing da with
    | name hn hl =>
      rw [DigestLoop.digestFields_eq, scanName_none hn (by simpa using hl)]
      exact ⟨da, rfl⟩
    | last f => exact ⟨_, digestFields_last f da⟩
    | cons f _ ih =>
      rw [digestFields_cons]
      exact ih _

/-- On the value of an `Authorization` header the digest loop ends, inside its array,
just when its credentials are fields separated by `", "`. -/
theorem digest_loop_ends_iff (auth : Bytes) (da : HttpMap Bytes Bytes) :
    (∃ da', DigestLoop.Ends (.start (ascii "Digest " ++ auth) da) (.ok da')) ↔
      DigestText auth := by
  have hdrop : (ascii "Digest " ++ auth).drop 7 = auth :=
    @List.drop_left _ (ascii "Digest ") auth
  simp only [DigestLoop.start, hdrop, DigestLoop.ends_ok_iff]
  exact digestFields_ok_iff auth da

/-- A comma without a space behind it is never left. -/
theorem digest_loop_spins : ¬ ∃ r, DigestLoop.Ends (.start (ascii "Digest a=b,c") ∅) r := by
  let value : DigestLoop := ⟨.value (ascii "a"), ascii "b,c", ∅⟩
  let separator : DigestLoop := ⟨.separator, ascii ",c", HttpMap.add ∅ (ascii "a") (ascii "b")⟩
  have hname : DigestLoop.turn (.start (ascii "Digest a=b,c") ∅) = .ok value := rfl
  have hvalue : DigestLoop.turn value = .ok separator := rfl
  have hspin : DigestLoop.turn separator = .ok separator := rfl
  have hx : DigestLoop.exit separator = none := rfl
  intro h
  obtain ⟨r, h⟩ := h
  have h := (Loop.ends_next_iff rfl hname).mp h
  exact Loop.not_ends_of_spin hx hspin r ((Loop.ends_next_iff rfl hvalue).mp h)

/-- A pair of digest credentials, as `name="value"` or `name=value`. -/
structure Credential where
  name : Bytes
  value : Bytes
  quoted : Bool
  name_free : '='.toUInt8 ∉ name
  value_free : '"'.toUInt8 ∉ value ∧ ','.toUInt8 ∉ value
  fits : name.length + value.length ≤ 128
  bare : quoted = false → value ≠ []

namespace Credential

def field (c : Credential) : DigestField :=
  ⟨c.name, c.value, c.quoted, c.quoted, c.name_free, c.value_free, c.fits⟩

def render : List Credential → Bytes
  | [] => []
  | [c] => c.field.text
  | c :: d :: cs => c.field.text ++ (ascii ", " ++ render (d :: cs))

/-- The last value given to a name. -/
def lastValue (cs : List Credential) (name : Bytes) : Option Bytes :=
  (cs.reverse.find? (·.name = name)).map (·.value)

theorem valueText_ne_nil (c : Credential) : c.field.valueText ≠ [] := by
  obtain ⟨name, value, quoted, -, -, -, hbare⟩ := c
  cases quoted with
  | true => exact List.cons_ne_nil _ _
  | false =>
    intro h
    exact hbare rfl (List.append_eq_nil_iff.mp (List.append_eq_nil_iff.mp h).2).1

theorem digestFields_render (cs : List Credential) (da : HttpMap Bytes Bytes) :
    digestFields (render cs) da = .ok (cs.foldl (fun da c ↦ da.add c.name c.value) da) := by
  induction cs using render.induct generalizing da with
  | case1 =>
    rw [render, DigestLoop.digestFields_eq]
    rfl
  | case2 c =>
    rw [render, digestFields_last, if_neg c.valueText_ne_nil]
    rfl
  | case3 c d cs ih =>
    rw [render, digestFields_cons, ih]
    rfl

theorem foldl_add_get (cs : List Credential) (name : Bytes) :
    (cs.foldl (fun da c ↦ da.add c.name c.value) (∅ : HttpMap Bytes Bytes)).get name =
      lastValue cs name := by
  induction cs using List.reverseRecOn with
  | nil => rfl
  | append_singleton cs c ih =>
    rw [List.foldl_append, List.foldl_cons, List.foldl_nil, lastValue, List.reverse_append,
      List.reverse_singleton, List.singleton_append, List.find?_cons]
    by_cases h : c.name = name
    · subst h
      rw [HttpMap.get_add_self]
      simp
    · rw [HttpMap.get_add_of_ne _ _ (Ne.symm h), ih]
      simp [lastValue, h]

end Credential

/-- The credentials that a client renders are read back: the loop ends with the last
value of each name, and `da_` is that map with the name of the method added. -/
theorem parseAuthorization_render (store : HttpPassStore) (r : HttpRequest) (cs : List Credential)
    {method : HttpMethod} (hm : r.method = some method) (hda : r.da = ∅)
    (hx : r.header.get (ascii "Authorization") = some (ascii "Digest " ++ Credential.render cs)) :
    ∃ da : HttpMap Bytes Bytes,
      DigestLoop.Ends (.start (ascii "Digest " ++ Credential.render cs) r.da) (.ok da) ∧
      (∀ name, da.get name = Credential.lastValue cs name) ∧
      (∀ name, (da.add (ascii "method") method.text).get name =
        if name = ascii "method" then some method.text else Credential.lastValue cs name) ∧
      r.parseAuthorization store = (do
        let auth ← HttpAuth.httpDigestAuth store (ascii "Digest " ++ Credential.render cs)
          (da.add (ascii "method") method.text)
        .ok { r with da := da.add (ascii "method") method.text, auth := some auth }) := by
  let x : Bytes := ascii "Digest " ++ Credential.render cs
  let da : HttpMap Bytes Bytes := cs.foldl (fun da c ↦ da.add c.name c.value) ∅
  have hdrop : x.drop 7 = Credential.render cs := @List.drop_left _ (ascii "Digest ") _
  have hget (name : Bytes) : da.get name = Credential.lastValue cs name :=
    Credential.foldl_add_get cs name
  have hrun : digestFields (x.drop 7) r.da = .ok da := by
    rw [hdrop, hda]
    exact Credential.digestFields_render cs ∅
  refine ⟨da, (DigestLoop.ends_ok_iff _ _ _).mpr hrun, hget, fun name ↦ ?_, ?_⟩
  · split_ifs with h
    · rw [h, HttpMap.get_add_self]
    · rw [HttpMap.get_add_of_ne _ _ h, hget]
  · have hbasic : ¬ ascii "Basic" <+: x := by
      intro hp
      have h := List.prefix_of_prefix_length_le hp (List.prefix_append (ascii "Digest ") _)
        (by decide)
      exact absurd h (by decide)
    have hdigest : ascii "Digest" <+: x := ⟨ascii " " ++ Credential.render cs, rfl⟩
    have hlen : 7 ≤ x.length := by
      rw [List.length_append]
      exact Nat.le_add_right 7 _
    rw [parseAuthorization, hx]
    simp only [show ascii "Digest " ++ Credential.render cs = x from rfl, if_neg hbasic,
      if_pos hdigest, removePrefix_of_le hlen, bind, Except.bind, hrun, hm, Option.map_some,
      Option.getD_some]

theorem parseAuthorization_render_two :
    ∃ da : HttpMap Bytes Bytes,
      DigestLoop.Ends (.start (ascii "Digest method=\"a\", b=2, b=3") ∅) (.ok da) ∧
      da.get (ascii "method") = some (ascii "a") ∧ da.get (ascii "b") = some (ascii "3") ∧
      (da.add (ascii "method") (ascii "GET")).get (ascii "method") = some (ascii "GET") := by
  let store : HttpPassStore := ⟨id, [], ∅⟩
  let cs : List Credential :=
    [⟨ascii "method", ascii "a", true, by decide, by decide, by decide, nofun⟩,
      ⟨ascii "b", ascii "2", false, by decide, by decide, by decide, by decide⟩,
      ⟨ascii "b", ascii "3", false, by decide, by decide, by decide, by decide⟩]
  let header : HttpHeader := HttpHeader.add Multimap.empty (ascii "Authorization")
    (ascii "Digest " ++ Credential.render cs)
  let r : HttpRequest := { init Buffer.init with method := some .get, header }
  have hx : r.header.get (ascii "Authorization") = some (ascii "Digest " ++ Credential.render cs) :=
    HttpHeader.get_add_same _ _ (by decide)
  obtain ⟨da, hends, hget, hmethod, -⟩ := parseAuthorization_render store r cs rfl rfl hx
  exact ⟨da, hends, hget _, hget _, hmethod _⟩

/-- Up to the end of its header a request has no credentials, and behind its first line
it has a method. -/
def Unauthorized (r : HttpRequest) : Prop :=
  match r.retCode with
  | .noRequest => r.da = ∅
  | .requestLineDone | .againHeader | .requestHeaderDone => r.da = ∅ ∧ r.method.isSome
  | .badRequest | .againContent | .requestContentDone => True

theorem unauthorized_parseRequestLine {r r' : HttpRequest} (hda : r.da = ∅)
    (h : r.parseRequestLine = .ok r') : r'.Unauthorized := by
  unfold parseRequestLine at h
  split at h
  · cases h
    trivial
  · obtain ⟨line, -, h⟩ := bind_eq_ok.mp h
    split at h
    · cases h
      trivial
    · obtain ⟨line, -, h⟩ := bind_eq_ok.mp h
      split at h
      · cases h
        trivial
      · obtain ⟨-, -, h⟩ := bind_eq_ok.mp h
        cases h
        exact ⟨hda, rfl⟩

theorem unauthorized_parseRequestHeader {r r' : HttpRequest} (hr : r.da = ∅ ∧ r.method.isSome)
    (h : r.parseRequestHeader = .ok r') : r'.Unauthorized := by
  have hframe := headerLoop_frame h
  have hda : r'.da = r.da := by rw [hframe]
  have hmethod : r'.method = r.method := by rw [hframe]
  rw [← hda, ← hmethod] at hr
  rw [Unauthorized]
  rcases headerLoop_retCode h with hc | hc | hc
  · rw [hc]
    trivial
  · rw [hc]
    exact hr
  · rw [hc]
    exact hr

theorem unauthorized_parseRequestContent {r r' : HttpRequest} (h : r.parseRequestContent = .ok r') :
    r'.Unauthorized := by
  rw [Unauthorized]
  rcases parseRequestContent_retCode h with hc | hc <;> (rw [hc]; trivial)

/-- What `parseRequest` does between the header and the credentials leaves both. -/
theorem before_parseAuthorization {r r₁ r₂ r₃ : HttpRequest} (h₁ : r.parseUrlQuery = .ok r₁)
    (h₂ : r₁.connectionFlags.parseCookie = .ok r₂) (h₃ : r₂.parseMultiPartData = .ok r₃) :
    r₃.da = r.da ∧ r₃.method = r.method := by
  obtain ⟨r₁', hrun₁, hframe₁⟩ := parseUrlQuery_ok r
  cases h₁.symm.trans hrun₁
  obtain ⟨r₂', hrun₂, hframe₂⟩ := parseCookie_ok r₁.connectionFlags
  cases h₂.symm.trans hrun₂
  have hframe₃ := (parseMultiPartData_frame h₃).1
  rw [hframe₃, hframe₂, connectionFlags, hframe₁]
  exact ⟨rfl, rfl⟩

theorem unauthorized_turn {store : HttpPassStore} {r r' : HttpRequest} {code : Option RetCode}
    (hr : r.Unauthorized) (h : r.turn store = .ok (r', code)) : r'.Unauthorized := by
  unfold turn at h
  rw [Unauthorized] at hr
  cases hc : r.retCode with
  | noRequest =>
    simp only [hc] at h hr
    obtain ⟨r₁, h₁, h⟩ := bind_eq_ok.mp h
    cases h
    exact unauthorized_parseRequestLine hr h₁
  | requestLineDone | againHeader =>
    simp only [hc] at h hr
    obtain ⟨r₁, h₁, h⟩ := bind_eq_ok.mp h
    cases h
    exact unauthorized_parseRequestHeader hr h₁
  | requestHeaderDone =>
    simp only [hc] at h hr
    obtain ⟨r₁, h₁, h⟩ := bind_eq_ok.mp h
    split_ifs at h
    · obtain ⟨r₁', hrun, hframe⟩ := parseUrlQuery_ok r
      cases h₁.symm.trans hrun
      cases h
      rw [Unauthorized, hframe]
      simpa only [hc] using hr
    · obtain ⟨r₂, -, h⟩ := bind_eq_ok.mp h
      obtain ⟨r₃, -, h⟩ := bind_eq_ok.mp h
      obtain ⟨r₄, -, h⟩ := bind_eq_ok.mp h
      obtain ⟨r₅, h₅, h⟩ := bind_eq_ok.mp h
      cases h
      exact unauthorized_parseRequestContent h₅
  | againContent =>
    simp only [hc] at h
    obtain ⟨r₁, h₁, h⟩ := bind_eq_ok.mp h
    cases h
    exact unauthorized_parseRequestContent h₁
  | badRequest | requestContentDone =>
    simp only [hc] at h
    cases h
    rw [Unauthorized, hc]
    trivial

theorem unauthorized_turns {store : HttpPassStore} {r : HttpRequest} (hr : r.Unauthorized) :
    ∀ r' ∈ r.turns store, r'.Unauthorized := by
  fun_induction turns store r with
  | case1 r r₁ hturn ih =>
    intro r' hmem
    rcases List.mem_cons.mp hmem with rfl | hmem
    · exact hr
    · exact ih (unauthorized_turn hr hturn) r' hmem
  | case2 r _ =>
    intro r' hmem
    obtain rfl := List.mem_singleton.mp hmem
    exact hr

theorem unauthorized_parseRequest {store : HttpPassStore} {r r' : HttpRequest} {code : RetCode}
    (hr : r.Unauthorized) (h : r.parseRequest store = .ok (code, r')) : r'.Unauthorized := by
  fun_induction parseRequest store r with
  | case1 => cases h
  | case2 r r₁ code₁ hturn =>
    cases h
    exact unauthorized_turn hr hturn
  | case3 r r₁ hturn ih => exact ih (unauthorized_turn hr hturn) h

end Socnet.Http.HttpRequest

namespace Socnet.Http.Connection

/-- The request of a connection is new or has been kept from an earlier read event. -/
def Unauthorized (c : Connection) : Prop := ∀ r, c.context = some r → r.Unauthorized

theorem Unauthorized.request {c : Connection} (hc : c.Unauthorized) : c.request.Unauthorized := by
  unfold Connection.request
  cases hr : c.context with
  | none => exact Eq.refl (∅ : HttpMap Bytes Bytes)
  | some r => exact hc r hr

theorem unauthorized_onRead {store : HttpPassStore} {c c' : Connection} {reads : List Bytes}
    {answered : Option Answered} (hc : c.Unauthorized)
    (h : c.onRead store reads = .ok (c', answered)) : c'.Unauthorized := by
  have hread : (c.readAgain reads).Unauthorized := hc
  unfold onRead at h
  dsimp only at h
  split_ifs at h
  · cases h
    exact hread
  · obtain ⟨⟨c₁, answered₁⟩, hmessage, h⟩ := bind_eq_ok.mp h
    have hc₁ : c₁.Unauthorized := by
      obtain ⟨⟨code, r⟩, hparse, hmessage⟩ := bind_eq_ok.mp hmessage
      dsimp only at hmessage
      split_ifs at hmessage
      · cases hmessage
        intro r' hr'
        cases hr'
      · cases hmessage
        intro r' hr'
        cases hr'
        exact HttpRequest.unauthorized_parseRequest hread.request hparse
    cases h
    split_ifs
    · exact hc₁
    · exact hc₁

theorem unauthorized_turns {store : HttpPassStore} {c : Connection} (hc : c.Unauthorized)
    (events : List (List Bytes)) : ∀ r ∈ c.turns store events, r.Unauthorized := by
  induction events generalizing c with
  | nil => simp [turns]
  | cons reads events ih =>
    intro r hmem
    rw [turns] at hmem
    split_ifs at hmem
    · cases hmem
    · cases hread : c.onRead store reads with
      | error e => simp [hread] at hmem
      | ok x =>
        rw [hread] at hmem
        exact ih (unauthorized_onRead hc hread) r hmem
    · rcases List.mem_append.mp hmem with hmem | hmem
      · have hread : (c.readAgain reads).Unauthorized := hc
        exact HttpRequest.unauthorized_turns hread.request r hmem
      · cases hread : c.onRead store reads with
        | error e => simp [hread] at hmem
        | ok x =>
          rw [hread] at hmem
          exact ih (unauthorized_onRead hc hread) r hmem

/-- In every run of a connection the parser comes to the credentials with `da_` empty and
the method known. -/
theorem da_of_turns {store : HttpPassStore} {events : List (List Bytes)}
    {r r₁ r₂ r₃ : HttpRequest} (hr : r ∈ accepted.turns store events)
    (hc : r.retCode = .requestHeaderDone) (h₁ : r.parseUrlQuery = .ok r₁)
    (h₂ : r₁.connectionFlags.parseCookie = .ok r₂) (h₃ : r₂.parseMultiPartData = .ok r₃) :
    r₃.da = ∅ ∧ r₃.method.isSome := by
  have hnew : accepted.Unauthorized := by
    intro r hr
    cases hr
  have hun := unauthorized_turns hnew events r hr
  rw [HttpRequest.Unauthorized, hc] at hun
  obtain ⟨hda, hmethod⟩ := HttpRequest.before_parseAuthorization h₁ h₂ h₃
  rwa [hda, hmethod]

end Socnet.Http.Connection
