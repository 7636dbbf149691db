import Socnet.Http.HttpResponse
import Socnet.Http.HttpService

namespace Socnet.Http

open Lib.Sequence

structure HttpCookie where
  map : HttpMap Bytes Bytes
  expires : Bytes
  domain : Bytes
  path : Bytes
  maxAge : Int32
  secure : Bool
  httpOnly : Bool

namespace HttpCookie

def init : HttpCookie := ⟨∅, [], [], [], 0, false, false⟩

def add (c : HttpCookie) (key value : Bytes) : HttpCookie := { c with map := c.map.add key value }

def setPath (c : HttpCookie) (path : Bytes) : HttpCookie := { c with path }

def attributes (c : HttpCookie) : Bytes :=
  (if c.expires ≠ [] then ascii "; Expires=" ++ c.expires else []) ++
  (if c.domain ≠ [] then ascii "; Domain=" ++ c.domain else []) ++
  (if c.path ≠ [] then ascii "; Path=" ++ c.path else []) ++
  (if 0 < c.maxAge then ascii "; Max-Age=" ++ toDecimal c.maxAge.toInt.toNat else []) ++
  (if c.secure then ascii "; Secure" else []) ++
  (if c.httpOnly then ascii "; HttpOnly" else [])

def pairText (e : (_ : Bytes) × Bytes) : Bytes := e.1 ++ ascii "=" ++ e.2

def toString (c : HttpCookie) : Bytes :=
  (ascii "; ").intercalate (c.map.entries.map pairText) ++ c.attributes

/-- The name and the value that a client reads from a `Set-Cookie`. -/
def clientPair (value : Bytes) : Option (Bytes × Bytes) :=
  let pair := value.takeWhile (· ≠ ';'.toUInt8)
  (find (ascii "=") pair).map fun n ↦ (pair.take n, pair.drop (n + 1))

theorem attributes_cases (c : HttpCookie) :
    c.attributes = [] ∨ ∃ t, c.attributes = ';'.toUInt8 :: t := by
  have hpart {p : Prop} [Decidable p] {s t t' : Bytes} (h : t = ';'.toUInt8 :: t')
      (hs : s = [] ∨ ∃ u, s = ';'.toUInt8 :: u) :
      s ++ (if p then t else []) = [] ∨ ∃ u, s ++ (if p then t else []) = ';'.toUInt8 :: u := by
    rcases hs with rfl | ⟨u, rfl⟩
    · split_ifs
      · exact .inr ⟨t', h⟩
      · exact .inl rfl
    · exact .inr ⟨_, List.cons_append⟩
  rw [attributes]
  refine hpart rfl (hpart rfl (hpart rfl (hpart rfl (hpart rfl ?_))))
  split_ifs
  · exact .inr ⟨_, rfl⟩
  · exact .inl rfl

/-- A client takes the first pair of a cookie, whatever follows it. -/
theorem clientPair_toString {c : HttpCookie} {e : (_ : Bytes) × Bytes}
    {rest : List ((_ : Bytes) × Bytes)} (hc : c.map.entries = e :: rest)
    (hkey : ';'.toUInt8 ∉ e.1 ∧ '='.toUInt8 ∉ e.1) (hvalue : ';'.toUInt8 ∉ e.2) :
    clientPair c.toString = some (e.1, e.2) := by
  have hpair : ';'.toUInt8 ∉ pairText e := by
    rw [pairText, List.append_assoc, List.mem_append, not_or, List.mem_append, not_or]
    exact ⟨hkey.1, by decide, hvalue⟩
  have hend {t : Bytes} (ht : t = [] ∨ ∃ u, t = ';'.toUInt8 :: u) :
      (pairText e ++ t).takeWhile (· ≠ ';'.toUInt8) = pairText e := by
    have hall : ∀ x ∈ pairText e, decide (x ≠ ';'.toUInt8) = true :=
      fun x hx ↦ decide_eq_true fun h : x = _ ↦ hpair (h ▸ hx)
    rw [List.takeWhile_append_of_pos hall]
    rcases ht with rfl | ⟨u, rfl⟩
    · simp
    · simp
  have htake : c.toString.takeWhile (· ≠ ';'.toUInt8) = pairText e := by
    rw [toString, hc, List.map_cons]
    cases rest with
    | nil =>
      rw [List.map_nil, List.intercalate_singleton]
      exact hend c.attributes_cases
    | cons e' rest =>
      rw [List.map_cons, List.intercalate_cons_cons, List.append_assoc, List.append_assoc]
      exact hend (.inr ⟨_, rfl⟩)
  have hfind : find (ascii "=") (pairText e) = some e.1.length := by
    rw [pairText, List.append_assoc]
    exact find_singleton hkey.2 e.2
  have hlen : e.1.length + 1 = (e.1 ++ ascii "=").length := by
    rw [List.length_append]
    rfl
  rw [clientPair, htake, hfind, Option.map_some, hlen, pairText, List.drop_left,
    List.append_assoc, List.take_left]

/-- `Set-Cookie` of a new session is a cookie for all paths. -/
theorem associateRequestSession_new (o : HttpSession) (h : o.status = .new) (resp : HttpResponse) :
    HttpRouter.associateRequestSession (some o) resp = resp.setHeader (ascii "Set-Cookie")
      ((init.add (ascii "SESSIONID") o.id).setPath (ascii "/")).toString := by
  rw [HttpRouter.associateRequestSession]
  simp only [h, if_true]
  have hentries : ((∅ : HttpMap Bytes Bytes).add (ascii "SESSIONID") o.id).entries =
      [⟨ascii "SESSIONID", o.id⟩] := rfl
  have htext : ((init.add (ascii "SESSIONID") o.id).setPath (ascii "/")).toString =
      ascii "SESSIONID" ++ ascii "=" ++ o.id ++ ascii "; Path=/" := by
    rw [toString, setPath, add, init, hentries, List.map_singleton, List.intercalate_singleton]
    rfl
  rw [htext]
  rfl

end HttpCookie

end Socnet.Http
