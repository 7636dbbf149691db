import Socnet.Http.HttpRequest
import Socnet.Http.KeyValueRoundTrip
import Socnet.Utility.Base64
import Socnet.Utility.FileUtil

namespace Socnet.Http

open Lib.Sequence Utility Utility.EncodeUtil Utility.FileUtil

namespace HttpPassStore

/-- Both sides of the first colon; without one `npos + 1` wraps to zero. -/
def splitColon (line : Bytes) : Bytes × Bytes :=
  match find (ascii ":") line with
  | none => (line, line)
  | some pos => (line.take pos, line.drop (pos + 1))

/-- The constructor's loop over the user and password file. -/
def ofFile (md5 : Bytes → Bytes) (realm : Bytes) (loader : Option FileUtil) : HttpPassStore where
  md5 := md5
  realm := realm
  userPass := match loader with
    | none => ∅
    | some loader => loader.readLines.foldl
        (fun userPass line ↦ userPass.add (splitColon line).1 (splitColon line).2) ∅

theorem splitColon_append {user : Bytes} (h : ':'.toUInt8 ∉ user) (pass : Bytes) :
    splitColon (user ++ ascii ":" ++ pass) = (user, pass) := by
  have hfind : find (ascii ":") (user ++ ascii ":" ++ pass) = some user.length := by
    rw [List.append_assoc]
    exact find_singleton h pass
  have hlen : user.length + 1 = (user ++ ascii ":").length := by
    rw [List.length_append]
    rfl
  rw [splitColon, hfind]
  dsimp only
  rw [hlen, List.drop_left, List.append_assoc, List.take_left]

/-- The records that the constructor reads from a file of these lines. -/
def records (lines : List Bytes) (last : Bytes) : List (Bytes × Bytes) :=
  ((lines.flatMap pieces ++ (pieces last).filter (· ≠ [])).map cut).map splitColon

theorem get_ofFile {lines : List Bytes} {last : Bytes} (h : ∀ line ∈ lines, LF ∉ line)
    (hlast : LF ∉ last) (md5 : Bytes → Bytes) (realm user : Bytes) :
    (ofFile md5 realm
      (some (FileUtil.load (lines.flatMap (· ++ [LF]) ++ last)))).userPass.get user =
        HttpMap.lastValue (records lines last) user := by
  rw [records, ← readLines_load h hlast, ← HttpMap.get_foldl_add, List.foldl_map]
  rfl

end HttpPassStore

namespace HttpRequest

open HttpPassStore

theorem parseAuthorization_basic (store : HttpPassStore) (r : HttpRequest) {text : Bytes}
    (hx : r.header.get (ascii "Authorization") = some (ascii "Basic " ++ base64Encode text)) :
    r.parseAuthorization store = .ok { r with
      auth := some (HttpAuth.httpBasicAuth store (splitColon text).1 (splitColon text).2) } := by
  have hbasic : ascii "Basic" <+: ascii "Basic " ++ base64Encode text :=
    ⟨ascii " " ++ base64Encode text, rfl⟩
  have hlen : 6 ≤ (ascii "Basic " ++ base64Encode text).length := by
    rw [List.length_append]
    exact Nat.le_add_right 6 _
  have hdrop : (ascii "Basic " ++ base64Encode text).drop 6 = base64Encode text :=
    @List.drop_left _ (ascii "Basic ") _
  rw [parseAuthorization, hx, splitColon]
  cases hfind : find (ascii ":") text with
  | none =>
    simp only [if_pos hbasic, removePrefix_of_le hlen, hdrop, base64Decode_base64Encode, hfind,
      bind, Except.bind]
  | some pos =>
    simp only [if_pos hbasic, removePrefix_of_le hlen, hdrop, base64Decode_base64Encode, hfind,
      bind, Except.bind]

/-- A client that sends its name and password is let in just when the digest of both in
the realm starts the hash of the last record that the password file has for the name. -/
theorem parseAuthorization_login (md5 : Bytes → Bytes) (realm : Bytes) {lines : List Bytes}
    {last : Bytes} (hlines : ∀ line ∈ lines, LF ∉ line) (hlast : LF ∉ last) (r : HttpRequest)
    {user : Bytes} (huser : ':'.toUInt8 ∉ user) (pass : Bytes)
    (hx : r.header.get (ascii "Authorization") =
      some (ascii "Basic " ++ base64Encode (user ++ ascii ":" ++ pass))) :
    ∃ verified, r.parseAuthorization
        (ofFile md5 realm (some (FileUtil.load (lines.flatMap (· ++ [LF]) ++ last)))) =
          .ok { r with auth := some (.basic user pass verified) } ∧
      (verified ↔ ∃ hash, HttpMap.lastValue (records lines last) user = some hash ∧
        md5 (user ++ ascii ":" ++ realm ++ ascii ":" ++ pass) <+: hash) := by
  let store := ofFile md5 realm (some (FileUtil.load (lines.flatMap (· ++ [LF]) ++ last)))
  have hget : store.userPass.get user = HttpMap.lastValue (records lines last) user :=
    get_ofFile hlines hlast md5 realm user
  have hauth := parseAuthorization_basic store r hx
  rw [splitColon_append huser, HttpAuth.httpBasicAuth, hget] at hauth
  cases hval : HttpMap.lastValue (records lines last) user with
  | none =>
    rw [hval] at hauth
    refine ⟨false, hauth, ?_⟩
    simp
  | some hash =>
    rw [hval] at hauth
    refine ⟨_, hauth, ?_⟩
    rw [HttpAuth.md5HashEqual, decide_eq_true_iff, ← List.prefix_iff_eq_take]
    constructor
    · exact fun h ↦ ⟨hash, rfl, h⟩
    · rintro ⟨hash', heq, h⟩
      obtain rfl := Option.some.inj heq
      exact h

/-- The record in front of the last one is of an older password. -/
theorem parseAuthorization_login_ann :
    let md5 (s : Bytes) : Bytes :=
      if s = ascii "ann:home:new" then ascii "027f60bcccefe32bcc0eb4121969c941"
      else ascii "203b4394a2f616a5656429293b228540"
    let file : Bytes := [ascii "ann:203b4394a2f616a5656429293b228540"].flatMap (· ++ [LF]) ++
      ascii "ann:027f60bcccefe32bcc0eb4121969c941"
    let header : HttpHeader := HttpHeader.add Lib.Multimap.empty (ascii "Authorization")
      (ascii "Basic " ++ base64Encode (ascii "ann" ++ ascii ":" ++ ascii "new"))
    let r : HttpRequest := { init Net.Buffer.init with header }
    r.parseAuthorization (ofFile md5 (ascii "home") (some (FileUtil.load file))) =
      .ok { r with auth := some (.basic (ascii "ann") (ascii "new") true) } := by
  intro md5 file header r
  have hx : r.header.get (ascii "Authorization") =
      some (ascii "Basic " ++ base64Encode (ascii "ann" ++ ascii ":" ++ ascii "new")) :=
    HttpHeader.get_add_same _ _ (by decide)
  let lines : List Bytes := [ascii "ann:203b4394a2f616a5656429293b228540"]
  have hlines : ∀ line ∈ lines, LF ∉ line := by decide
  have hlast : LF ∉ ascii "ann:027f60bcccefe32bcc0eb4121969c941" := by decide
  obtain ⟨verified, hr, hiff⟩ := parseAuthorization_login md5 (ascii "home") hlines hlast r
    (by decide) (ascii "new") hx
  have hrecords : records lines (ascii "ann:027f60bcccefe32bcc0eb4121969c941") =
      [(ascii "ann", ascii "203b4394a2f616a5656429293b228540"),
        (ascii "ann", ascii "027f60bcccefe32bcc0eb4121969c941")] := by
    rw [records, List.flatMap_cons, pieces_of_lt (by decide), pieces_of_lt (by decide)]
    decide
  have hverified : verified = true := by
    refine hiff.mpr ⟨ascii "027f60bcccefe32bcc0eb4121969c941", ?_, ?_⟩
    · rw [hrecords]
      decide
    · decide
  rw [hverified] at hr
  exact hr

end HttpRequest

end Socnet.Http
