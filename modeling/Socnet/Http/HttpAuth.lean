import Socnet.Http.HttpMap

namespace Socnet.Http

/-- What authentication reads from outside the request: the MD5 digest of
OpenSSL in lower-case hexadecimal and the user and password file. -/
structure HttpPassStore where
  md5 : Bytes → Bytes
  realm : Bytes
  userPass : HttpMap Bytes Bytes

inductive HttpAuth
  | basic (user pass : Bytes) (verified : Bool)
  | digest (digestInfo : Bytes) (verified : Bool)

namespace HttpAuth

variable (store : HttpPassStore)

def cstr (s : Bytes) : Bytes := s.takeWhile (· ≠ 0)

/-- The comparison covers the 32 bytes of the digest; the NUL behind a shorter
text differs from every hexadecimal digit. -/
def md5HashEqual (data hashv : Bytes) : Bool :=
  store.md5 data = hashv.take (store.md5 data).length

def httpBasicAuth (user pass : Bytes) : HttpAuth :=
  match store.userPass.get user with
  | none => .basic user pass false
  | some x =>
    .basic user pass
      (md5HashEqual store (user ++ ascii ":" ++ store.realm ++ ascii ":" ++ pass) x)

/-- `strcat` onto a text in an array of 128 bytes. -/
def strcat (buffer s : Bytes) : Except Fault Bytes :=
  if (buffer ++ cstr s).length < 128 then .ok (buffer ++ cstr s) else .error .overflow

/-- A field that is present is appended behind a colon. -/
def strcatField (buffer : Bytes) : Option Bytes → Except Fault Bytes
  | none => .ok buffer
  | some s => do strcat (← strcat buffer (ascii ":")) s

def value (x : Option Bytes) : Except Fault Bytes :=
  match x with
  | none => .error .badOptionalAccess
  | some v => .ok v

def httpDigestAuth (digestInfo : Bytes) (da : HttpMap Bytes Bytes) : Except Fault HttpAuth :=
  match (da.get (ascii "username")).bind store.userPass.get with
  | none => .ok (.digest digestInfo false)
  | some h1 => do
    let method ← value (da.get (ascii "method"))
    let uri ← value (da.get (ascii "uri"))
    -- `snprintf` cuts the text at 127 bytes
    let h2 := store.md5 ((cstr method ++ ascii ":" ++ cstr uri).take 127)
    let buffer ← strcat [] h1
    let buffer ← strcatField buffer (da.get (ascii "nonce"))
    let buffer ← strcatField buffer (da.get (ascii "nc"))
    let buffer ← strcatField buffer (da.get (ascii "cnonce"))
    let buffer ← strcatField buffer (da.get (ascii "qop"))
    let buffer ← strcatField buffer (some h2)
    let response ← value (da.get (ascii "response"))
    .ok (.digest digestInfo (md5HashEqual store buffer (cstr response)))

end HttpAuth

end Socnet.Http
