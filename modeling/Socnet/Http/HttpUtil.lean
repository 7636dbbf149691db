import Socnet.Bytes

namespace Socnet.Http

namespace HttpStatus

def OK : ℕ := 200
def FORBIDDEN : ℕ := 403
def NOT_FOUND : ℕ := 404

end HttpStatus

/-- A `char` is signed, and is extended in sign before it is added. -/
def hashExt (s : Bytes) : UInt64 := s.foldl (fun h c ↦ h * 31 + c.toInt8.toInt64.toUInt64) 0

/-- The initializer of `Content_Type`. Of two entries with one hash the first is kept. -/
def contentType : List (String × String) :=
  [("html", "text/html"), ("htm", "text/html"), ("css", "text/css"), ("csv", "text/csv"),
    ("txt", "text/plain"), ("woff", "font/woff"), ("woff2", "font/woff2"), ("ttf", "font/ttf"),
    ("otf", "font/otf"), ("bmp", "image/x-ms-bmp"), ("svg", "image/svg+xml"),
    ("svgz", "image/svg+xml"), ("gif", "image/gif"), ("jpg", "image/jpeg"), ("jpeg", "image/jpeg"),
    ("webp", "image/webp"), ("png", "image/png"), ("ico", "image/x-icon"), ("wav", "audio/wav"),
    ("weba", "audio/webm"), ("mp3", "audio/mpeg"), ("oga", "audio/ogg"), ("ogv", "video/ogg"),
    ("mpeg", "video/mpeg"), ("mp4", "video/mp4"), ("avi", "video/x-msvideo"),
    ("wmv", "video/x-ms-wmv"), ("webm", "video/webm"), ("flv", "video/x-flv"),
    ("m4v", "video/x-m4v"), ("7z", "application/x-7z-compressed"),
    ("rar", "application/x-rar-compressed"), ("sh", "application/x-sh"),
    ("rss", "application/rss+xml"), ("tar", "application/x-tar"),
    ("jar", "application/java-archive"), ("gz", "application/gzip"), ("zip", "application/zip"),
    ("xhtml", "application/xhtml+xml"), ("xml", "application/xml"),
    ("js", "application/javascript"), ("pdf", "application/pdf"), ("doc", "application/msword"),
    ("xls", "application/vnd.ms-excel"), ("ppt", "application/vnd.ms-powerpoint"),
    ("eot", "application/vnd.ms-fontobject"), ("json", "application/json"),
    ("bin", "application/octet-stream"), ("exe", "application/octet-stream"),
    ("dll", "application/octet-stream"), ("deb", "application/octet-stream"),
    ("iso", "application/octet-stream"), ("img", "application/octet-stream"),
    ("dmg", "application/octet-stream"),
    ("docx", "application/vnd.openxmlformats-officedocument.wordprocessingml.document"),
    ("xlsx", "application/vnd.openxmlformats-officedocument.spreadsheetml.sheet"),
    ("pptx", "application/vnd.openxmlformats-officedocument.presentationml.presentation")]

/-- `std::string_view::find_last_of` for one byte. -/
def findLastOf (c : UInt8) (s : Bytes) : Option ℕ :=
  (Lib.Sequence.find [c] s.reverse).map (s.length - 1 - ·)

/-- The type of a path by what stands behind its last dot, wherever that is. -/
def mappingMimeType (url : Bytes) : Bytes :=
  match findLastOf '.'.toUInt8 url with
  | none => ascii "application/octet-stream"
  | some i =>
    let ext := url.drop (i + 1)
    let type := match contentType.find? fun e ↦ hashExt (ascii e.1) = hashExt ext with
      | some e => ascii e.2
      | none => ascii "application/octet-stream"
    if ascii "text" <+: type ∨ ascii "xml" <:+ type ∨ ascii "javascript" <:+ type ∨
        ascii "json" <:+ type then
      type ++ ascii " ;charset=utf-8"
    else type

end Socnet.Http
