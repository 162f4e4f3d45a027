-- `normalize_url` of `lib/url_filter.h`: the URLs that are dropped, and the one form of the others.
import Seamus.HtmlParser

open seamus.html_tags seamus.html

namespace seamus.url_filter

/-! ## The filters -/

def BAD_URL_EXTENSIONS : List Bytes :=
  [".jpg", ".jpeg", ".png", ".gif", ".bmp", ".svg", ".ico", ".webp", ".tif", ".tiff", ".mp3",
    ".mp4", ".mov", ".avi", ".mkv", ".wav", ".ogg", ".flac", ".webm", ".m4a", ".m4v", ".zip",
    ".tar", ".gz", ".rar", ".7z", ".bz2", ".xz", ".exe", ".dmg", ".iso", ".bin", ".deb", ".rpm",
    ".msi", ".apk", ".pkg", ".css", ".js", ".mjs", ".map", ".ttf", ".woff", ".woff2", ".eot",
    ".otf", ".pdf", ".doc", ".docx", ".xls", ".xlsx", ".ppt", ".pptx", ".epub", ".json", ".xml",
    ".rss", ".atom"].map ascii

def hasBadExtension (path : Bytes) : Bool :=
  BAD_URL_EXTENSIONS.any fun ext =>
    ext.length ≤ path.length && lowercase (path.drop (path.length - ext.length)) = ext

def ALLOWED_TLDS : List Bytes :=
  ["com", "org", "net", "edu", "gov", "mil", "int", "io", "dev", "app", "ai", "co", "me", "cc",
    "tv", "fm", "ly", "gg", "sh", "to", "tech", "cloud", "so", "gl", "is", "ws", "ac", "wiki",
    "news", "pro", "museum", "jobs", "page", "blog", "science", "health", "media", "uk", "us",
    "au", "ca", "nz", "ie", "za", "sg", "hk", "in"].map ascii

/-- The label after the last dot of the host is one of the list. -/
def hasAllowedTld (host : Bytes) : Bool :=
  let tld := (host.reverse.takeWhile (· ≠ 46)).reverse
  46 ∈ host && tld ≠ [] && ALLOWED_TLDS.any fun allowed => lowercase tld = allowed

def NON_ENGLISH_CODES : List Bytes :=
  ["ar", "bg", "bn", "cs", "da", "de", "el", "es", "fa", "fi", "fr", "he", "hi", "hu", "ja",
    "ko", "nl", "pl", "pt", "ro", "ru", "sk", "sl", "sr", "sv", "th", "vi", "zh"].map ascii

def isNonEnglishCode (s : Bytes) : Bool :=
  NON_ENGLISH_CODES.any fun code => lowercase (s.take 2) = code

/-- A language as the first label of the host, or as the first part of the path. -/
def hasNonEnglishCode (host path : Bytes) : Bool :=
  (3 < host.length && host.getD 2 0 = 46 && isNonEnglishCode host) ||
    (4 ≤ path.length && path.head? = some 47 && (path.getD 3 0 = 47 || path.getD 3 0 = 45) &&
      isNonEnglishCode (path.drop 1))

def isVowel (c : UInt8) : Bool := tolower c ∈ ascii "aeiouy"

/-- 10 characters in a row that are no vowels, with `run` of them before. -/
def labelHasLongNonvowelRun : Nat → Bytes → Bool
  | _, [] => false
  | run, c :: label =>
    if isVowel c then labelHasLongNonvowelRun 0 label
    else if 10 ≤ run + 1 then true
    else labelHasLongNonvowelRun (run + 1) label

def hasGibberishHost (host : Bytes) : Bool :=
  (host.splitOn 46).any fun label => labelHasLongNonvowelRun 0 label

def JUNK_PATH_SEGMENTS : List Bytes :=
  ["/login", "/signin", "/logout", "/signout", "/register", "/signup", "/api/", "/feed/", "/rss",
    "/atom", "/print/", "/share/", "/calendar/", "/tag/", "/tags/", "/category/", "/categories/",
    "/search?", "/search/", "/wp-admin", "/wp-content/", "/wp-includes/", "/wp-json/", "/admin/",
    "/cgi-bin/", "/cart", "/checkout", "/author/", "/authors/", "/comments/", "/comment-page",
    "/replytocom", "/trackback/", "/trackback", "/archive/", "/archives/", "/page/", "/amp/",
    "/profile/", "/user/", "/users/", "/members/", "/download/", "/downloads/", "/subscribe",
    "/unsubscribe", "/terms", "/privacy", "/cookie", "/cookies", "/contact", "/contact-us",
    "/sitemap"].map ascii

/-- One of the segments stands somewhere in the path. -/
def hasJunkPath (path : Bytes) : Bool :=
  JUNK_PATH_SEGMENTS.any fun seg => path.tails.any fun p => startsWith (lowercase p) seg

def BLOCKED_DOMAINS : List Bytes :=
  ["bit.ly", "tinyurl.com", "t.co", "goo.gl", "ow.ly", "buff.ly", "j.mp", "rebrand.ly",
    "cutt.ly", "is.gd", "shorturl.at", "lnkd.in", "pinterest.com", "pinterest.co.uk",
    "pinterest.ca", "pinterest.de", "pinterest.fr", "pinterest.com.au", "pinterest.nz",
    "tiktok.com", "instagram.com", "facebook.com", "fb.com", "x.com", "t.me", "pastebin.com",
    "paste2.org", "paste.ee", "hastebin.com", "squidoo.com", "hubpages.com", "wattpad.com",
    "fanfiction.net"].map ascii

/-- The host is a blocked domain or a subdomain of one. -/
def isBlockedDomain (host : Bytes) : Bool :=
  BLOCKED_DOMAINS.any fun d =>
    let hoff := host.length - d.length
    d.length ≤ host.length && lowercase (host.drop hoff) = d &&
      (hoff = 0 || host.getD (hoff - 1) 0 = 46)

def isAllowedUrlChar (c : UInt8) : Bool := isalnum c || c ∈ ascii "/-_.:"

def hostPathHasOnlyAllowedChars (hostPath : Bytes) : Bool := hostPath.all isAllowedUrlChar

def MAX_PATH_DEPTH : Nat := 8

def exceedsPathDepth (path : Bytes) : Bool := MAX_PATH_DEPTH < path.count 47

/-! ## Normalisation -/

/-- Whether the scheme is `https`, and what is after it. -/
def splitScheme (url : Bytes) : Option (Bool × Bytes) :=
  if startsWith url (ascii "https://") then some (true, url.drop 8)
  else if startsWith url (ascii "http://") then some (false, url.drop 7)
  else none

def stripWww (p : Bytes) : Bytes := if lowercase (p.take 4) = ascii "www." then p.drop 4 else p

/-- The host without the default port of the scheme. -/
def stripPort (isHttps : Bool) (host : Bytes) : Bytes :=
  let name := host.takeWhile (· ≠ 58)
  let port := host.drop (name.length + 1)
  if port = (if isHttps then ascii "443" else ascii "80") then name else host

/-- The path with a `/` at its start, and without one at its end. -/
def fixPath (path : Bytes) : Bytes :=
  let path := if path.head? = some 47 then path else 47 :: path
  if 1 < path.length ∧ path.getLast? = some 47 then path.dropLast else path

/-- Empty for a URL that is dropped. A URL with a query is dropped, so that no query is ever
filtered. -/
def normalizeUrl (url : Bytes) : Bytes :=
  if url = [] ∨ 2048 < url.length then []
  else
    match splitScheme url with
    | none => []
    | some (isHttps, p) =>
      let p := stripWww p
      let host := p.takeWhile fun c => c ≠ 47 && c ≠ 63 && c ≠ 35
      let visible := (p.drop host.length).takeWhile (· ≠ 35)
      let path := visible.takeWhile (· ≠ 63)
      let content := stripPort isHttps host
      if host = [] then []
      else if hasBadExtension path then []
      else if path.length < visible.length then []
      else if !hostPathHasOnlyAllowedChars (host ++ path) then []
      else if !hasAllowedTld content then []
      else if isBlockedDomain content then []
      else if hasNonEnglishCode content path then []
      else if hasGibberishHost content then []
      else if hasJunkPath path then []
      else if exceedsPathDepth path then []
      else
        (if isHttps then ascii "https://" else ascii "http://") ++ lowercase content ++ fixPath path

theorem allowedChars_append (host path : Bytes) : hostPathHasOnlyAllowedChars (host ++ path) =
    (host.all isAllowedUrlChar && path.all isAllowedUrlChar) := List.all_append

theorem startsWith_iff {str start : Bytes} : startsWith str start = true ↔ start <+: str := by
  unfold startsWith
  rw [decide_eq_true_eq, List.prefix_iff_eq_take, eq_comm]

/-- `http://` or `https://`. -/
def hasScheme (url : Bytes) : Bool :=
  startsWith url (ascii "http://") || startsWith url (ascii "https://")

theorem hasScheme_of_normalizeUrl {url : Bytes} (haccepted : normalizeUrl url ≠ []) :
    hasScheme url = true := by
  unfold normalizeUrl splitScheme at haccepted
  unfold hasScheme
  by_cases hhttps : startsWith url (ascii "https://") = true
  · rw [hhttps, Bool.or_true]
  by_cases hhttp : startsWith url (ascii "http://") = true
  · rw [hhttp, Bool.true_or]
  rw [if_neg hhttps, if_neg hhttp] at haccepted
  exact absurd (ite_self _) haccepted

end seamus.url_filter
