import KeysCore.Ingest

/-!
# URLs and sites

The functions that read a host off a text: `parse_host`, which fills the `url_host` column of an entry,
and the URL matcher, which lists the domains a service identifier is looked up by, says under which one a
credential for it is filed and which URL an entry saved from its page records. The matcher reads an
identifier without a scheme as `https://`.

The `url` crate is the parameter `UrlLib`, and `psl::domain` a function from a host to its registrable
domain. A URL's host is ASCII, so lower-casing it is `to_ascii_lowercase` throughout.
-/

namespace KeysCore

/-! ## The url crate -/

/-- `url::Host`. An IPv6 address is written in two ways: as `Ipv6Addr` displays it, and as the URL
does, without its brackets. -/
inductive UrlHost where
  | domain (name : String)
  | ipv4 (text : String)
  | ipv6 (text serialized : String)
deriving DecidableEq

/-- What the engine reads of a parsed `Url`: its host, and its origin when that is a tuple, serialised. -/
structure ParsedUrl where
  host : Option UrlHost := none
  origin : Option String := none
deriving DecidableEq

/-- `Url::parse`. -/
structure UrlLib where
  parse : String → Option ParsedUrl

/-- The host as the URL writes it. -/
def UrlHost.str : UrlHost → String
  | domain name => name
  | ipv4 text => text
  | ipv6 _ serialized => "[" ++ serialized ++ "]"

/-- `Url::host_str`. -/
def ParsedUrl.hostStr (u : ParsedUrl) : Option String := u.host.map UrlHost.str

/-- `str::to_ascii_lowercase`. -/
def toAsciiLowercase (s : String) : String := s.map Char.toLower

/-- `str::contains`. -/
def containsStr (s pattern : String) : Bool := s.toList.tails.any pattern.toList.isPrefixOf

/-- `strip_www`. -/
def stripWww (host : String) : String :=
  if "www.".toList.isPrefixOf host.toList then String.ofList (host.toList.drop 4) else host

/-- `str::split('.')`. -/
def labels (host : String) : List (List Char) := host.toList.splitOn '.'

/-- `parse_host`. -/
def parseHost (L : UrlLib) (url : String) : String :=
  if url = "" then ""
  else
    match L.parse url with
    | some u => (u.hostStr.map toAsciiLowercase).getD ""
    | none => ""

/-! ## The matcher -/

namespace UrlMatcher

inductive Host where
  | domain (name : String)
  | ip (text : String)
deriving DecidableEq

variable (L : UrlLib) (psl : String → Option String)

/-- `parse_with_default_scheme`. -/
def parseWithDefaultScheme (s : String) : Option ParsedUrl :=
  let trimmed := trim s
  if trimmed = "" then none
  else if containsStr trimmed "://" then L.parse trimmed
  else L.parse ("https://" ++ trimmed)

/-- `site_host`: an empty label names no site. -/
def siteHost (parsed : ParsedUrl) : Option Host :=
  match parsed.host with
  | none => none
  | some (.ipv4 text) => some (.ip text)
  | some (.ipv6 text _) => some (.ip text)
  | some (.domain name) =>
    let host := stripWww (toAsciiLowercase name)
    if host = "" ∨ [] ∈ labels host then none else some (.domain host)

def normaliseHost (s : String) : Option Host := (parseWithDefaultScheme L s).bind siteHost

/-- The loop of `domain_candidates`; `none` is an underflow of `host_parts.len() - start`. -/
def candidateLoop (hostParts : List (List Char)) (regLabelCount start : Nat) : Option (List String) :=
  if h : start ≤ hostParts.length then
    if hle : regLabelCount ≤ hostParts.length - start then
      let candidate := String.ofList (['.'].intercalate (hostParts.drop start))
      if heq : hostParts.length - start = regLabelCount then some [candidate]
      else (candidateLoop hostParts regLabelCount (start + 1)).map (candidate :: ·)
    else some []
  else none
termination_by hostParts.length - start

/-- `domain_candidates`. -/
def domainCandidates (s : String) : Option (List String) :=
  match normaliseHost L s with
  | none => some []
  | some (.ip text) => some [text]
  | some (.domain host) =>
    match psl host with
    | none => some [host]
    | some reg => candidateLoop (labels host) (labels reg).length 0

/-- `credential_domain`: a public suffix of several labels is no domain to file a credential under. -/
def credentialDomain (s : String) : Option String :=
  match normaliseHost L s with
  | none => none
  | some (.ip text) => some text
  | some (.domain host) =>
    match psl host with
    | some registrable => some registrable
    | none => if '.' ∈ host.toList then none else some host

/-- `origin`. -/
def origin (s : String) : Option String :=
  match parseWithDefaultScheme L s with
  | none => none
  | some parsed =>
    match siteHost parsed with
    | none => none
    | some _ => parsed.origin

end UrlMatcher

end KeysCore
