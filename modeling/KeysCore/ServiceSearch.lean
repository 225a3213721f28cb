import KeysCore.Lib.Like
import KeysCore.DerivedColumns

/-!
# The AutoFill lookup

`search_by_service`: the entries for a service identifier, in three tiers. The host of the identifier is
compared with the `url_host` column, first whole and then by the domain that `registrable_domain` keeps
of its labels; the last tier is the identifier anywhere in the URL. The rows come with the tier they
rank in.

The column `last_used_at` is a parameter: no other modelled function reads or writes it. Grouping the
candidates by uuid leaves them as they are, as the uuid is the primary key.
-/

namespace KeysCore

open Lib

/-! ## Hosts -/

/-- `TWO_LABEL_PUBLIC_SUFFIXES`. -/
def twoLabelPublicSuffixes : List String :=
  ["co.uk", "org.uk", "ac.uk", "gov.uk", "me.uk", "net.uk", "com.au", "net.au", "org.au", "edu.au",
    "gov.au", "id.au", "co.nz", "net.nz", "org.nz", "co.jp", "ne.jp", "or.jp", "ac.jp", "go.jp",
    "co.kr", "or.kr", "co.za", "org.za", "com.br", "net.br", "org.br", "com.mx", "com.ar", "com.sg",
    "com.hk", "com.tw", "com.tr", "co.in", "co.id", "co.il"]

/-- The last `n` labels of a host. -/
def lastLabels (n : Nat) (host : String) : String :=
  String.ofList (['.'].intercalate ((labels host).drop ((labels host).length - n)))

/-- `registrable_domain`: the last two labels, or three where the two are a known suffix. -/
def registrableDomain (host : String) : String :=
  let host := stripWww host
  if (labels host).length < 2 then host
  else if 3 ≤ (labels host).length ∧ lastLabels 2 host ∈ twoLabelPublicSuffixes then lastLabels 3 host
  else lastLabels 2 host

def escapeLike (s : String) : String := String.ofList (Like.escape '\\' s.toList)

/-- `LIKE … ESCAPE '\\'`, which reads a text up to its first NUL. -/
def like (pattern s : String) : Bool := Like.like '\\' pattern.toList s.toList

def NulFree (s : String) : Prop := '\x00' ∉ s.toList

instance (s : String) : Decidable (NulFree s) := inferInstanceAs (Decidable (¬ _))

/-! ## Tiers -/

inductive ServiceTier where
  | exactHost
  | registrableDomain
  | substring
deriving DecidableEq

def ServiceTier.number : ServiceTier → Int
  | exactHost => 1
  | registrableDomain => 2
  | substring => 3

/-- The parameters of the statement. -/
structure ServiceQuery where
  exactHost : String
  etld1 : String
  etldSuffixLike : String
  urlLike : String
  wwwHost : String

/-- The host an identifier names: a text that does not parse to a URL with a host stands for one. -/
def rawHost (L : UrlLib) (trimmed : String) : String :=
  (((L.parse trimmed).bind ParsedUrl.hostStr).map toAsciiLowercase).getD (toAsciiLowercase trimmed)

def ServiceQuery.of (L : UrlLib) (trimmed : String) : ServiceQuery :=
  let exactHost := stripWww (rawHost L trimmed)
  let etld1 := KeysCore.registrableDomain exactHost
  { exactHost
    etld1
    etldSuffixLike := "%." ++ escapeLike etld1
    urlLike := "%" ++ escapeLike trimmed ++ "%"
    wwwHost := "www." ++ exactHost }

/-- The best tier a row satisfies. -/
def ServiceQuery.tier (q : ServiceQuery) (urlHost url : String) : Option ServiceTier :=
  if urlHost = q.exactHost ∨ urlHost = q.wwwHost then some .exactHost
  else if urlHost = q.etld1 ∨ like q.etldSuffixLike urlHost then some .registrableDomain
  else if like q.urlLike url then some .substring
  else none

/-! ## The statement -/

namespace Mirror

variable (m : Mirror)

/-- The groups `n` levels below the flagged ones. -/
def binLevel : Nat → List Uuid
  | 0 => (m.groups.rows.filter (·.isRecycleBin)).map (·.uuid)
  | n + 1 =>
    (m.groups.rows.filter fun g => ∃ p ∈ binLevel n, g.parentUuid = some p).map (·.uuid)

/-- `BIN_SUBTREE_CTE`. Without a cycle of parents no group lies deeper than there are groups. -/
def binSubtree : List Uuid := (List.range m.groups.rows.length).flatMap m.binLevel

/-- `BIN_MEMBER_EXCLUDE_CLAUSE`, which stands in the statement while the bin is enabled. -/
def live (e : EntryRow) : Bool := !m.readRecycleBinEnabled || e.groupUuid ∉ m.binSubtree

/-- The order of the rows: `last_used_at` descending and `NULL` last, then the newest. -/
def serviceOrder (lastUsedAt : Uuid → Option EpochMs) (r : ServiceTier × EntryRow) : List Int :=
  [r.1.number, if lastUsedAt r.2.uuid = none then 1 else 0, -((lastUsedAt r.2.uuid).map (·.val)).getD 0,
    -r.2.modifiedAt.val, (r.2.uuid : Fin (2 ^ 128)).val]

/-- `search_by_service`, with the tier of each row. The cap of the limit at `i64::MAX` is left out: no
table holds as many rows. -/
def rankedByService (L : UrlLib) (C : ColumnTable) (lastUsedAt : Uuid → Option EpochMs)
    (identifier : String) (limit : Nat) : List (ServiceTier × EntryRow) :=
  let trimmed := trim identifier
  if trimmed = "" then []
  else
    let q := ServiceQuery.of L trimmed
    let ranked := (m.entries.rows.filter m.live).filterMap fun e =>
      (q.tier (C e.uuid).urlHost e.url).map fun t => (t, e)
    (ranked.insertionSort fun a b => serviceOrder lastUsedAt a ≤ serviceOrder lastUsedAt b).take limit

end Mirror

end KeysCore
