import KeysCore.Lib.Conditions
import KeysCore.ServiceSearch
import KeysCore.Tags

/-!
# Subtrees and the text search

Which groups lie under a group is decided in four ways: `is_descendant_of` and `group_in_bin_subtree`
walk up, each to a step limit of its own, and the recursive queries `SUBTREE_GROUPS_CTE` and
`BIN_SUBTREE_CTE` go down from the group or from the flagged groups.

`search` compares the tokens of a query with the fields of an entry. Its condition is built from one
clause for each token, whose placeholders all carry the number of the token; it is kept as its lexemes,
and a comparison of a placeholder without a value is `NULL`.
-/

namespace KeysCore

open Lib

/-! ## Pages -/

/-- `u64` bounds. -/
structure Pagination where
  offset : UInt64
  limit : UInt64

def Pagination.all : Pagination := ⟨0, 0xffffffffffffffff⟩

/-- `clamp_page`: the limit, `none` without one, and the offset. -/
def clampPage (page : Pagination) : Option Nat × Nat :=
  (if page.limit.toNat = 2 ^ 64 - 1 then none
    else if page.limit.toNat < 2 ^ 63 then some page.limit.toNat else none,
    min page.offset.toNat (2 ^ 63 - 1))

/-- `LIMIT … OFFSET …`. -/
def paged {α : Type} (page : Pagination) (rows : List α) : List α :=
  let (limit, offset) := clampPage page
  match limit with
  | none => rows.drop offset
  | some limit => (rows.drop offset).take limit

@[simp] theorem paged_all {α : Type} (rows : List α) : paged .all rows = rows := rfl

@[simp] theorem paged_nil {α : Type} (page : Pagination) : paged page ([] : List α) = [] := by
  unfold paged
  rcases clampPage page with ⟨_ | limit, offset⟩ <;> simp

/-! ## Subtrees -/

def maxAncestryWalk : Nat := 1024

namespace Mirror

variable (m : Mirror)

/-- The walk of `is_descendant_of`, at most `n` steps long. -/
def ancestryWalk (ancestor : Uuid) : Nat → Uuid → Bool
  | 0, _ => false
  | n + 1, current =>
    match m.parentOf current with
    | none => false
    | some parent => parent = ancestor || ancestryWalk ancestor n parent

/-- `is_descendant_of`: a group is not its own descendant. -/
def isDescendantOf (group ancestor : Uuid) : Except EngineError Bool :=
  if m.groupExists group then
    .ok (group ≠ ancestor && m.ancestryWalk ancestor maxAncestryWalk group)
  else .error (.notFound "group")

/-- The groups `n` levels below those of a list. -/
def levelBelow (base : List Uuid) : Nat → List Uuid
  | 0 => base
  | n + 1 =>
    (m.groups.rows.filter fun g => ∃ p ∈ levelBelow base n, g.parentUuid = some p).map (·.uuid)

/-- `SUBTREE_GROUPS_CTE`: `UNION` keeps each group once, and one that is reached at all is reached
within as many steps as there are groups. -/
def subtreeGroups (root : Uuid) : List Uuid :=
  let base := (m.groups.rows.filter (·.uuid = root)).map (·.uuid)
  ((List.range m.groups.rows.length).flatMap (m.levelBelow base)).dedup

/-- `require_group_exists`. -/
def requireGroupExists (u : Uuid) : Except EngineError Unit :=
  if m.groupExists u then .ok () else .error (.notFound "group")

def groupUuidsInSubtree (root : Uuid) : Except EngineError (List Uuid) := do
  m.requireGroupExists root
  return (m.subtreeGroups root).insertionSort (· ≤ ·)

def entryUuidsInSubtree (root : Uuid) : Except EngineError (List Uuid) := do
  m.requireGroupExists root
  return ((m.entries.rows.filter (·.groupUuid ∈ m.subtreeGroups root)).map (·.uuid)).insertionSort
    (· ≤ ·)

/-- `entry_count`. -/
def entryCount (group : Option Uuid) : Nat :=
  match group with
  | some u => (m.entries.rows.filter (·.groupUuid = u)).length
  | none => m.entries.rows.length

def entryCountExcludingRecycleBin : Nat :=
  if m.readRecycleBinEnabled then
    (m.entries.rows.filter (·.groupUuid ∉ m.binSubtree)).length
  else m.entryCount none

end Mirror

/-! ## The text search -/

inductive SearchScope where
  | anyField
  | titleOnly
  | notesOnly
deriving DecidableEq

inductive RecycleBinFilter where
  | excludeRecycled
  | recycledOnly
  | includeRecycled
deriving DecidableEq

/-- What a comparison of a clause looks at; `tag` and `customField` are subqueries. -/
inductive SearchField where
  | title
  | username
  | url
  | notes
  | tag
  | customField
deriving DecidableEq

/-- The texts of an entry a comparison looks at. -/
def SearchField.texts (e : EntryRow) : SearchField → List String
  | title => [e.title]
  | username => [e.username]
  | url => [e.url]
  | notes => [e.notes]
  | tag => e.tags
  | customField => e.customFields.flatMap fun f => [f.1, f.2]

def SearchScope.fields : SearchScope → List SearchField
  | anyField => [.title, .username, .url, .notes, .tag, .customField]
  | titleOnly => [.title]
  | notesOnly => [.notes]

inductive SearchAtom where
  /-- `field LIKE ?n ESCAPE '\' COLLATE NOCASE`. -/
  | like (field : SearchField) (n : Nat)
  /-- `entry.group_uuid IN (SELECT uuid FROM bin_subtree)`. -/
  | inBinSubtree
  | notInBinSubtree
deriving DecidableEq

/-- `per_token_clause` with the number of the token. -/
def perTokenClause (scope : SearchScope) (n : Nat) : List (Lexeme SearchAtom) :=
  .lparen :: separated .or (scope.fields.map fun f => [.atom (.like f n)]) ++ [.rparen]

/-- The clause of the bin filter, `none` where nothing is to be found. -/
def binClause (bin : RecycleBinFilter) (binEnabled : Bool) : Option (List (Lexeme SearchAtom)) :=
  match bin with
  | .includeRecycled => some []
  | .excludeRecycled => some (if binEnabled then [.and, .atom .notInBinSubtree] else [])
  | .recycledOnly => if binEnabled then some [.and, .atom .inBinSubtree] else none

/-- `str::split_whitespace`. -/
def splitWhitespace (s : String) : List String :=
  ((s.toList.splitOnP isWhitespace).filter (· ≠ [])).map String.ofList

namespace Mirror

variable (m : Mirror)

/-- A comparison on a row; the placeholder `?n` has the `n`-th pattern. -/
def searchAtom (patterns : List String) (e : EntryRow) : SearchAtom → Truth
  | .like field n => (patterns[n - 1]?).map fun pattern => (field.texts e).any (like pattern)
  | .inBinSubtree => some (e.groupUuid ∈ m.binSubtree)
  | .notInBinSubtree => some (e.groupUuid ∉ m.binSubtree)

/-- `ORDER BY title COLLATE NOCASE ASC, uuid ASC`. -/
def searchOrder (e : EntryRow) : Lex (Lex (String × Nat) × Uuid) := toLex (noCaseOrder e.title, e.uuid)

def search (query : String) (scope : SearchScope) (bin : RecycleBinFilter) (page : Pagination) :
    Except EngineError (List EntryRow) :=
  let trimmed := trim query
  if trimmed = "" then .ok []
  else
    match binClause bin m.readRecycleBinEnabled with
    | none => .ok []
    | some clause =>
      let tokens := (splitWhitespace trimmed).map fun t => "%" ++ escapeLike t ++ "%"
      if tokens.isEmpty then .ok []
      else
        let whereClause := separated .and (tokens.mapIdx fun i _ => perTokenClause scope (i + 1))
        match readCondition (.lparen :: whereClause ++ .rparen :: clause) with
        | none => .error (.sqlite .invalidStatement)
        | some cond =>
          let rows := m.entries.rows.filter fun e => cond.eval (m.searchAtom tokens e) = some true
          .ok (paged page (rows.insertionSort fun a b => searchOrder a ≤ searchOrder b))

end Mirror

end KeysCore
