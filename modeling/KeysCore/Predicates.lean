import Mathlib.Algebra.Order.Ring.Rat
import Mathlib.Order.WithBot
import KeysCore.Lib.Json
import KeysCore.Search

/-!
# Smart folders

The predicate of a smart folder is a tree; `compile` writes it as the condition of a `WHERE` clause with
the parameters of its placeholders, which `entries_matching` and `count_matching` run over the entry
table. A condition is kept as its lexemes: `SqlAtom` are the comparisons the templates of the source
hold, and `CompiledPredicate.text` is the text the statement gets.

The rows are those of the table `entry` with the names their `entry_tag` rows link to. Integers are 64
bits wide where a saturating operation meets them. A `REAL` is a rational or an infinity, and compared
exactly; SQLite stores no NaN. SQLite's limits on the length and depth of a statement are left out.
-/

namespace KeysCore

open Lib

/-! ## Numbers -/

def minI64 : Int := -2 ^ 63

def maxI64 : Int := 2 ^ 63 - 1

/-- `i64`. -/
abbrev I64 := { i : Int // minI64 ≤ i ∧ i ≤ maxI64 }

def saturatingAddI64 (a b : Int) : Int := max minI64 (min maxI64 (a + b))

def saturatingSub (a b : Int) : Int := max minI64 (min maxI64 (a - b))

/-- `REAL`. -/
abbrev SqlReal := WithBot (WithTop ℚ)

/-! ## Rows -/

/-- A row of `entry`, the columns a condition reads. -/
structure EntryColumns where
  uuid : Uuid
  groupUuid : Uuid
  title : String := ""
  username : String := ""
  url : String := ""
  urlHost : String := ""
  modifiedAt : I64
  expiresAt : Option I64 := none
  passwordStrengthBucket : Option I64 := none
  passwordEntropy : Option SqlReal := none
  passwordFingerprint : Option (List UInt8) := none
  tags : List String := []
deriving DecidableEq

abbrev EntryColumnTable := Table EntryColumns.uuid

/-! ## Predicates -/

def StrengthBucket.number : StrengthBucket → Int
  | veryWeak => 0
  | weak => 1
  | reasonable => 2
  | strong => 3
  | veryStrong => 4

/-- `std::time::Duration`. -/
structure Duration where
  nanos : Nat
deriving DecidableEq

/-- `duration_ms`. -/
def Duration.ms (d : Duration) : Int := min (d.nanos / 1000000 : Nat) maxI64

/-- `Unknown` holds the document of a node a later version wrote. -/
inductive Predicate where
  | and (predicates : List Predicate)
  | or (predicates : List Predicate)
  | not (predicate : Predicate)
  | titleContains (substring : String)
  | urlContains (substring : String)
  | usernameContains (substring : String)
  | urlHostEquals (host : String)
  | tagEquals (tag : String)
  | tagHasAny (tags : List String)
  | tagHasAll (tags : List String)
  | modifiedWithin (duration : Duration)
  | modifiedBefore (timestampMs : I64)
  | expired
  | expiringWithin (duration : Duration)
  | strengthBelow (bucket : StrengthBucket)
  | entropyBelow (bits : SqlReal)
  | duplicates
  | group (uuid : Uuid)
  | unknown (raw : Json)

mutual

/-- `is_evaluable`. -/
def Predicate.isEvaluable : Predicate → Bool
  | .unknown _ => false
  | .and ps | .or ps => allEvaluable ps
  | .not p => p.isEvaluable
  | _ => true

def allEvaluable : List Predicate → Bool
  | [] => true
  | p :: ps => p.isEvaluable && allEvaluable ps

end

/-! ## Conditions -/

/-- A bound value; the text of a uuid stands apart from the other texts. -/
inductive Value where
  | text (s : String)
  | integer (i : Int)
  | real (r : SqlReal)
  | blob (b : List UInt8)
  | uuid (u : Uuid)
deriving DecidableEq

inductive Column where
  | title
  | url
  | username
  | urlHost
  | modifiedAt
  | expiresAt
  | passwordStrengthBucket
  | passwordEntropy
  | passwordFingerprint
  | groupUuid
deriving DecidableEq

def Column.text : Column → String
  | title => "entry.title"
  | url => "entry.url"
  | username => "entry.username"
  | urlHost => "entry.url_host"
  | modifiedAt => "entry.modified_at"
  | expiresAt => "entry.expires_at"
  | passwordStrengthBucket => "entry.password_strength_bucket"
  | passwordEntropy => "entry.password_entropy"
  | passwordFingerprint => "entry.password_fingerprint"
  | groupUuid => "entry.group_uuid"

/-- The value of a column, `none` for `NULL`. -/
def EntryColumns.read (e : EntryColumns) : Column → Option Value
  | .title => some (.text e.title)
  | .url => some (.text e.url)
  | .username => some (.text e.username)
  | .urlHost => some (.text e.urlHost)
  | .modifiedAt => some (.integer e.modifiedAt.1)
  | .expiresAt => e.expiresAt.map fun i => .integer i.1
  | .passwordStrengthBucket => e.passwordStrengthBucket.map fun i => .integer i.1
  | .passwordEntropy => e.passwordEntropy.map .real
  | .passwordFingerprint => e.passwordFingerprint.map .blob
  | .groupUuid => some (.uuid e.groupUuid)

inductive Comparison where
  | eq
  | lt
  | le
  | ge
deriving DecidableEq

namespace Comparison

def text : Comparison → String
  | eq => "="
  | lt => "<"
  | le => "<="
  | ge => ">="

def holds {α : Type} [LinearOrder α] : Comparison → α → α → Bool
  | eq, a, b => a = b
  | lt, a, b => a < b
  | le, a, b => a ≤ b
  | ge, a, b => b ≤ a

/-- A comparison of two blobs or of two storage classes, which no template makes, is left `NULL`. -/
def eval (op : Comparison) : Value → Value → Truth
  | .text a, .text b => some (op.holds a b)
  | .integer a, .integer b => some (op.holds a b)
  | .real a, .real b => some (op.holds a b)
  | .uuid a, .uuid b => some (op.holds a b)
  | _, _ => none

end Comparison

/-- The comparisons of the templates. -/
inductive SqlAtom where
  | compare (column : Column) (op : Comparison)
  | like (column : Column)
  | isNotNull (column : Column)
  | tagExists
  | tagExistsIn (placeholders : Nat)
  | fingerprintRepeated
deriving DecidableEq

namespace SqlAtom

def arity : SqlAtom → Nat
  | compare .. | like _ | tagExists => 1
  | tagExistsIn n => n
  | isNotNull _ | fingerprintRepeated => 0

/-- The subquery over the tags of an entry, up to the condition on the name. -/
def tagSelect : String :=
  "EXISTS (SELECT 1 FROM entry_tag JOIN tag ON entry_tag.tag_id = tag.id " ++
    "WHERE entry_tag.entry_uuid = entry.uuid AND tag.name "

/-- The subquery for the fingerprints of several entries. -/
def repeatedSelect : String :=
  "entry.password_fingerprint IN ( SELECT password_fingerprint FROM entry " ++
    "WHERE password_fingerprint IS NOT NULL GROUP BY password_fingerprint HAVING COUNT(*) > 1)"

def text : SqlAtom → String
  | compare c op => c.text ++ " " ++ op.text ++ " ?"
  | like c => c.text ++ " LIKE ? ESCAPE '\\'"
  | isNotNull c => c.text ++ " IS NOT NULL"
  | tagExists => tagSelect ++ "= ?)"
  | tagExistsIn n => tagSelect ++ "IN (" ++ ", ".intercalate (List.replicate n "?") ++ "))"
  | fingerprintRepeated => repeatedSelect

end SqlAtom

/-- The fingerprints of the subquery, `HAVING COUNT(*) > 1`. -/
def EntryColumnTable.repeatedFingerprints (T : EntryColumnTable) : List (List UInt8) :=
  let fingerprints := T.rows.filterMap (·.passwordFingerprint)
  fingerprints.filter fun f => 1 < fingerprints.count f

/-- A comparison on a row. `NULL` is in no list that is empty, and compares as `NULL` with any other. -/
def EntryColumnTable.evalAtom (T : EntryColumnTable) (e : EntryColumns) : SqlAtom × List Value → Truth
  | (.compare c op, [v]) => (e.read c).bind (op.eval · v)
  | (.like c, [.text pattern]) =>
    match e.read c with
    | some (.text s) => some (like pattern s)
    | _ => none
  | (.isNotNull c, []) => some (e.read c).isSome
  | (.tagExists, [.text tag]) => some (tag ∈ e.tags)
  | (.tagExistsIn _, vs) => some (e.tags.any fun tag => .text tag ∈ vs)
  | (.fingerprintRepeated, []) =>
    match e.passwordFingerprint with
    | some f => some (f ∈ T.repeatedFingerprints)
    | none => if T.repeatedFingerprints = [] then some false else none
  | _ => none

/-! ## Compiling -/

inductive CompileError where
  | notEvaluable
  | emptyAndOr
deriving DecidableEq

structure CompiledPredicate where
  whereSql : List (Lexeme SqlAtom)
  params : List Value
deriving DecidableEq

def lexemeText : Lexeme SqlAtom → String
  | .lparen => "("
  | .rparen => ")"
  | .and => " AND "
  | .or => " OR "
  | .not => "NOT "
  | .atom a => a.text

/-- The text of the condition. -/
def CompiledPredicate.text (c : CompiledPredicate) : String := String.join (c.whereSql.map lexemeText)

/-- A template: comparisons joined by `AND`, in parentheses. -/
def template (atoms : List SqlAtom) (params : List Value) : CompiledPredicate :=
  ⟨.lparen :: separated .and (atoms.map fun a => [.atom a]) ++ [.rparen], params⟩

def likeContains (column : Column) (substring : String) : CompiledPredicate :=
  template [.like column] [.text ("%" ++ escapeLike substring ++ "%")]

/-- `tag_exists_sql`. -/
def tagExistsSql : List (Lexeme SqlAtom) := [.lparen, .atom .tagExists, .rparen]

/-- The children of a junction, joined. -/
def joined (op : Lexeme SqlAtom) (parts : List CompiledPredicate) : CompiledPredicate :=
  ⟨.lparen :: separated op (parts.map (·.whereSql)) ++ [.rparen], (parts.map (·.params)).flatten⟩

mutual

def compile (nowMs : I64) : Predicate → Except CompileError CompiledPredicate
  | .and ps =>
    if ps.isEmpty then throw .emptyAndOr else do return joined .and (← compileAll nowMs ps)
  | .or ps =>
    if ps.isEmpty then throw .emptyAndOr else do return joined .or (← compileAll nowMs ps)
  | .not p => do
    let inner ← compile nowMs p
    return ⟨.lparen :: .not :: inner.whereSql ++ [.rparen], inner.params⟩
  | .titleContains s => return likeContains .title s
  | .urlContains s => return likeContains .url s
  | .usernameContains s => return likeContains .username s
  | .urlHostEquals host => return template [.compare .urlHost .eq] [.text host]
  | .tagEquals tag => return ⟨tagExistsSql, [.text tag]⟩
  | .tagHasAny tags =>
    if tags.isEmpty then throw .emptyAndOr
    else return template [.tagExistsIn tags.length] (tags.map .text)
  | .tagHasAll tags =>
    if tags.isEmpty then throw .emptyAndOr
    else return ⟨.lparen :: separated .and (tags.map fun _ => tagExistsSql) ++ [.rparen],
      tags.map .text⟩
  | .modifiedWithin d =>
    return template [.compare .modifiedAt .ge] [.integer (saturatingSub nowMs.1 d.ms)]
  | .modifiedBefore timestampMs =>
    return template [.compare .modifiedAt .lt] [.integer timestampMs.1]
  | .expired =>
    return template [.isNotNull .expiresAt, .compare .expiresAt .lt] [.integer nowMs.1]
  | .expiringWithin d =>
    return template [.isNotNull .expiresAt, .compare .expiresAt .ge, .compare .expiresAt .le]
      [.integer nowMs.1, .integer (saturatingAddI64 nowMs.1 d.ms)]
  | .strengthBelow bucket =>
    return template [.isNotNull .passwordStrengthBucket, .compare .passwordStrengthBucket .lt]
      [.integer bucket.number]
  | .entropyBelow bits =>
    return template [.isNotNull .passwordEntropy, .compare .passwordEntropy .lt] [.real bits]
  | .duplicates => return template [.isNotNull .passwordFingerprint, .fingerprintRepeated] []
  | .group uuid => return template [.compare .groupUuid .eq] [.uuid uuid]
  | .unknown _ => throw .notEvaluable

/-- The loop of `compile_junction`. -/
def compileAll (nowMs : I64) : List Predicate → Except CompileError (List CompiledPredicate)
  | [] => return []
  | p :: ps => do
    let c ← compile nowMs p
    return c :: (← compileAll nowMs ps)

end

/-! ## Queries -/

/-- The rows a condition selects: those on which it is true. -/
def EntryColumnTable.selectWhere (T : EntryColumnTable) (c : CompiledPredicate) :
    Except EngineError (List EntryColumns) :=
  match (bindParams SqlAtom.arity c.whereSql c.params).bind readCondition with
  | none => throw (.sqlite .invalidStatement)
  | some cond => return T.rows.filter fun e => cond.eval (T.evalAtom e) = some true

/-- `compile_err_to_engine`. -/
def compileErrToEngine (_ : CompileError) : EngineError := .notEvaluable

/-- `ORDER BY modified_at DESC, uuid ASC`. -/
def matchOrder (e : EntryColumns) : Lex (Int × Uuid) := toLex (-e.modifiedAt.1, e.uuid)

def EntryColumnTable.entriesMatching (T : EntryColumnTable) (p : Predicate) (page : Pagination)
    (nowMs : I64) : Except EngineError (List EntryColumns) := do
  let c ← (compile nowMs p).mapError compileErrToEngine
  let rows ← T.selectWhere c
  return paged page (rows.insertionSort fun a b => matchOrder a ≤ matchOrder b)

def EntryColumnTable.countMatching (T : EntryColumnTable) (p : Predicate) (nowMs : I64) :
    Except EngineError Nat := do
  let c ← (compile nowMs p).mapError compileErrToEngine
  return (← T.selectWhere c).length

end KeysCore
