import KeysCore.Lib.Table
import KeysCore.Mirror
import KeysCore.PredicateJson

/-!
# Smart folders in the mirror

The table `smart_folder` holds for each folder the text of its predicate. `create` and `update` write the
text of any predicate they are given; `get_one` and `list_all` read the texts back, and a listing fails as
a whole when one row of it does.

The text of a document is the crate's: `JsonText` is `serde_json`'s `to_string` and `from_str`, with the
depth its parser goes to and the float it makes of a written one, which without the feature
`float_roundtrip` may be another. An infinity stands for a NaN too, of which the writer also makes `null`.
Events are left out.
-/

namespace KeysCore

open Lib

variable {Text : Type}

/-- `serde_json` on texts. -/
structure JsonText (Text : Type) where
  write : Json → Text
  parse : Text → Option Json
  limit : Nat
  reread : ℚ → ℚ

/-- A document is parsed as it was written, each float as it is reread, unless it is nested too deep. -/
structure JsonText.Lawful (J : JsonText Text) : Prop where
  parse_write : ∀ j, j.depth ≤ J.limit → J.parse (J.write j) = some (j.mapFractions J.reread)
  parse_deep : ∀ j, J.limit < j.depth → J.parse (J.write j) = none

/-- A row of `smart_folder`. -/
structure SmartFolderRow (Text : Type) where
  id : Int
  name : String
  predicateJson : Text
  version : Int := 1
  evaluable : Int := 1
  createdAt : Int
  modifiedAt : Int

/-- The table, with its row of `sqlite_sequence`. -/
structure SmartFolderTable (Text : Type) where
  rows : Table (@SmartFolderRow.id Text)
  sequence : Nat

/-- `SmartFolder`. -/
structure SmartFolder where
  id : Int
  name : String
  predicate : Predicate
  version : UInt32
  evaluable : Bool
  createdAt : Int
  modifiedAt : Int

/-! ## Reading -/

section

variable (J : JsonText Text) (U : UuidLib)

/-- `serde_json::from_str::<Predicate>`. -/
def readPredicate (text : Text) : Option Predicate :=
  (J.parse text).bind fun value => (decode U value).toOption

/-- `row_to_smart_folder`. -/
def rowToSmartFolder (row : SmartFolderRow Text) : Except EngineError SmartFolder :=
  match readPredicate J U row.predicateJson with
  | none => .error (.sqlite (.fromSqlConversionFailure 2))
  | some predicate => .ok {
      id := row.id
      name := row.name
      predicate
      version := if 0 ≤ row.version ∧ row.version < 2 ^ 32 then UInt32.ofNat row.version.toNat else 1
      evaluable := row.evaluable ≠ 0
      createdAt := row.createdAt
      modifiedAt := row.modifiedAt }

/-- `list_all`. -/
def SmartFolderTable.listAll (S : SmartFolderTable Text) : Except EngineError (List SmartFolder) :=
  (S.rows.rows.insertionSort fun a b => a.id ≤ b.id).mapM (rowToSmartFolder J U)

/-- `get_one`. -/
def SmartFolderTable.getOne (S : SmartFolderTable Text) (id : Int) :
    Except EngineError (Option SmartFolder) :=
  match S.rows.find? id with
  | none => .ok none
  | some row => (rowToSmartFolder J U row).map some

/-! ## Writing -/

/-- The rowid of an `AUTOINCREMENT` insert. -/
def SmartFolderTable.nextId (S : SmartFolderTable Text) : Int := S.rows.keys.foldl max (S.sequence : Int) + 1

/-- `create`, which returns the id. -/
def SmartFolderTable.create (S : SmartFolderTable Text) (name : String) (predicate : Predicate) (now : Int) :
    Except EngineError (SmartFolderTable Text × Int) :=
  if maxI64 < S.nextId then .error (.sqlite .full)
  else
    match S.rows.insert? {
      id := S.nextId
      name
      predicateJson := J.write (encode U predicate)
      evaluable := predicate.isEvaluable.toInt
      createdAt := now
      modifiedAt := now } with
    | none => .error (.sqlite .constraintPrimaryKey)
    | some rows => .ok (⟨rows, S.nextId.toNat⟩, S.nextId)

/-- `update`. -/
def SmartFolderTable.update (S : SmartFolderTable Text) (id : Int) (name : String) (predicate : Predicate)
    (now : Int) : Except EngineError (SmartFolderTable Text) :=
  if id ∈ S.rows.keys then
    .ok { S with rows := S.rows.modify id (fun row => { row with
      name
      predicateJson := J.write (encode U predicate)
      evaluable := predicate.isEvaluable.toInt
      modifiedAt := now }) fun _ => rfl }
  else .error (.notFound "smart_folder")

end

/-- `delete`. -/
def SmartFolderTable.delete (S : SmartFolderTable Text) (id : Int) :
    Except EngineError (SmartFolderTable Text) :=
  if id ∈ S.rows.keys then .ok { S with rows := S.rows.erase id } else .error (.notFound "smart_folder")

inductive SmartFolderCall where
  | create (name : String) (predicate : Predicate) (now : Int)
  | update (id : Int) (name : String) (predicate : Predicate) (now : Int)
  | delete (id : Int)

/-- The predicate a call writes. -/
def SmartFolderCall.predicate? : SmartFolderCall → Option Predicate
  | create _ predicate _ | update _ _ predicate _ => some predicate
  | delete _ => none

def SmartFolderTable.run (J : JsonText Text) (U : UuidLib) (S : SmartFolderTable Text) :
    SmartFolderCall → Except EngineError (SmartFolderTable Text)
  | .create name predicate now => (S.create J U name predicate now).map (·.1)
  | .update id name predicate now => S.update J U id name predicate now
  | .delete id => S.delete id

end KeysCore
