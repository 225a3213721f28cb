import KeysCore.Attachments
import KeysCore.PeerIngest

/-!
# Entries by reference

In a vault the attachments of an entry and of its history records are indices into the vault's binary
pool, and an index may dangle. The other modules carry the bytes in place of the index; here are the
functions of the ingest that read the pools, on entries as the vault holds them: the comparison of two
histories and the fold of one into the other. `RefVersion.inlined` is the version the other modules
see.

The folds of keepass-merge work on pools as well: they are the parameter `FoldLib`.
-/

namespace KeysCore

open Lib

/-! ## Pools -/

/-- An element of a binary pool. -/
structure Binary where
  data : List UInt8
  isProtected : Bool
deriving DecidableEq

/-- An entry without its history, the attachments as references. -/
structure RefVersion where
  facets : EntryVersion
  attachments : List AttachmentRef := []
  facets_attachments : facets.attachments = [] := by rfl
deriving DecidableEq

/-- An entry with its history, oldest record first. -/
structure RefEntry extends RefVersion where
  history : List RefVersion := []
deriving DecidableEq

/-- What a reference is bound to, if it does not dangle. -/
def AttachmentRef.bound (pool : List Binary) (a : AttachmentRef) : Option Attachment :=
  pool[a.refId]?.map fun b => ⟨a.name, b.data, b.isProtected⟩

/-- No attachment of the version dangles. -/
def RefVersion.Resolves (pool : List Binary) (v : RefVersion) : Prop :=
  ∀ a ∈ v.attachments, a.refId < pool.length

/-- No attachment of the history dangles. -/
def RefEntry.Resolves (pool : List Binary) (e : RefEntry) : Prop :=
  ∀ v ∈ e.history, v.Resolves pool

/-- The attachments of a version, unless a reference dangles. -/
def RefVersion.bound? (pool : List Binary) (v : RefVersion) : Option (List Attachment) :=
  v.attachments.mapM (AttachmentRef.bound pool)

/-- The version with the bytes in place of the references; one that dangles is skipped. -/
def RefVersion.inlined (pool : List Binary) (v : RefVersion) : EntryVersion :=
  { v.facets with attachments := v.attachments.filterMap (AttachmentRef.bound pool) }

def RefEntry.inlined (pool : List Binary) (e : RefEntry) : Entry :=
  { e.toRefVersion.inlined pool with history := e.history.map (RefVersion.inlined pool) }

/-! ## Comparing histories -/

/-- An entry beside the pool it refers to. -/
abbrev InPool (α : Type) := α × List Binary

namespace InPool

/-- `same_content`: the same version, with equal attachments that all resolve. -/
def sameContent (a b : InPool RefVersion) : Bool :=
  sameVersion a.1.facets b.1.facets &&
    match a.1.bound? a.2, b.1.bound? b.2 with
    | some x, some y => x.isPerm y
    | _, _ => false

/-- The floored modification time of a version. -/
def second (v : RefVersion) : Option DateTime :=
  v.facets.times.lastModificationTime.map (·.floorToSecond)

/-- Does the history of `side` hold a twin of `x`? -/
def hasTwin (x : InPool RefVersion) (side : InPool RefEntry) : Bool :=
  side.1.history.any fun y => second x.1 = second y && sameContent x (y, side.2)

/-- `histories_identical`: equally many records, each with a twin on the other side. -/
def historiesIdentical (a b : InPool RefEntry) : Bool :=
  a.1.history.length = b.1.history.length && a.1.history.all (fun x => hasTwin (x, a.2) b) &&
    b.1.history.all (fun y => hasTwin (y, b.2) a)

end InPool

def RefEntry.hasHistoryTombstone (e : RefEntry) : Bool :=
  e.facets.customData.any (·.key = tombstoneCustomDataKey)

/-! ## Folding -/

/-- The folds of keepass-merge on entries by reference. A function that changes an entry or a pool in
place returns it with what it reports. -/
structure FoldLib where
  foldEntryHistory : RefEntry → RefEntry → List Binary → List Binary →
    Except String (RefEntry × List Binary × Bool)
  pruneHistoryWithTombstones : RefEntry → Int → Int → List Binary → DateTime →
    Except String (RefEntry × Nat)
  computeHistoryDropCount : List RefVersion → Int → Int → Nat

section Folding

variable (F : FoldLib) (ctx : HistoryFoldContext) (base other : InPool RefEntry)
  (basePool : Option (List Binary))

/-- The condition of the early return: no tombstones, the same history, within the caps. -/
def converged : Bool :=
  !base.1.hasHistoryTombstone && !other.1.hasHistoryTombstone &&
    InPool.historiesIdentical base other &&
    F.computeHistoryDropCount base.1.history ctx.maxItems ctx.maxSize = 0

/-- The fold of the two histories and the trim, with the grown pool and whether the history is
another. -/
def foldedInPool : Except EngineError (RefEntry × List Binary × Bool) := do
  let (merged, pool, folded) ←
    serialised (F.foldEntryHistory base.1 other.1 (basePool.getD base.2) other.2)
  let (merged, trimmed) ←
    serialised (F.pruneHistoryWithTombstones merged ctx.maxItems ctx.maxSize pool ctx.now)
  return (merged, pool,
    folded || 0 < trimmed || merged.history.length ≠ base.1.history.length)

/-- `fold_entry_history_into_mirror`, with the pass's copy of the base's pool. -/
def foldInPoolIntoMirror (m : Mirror) :
    Except EngineError (Mirror × Option (List Binary) × Bool) :=
  if converged F ctx base other then .ok (m, basePool, false)
  else do
    let (merged, pool, changed) ← foldedInPool F ctx base other basePool
    if changed then return (← m.persistEntryHistory (merged.inlined pool), some pool, true)
    else return (m, some pool, false)

end Folding

end KeysCore
