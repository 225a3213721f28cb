import KeysCore.Lib.Except
import KeysCore.ProjectionReads
import KeysCore.Verify.GroupTree

/-!
# When a projection is a snapshot

`projectAt_snapshot_iff`: an interleaving gives every sequence of committed states a vault that is
the projection of one of them exactly when nothing commits between the first and the last query.
Without a transaction around the queries nothing keeps a commit out; `moved_entry_vanishes` runs the
case in which a group created and filled between the first two queries takes its entry out of the
vault.
-/

namespace KeysCore.Verify

open Lib

/-! ## One state -/

section OneState

variable {c : Committed}

/-- The join puts back the side rows of an entry of the state itself. -/
theorem joinSideTables_const {e : EntryRow} (he : e ∈ c.mirror.entries.rows) :
    joinSideTables (fun _ => c) e = e := by
  have hfind : c.mirror.entries.find? e.uuid = some e := Table.find?_of_mem he
  unfold joinSideTables sideRows
  simp only [hfind, Option.map_some, Option.getD_some]

theorem resolveAttachments_const {l : List (String × List UInt8)} (h : ∀ a ∈ l, a.2 ∈ c.blobs)
    (st : BlobReads) : (resolveAttachments (fun _ => c) st l).1 = l := by
  induction l generalizing st with
  | nil => rfl
  | cons a l ih =>
    have ha : a.2 ∈ c.blobs := h a (by simp)
    have ih := ih fun b hb => h b (List.mem_cons_of_mem _ hb)
    unfold resolveAttachments
    rw [if_pos ha]
    split
    · simp only [ih]
    · simp only [ih]

theorem resolveHistory_const {l : List HistorySnapshot}
    (h : ∀ s ∈ l, ∀ a ∈ s.attachments, a.2 ∈ c.blobs) (st : BlobReads) :
    (resolveHistory (fun _ => c) st l).1 = l := by
  induction l generalizing st with
  | nil => rfl
  | cons s l ih =>
    have hs := resolveAttachments_const (h s (by simp)) st
    have ih := ih fun b hb => h b (List.mem_cons_of_mem _ hb)
    unfold resolveHistory
    simp only [hs, ih]

theorem assembleEntries_const {l : List EntryRow} (h : ∀ e ∈ l, e ∈ c.mirror.entries.rows)
    (st : BlobReads) : assembleEntries (fun _ => c) st l = l := by
  induction l generalizing st with
  | nil => rfl
  | cons e l ih =>
    have he := h e (by simp)
    have ih := ih fun b hb => h b (List.mem_cons_of_mem _ hb)
    unfold assembleEntries
    simp only [joinSideTables_const he, resolveHistory_const (c.past e he), ih]

/-- Query by query on one state, the projection is the projection of that state. -/
theorem projectAt_const (c : Committed) : projectAt (fun _ => c) = c.mirror.project := by
  unfold projectAt Mirror.project
  simp only [assembleEntries_const (fun _ h => h)]
  rfl

end OneState

/-! ## Interleavings -/

section Interleavings

variable (i : Interleaving)

theorem sees_groups_le (p : ReadPoint) : i.sees .groups ≤ i.sees p := by
  apply i.inOrder
  cases p <;> simp [ReadPoint.rank, Prod.Lex.toLex_le_toLex]

theorem sees_le_deletedObjects (p : ReadPoint) : i.sees p ≤ i.sees .deletedObjects := by
  apply i.inOrder
  cases p <;> simp [ReadPoint.rank, Prod.Lex.toLex_le_toLex]

/-- No commit between the first and the last query: all of them see one state. -/
theorem sees_eq_of_quiet (h : i.sees .groups = i.sees .deletedObjects) (p : ReadPoint) :
    i.sees p = i.sees .groups := by
  have h₁ := sees_groups_le i p
  have h₂ := sees_le_deletedObjects i p
  omega

end Interleavings

/-- The first query decides whether there is a vault, and its root. -/
theorem projectAt_root (seen : ReadPoint → Committed) :
    (projectAt seen).map (·.root.info) = (seen .groups).mirror.project.map (·.root.info) := by
  unfold projectAt Mirror.project
  cases loadGroupRows (seen .groups).mirror with
  | error e => rfl
  | ok rows =>
    simp only [bind, Except.bind]
    cases buildGroupTree rows with
    | error e => rfl
    | ok p =>
      obtain ⟨⟨info, entries, groups⟩, bin⟩ := p
      rfl

/-- The last query decides the deleted objects. -/
theorem projectAt_deletedObjects {seen : ReadPoint → Committed} {v : Vault}
    (h : projectAt seen = .ok v) :
    v.deletedObjects = (seen .deletedObjects).mirror.readDeletedObjects := by
  unfold projectAt at h
  obtain ⟨rows, -, h⟩ := except_bind_ok.1 h
  obtain ⟨p, -, h⟩ := except_bind_ok.1 h
  obtain rfl := Except.ok.inj h
  rfl

/-- A vault of one group, before and after a transaction that renames it and records a deletion. -/
def renamedMirror (done : Bool) : Mirror where
  groups := ⟨[{ uuid := 1, parentUuid := none, name := if done then "New" else "Old" }],
    by cases done <;> decide⟩
  tombstones := ⟨if done then [⟨9, none⟩] else [], by cases done <;> decide⟩
  fkParent := by cases done <;> decide
  fkGroup := by cases done <;> decide

/-- A transaction between the first and the last query can tear the vault. -/
theorem torn_of_commit_between (i : Interleaving) (h : i.sees .groups < i.sees .deletedObjects) :
    ∃ committed : Nat → Committed, ∀ n,
      projectAt (fun p => committed (i.sees p)) ≠ (committed n).mirror.project := by
  let committed : Nat → Committed := fun n =>
    (renamedMirror (decide (i.sees .groups < n))).committed
  have hmirror : ∀ n, (committed n).mirror = renamedMirror (decide (i.sees .groups < n)) :=
    fun _ => rfl
  have hfirst : (committed (i.sees .groups)).mirror = renamedMirror false := by
    rw [hmirror]
    simp
  have hlast : (committed (i.sees .deletedObjects)).mirror = renamedMirror true := by
    rw [hmirror]
    simp [h]
  refine ⟨committed, fun n hn => ?_⟩
  have hroot := projectAt_root fun p => committed (i.sees p)
  rw [hn, hfirst, hmirror] at hroot
  cases hv : (committed n).mirror.project with
  | error e =>
    rw [hmirror] at hv
    rw [hv] at hroot
    cases hroot
  | ok v =>
    have hdel := projectAt_deletedObjects (hn.trans hv)
    rw [hlast] at hdel
    rw [hmirror] at hv
    cases hd : decide (i.sees .groups < n) with
    | false =>
      -- the old state has no deleted object
      rw [hd] at hv
      obtain rfl := Except.ok.inj hv
      exact absurd hdel (by decide)
    | true =>
      -- the new state has the new name
      rw [hd] at hroot
      exact absurd hroot (by decide)

/-- **The projection is a snapshot of one committed state, whatever the other connections commit,
exactly when none of their commits falls between its first and its last query.** -/
theorem projectAt_snapshot_iff (i : Interleaving) :
    (∀ committed : Nat → Committed, ∃ n,
      projectAt (fun p => committed (i.sees p)) = (committed n).mirror.project) ↔
      i.sees .groups = i.sees .deletedObjects := by
  constructor
  · intro h
    by_contra hne
    have hlt : i.sees .groups < i.sees .deletedObjects :=
      lt_of_le_of_ne (sees_groups_le i .deletedObjects) hne
    obtain ⟨committed, htorn⟩ := torn_of_commit_between i hlt
    obtain ⟨n, hn⟩ := h committed
    exact htorn n hn
  · intro h committed
    refine ⟨i.sees .groups, ?_⟩
    have hseen : (fun p => committed (i.sees p)) = fun _ => committed (i.sees .groups) := by
      funext p
      rw [sees_eq_of_quiet i h p]
    rw [hseen, projectAt_const]

/-! ## A torn projection -/

/-- Entry `8` in the root. -/
def filingStart : Mirror :=
  { namedRoot with
    entries := ⟨[{ uuid := 8, groupUuid := 1, title := "Mail", password := "secret" }], by decide⟩
    fkGroup := by decide }

/-- The first transaction of the other connection: a new group `2`. -/
def filingCreated : Mirror :=
  ((filingStart.createGroup 1 ⟨"New", "", .builtin 0⟩ default 2).toOption.map (·.1)).getD filingStart

/-- The second: entry `8` moved into it. -/
def filingMoved : Mirror :=
  ((filingCreated.moveEntry 8 2 default).toOption.map (·.1)).getD filingCreated

def filingStates : Nat → Mirror
  | 0 => filingStart
  | 1 => filingCreated
  | _ + 2 => filingMoved

/-- The group rows are read before both transactions, the rest after them. -/
def filingInterleaving : Interleaving where
  sees p := if p = .groups then 0 else 2
  inOrder := by
    intro p q hpq
    cases p <;> cases q <;> simp_all [ReadPoint.rank, Prod.Lex.toLex_le_toLex]

/-- All three committed states hold entry `8`, in group `1` or in group `2`, and project to a vault
with it. The projection that runs across the two transactions returns a vault without it, so it is
the projection of none of them. -/
theorem moved_entry_vanishes :
    (filingStates 0).createGroup 1 ⟨"New", "", .builtin 0⟩ default 2 = .ok (filingStates 1, 2) ∧
      (filingStates 1).moveEntry 8 2 default = .ok (filingStates 2, ⟨1, 2⟩) ∧
      (∀ n, ((filingStates n).project.map fun v => v.entries.map (·.id)) = .ok [8]) ∧
      ((projectAt fun p => (filingStates (filingInterleaving.sees p)).committed).map fun v =>
        v.entries.map (·.id)) = .ok [] ∧
      ¬ ∃ n, (projectAt fun p => (filingStates (filingInterleaving.sees p)).committed) =
        (filingStates n).committed.mirror.project := by
  have hstates : ∀ n, ((filingStates n).project.map fun v => v.entries.map (·.id)) = .ok [8] := by
    intro n
    match n with
    | 0 => decide
    | 1 => decide
    | _ + 2 =>
      show (filingMoved.project.map fun v => v.entries.map (·.id)) = .ok [8]
      decide
  have htorn : ((projectAt fun p => (filingStates (filingInterleaving.sees p)).committed).map fun v =>
      v.entries.map (·.id)) = .ok [] := by
    decide
  refine ⟨rfl, rfl, hstates, htorn, ?_⟩
  rintro ⟨n, hn⟩
  rw [hn] at htorn
  have := (hstates n).symm.trans htorn
  cases this

end KeysCore.Verify
