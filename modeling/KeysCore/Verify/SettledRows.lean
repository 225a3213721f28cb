import KeysCore.Verify.ConflictSettling
import KeysCore.Verify.NoChange
import KeysCore.Verify.VaultIngest

/-!
# Settling the parked rows of an entry

`settle_entry_rows` is a loop of passes. A pass judges the rows of the entry by the local vault: it lands
the first merge that a dissolved row still carries and starts over (`Lands`), or it drops the dissolved
rows and ends (`Ends`). A pass that starts over has dropped a row of the entry and written none
(`Lands.spec`), so the loop has at most one pass more than there are rows, although each landing
rewrites the vault all rows are judged by. `settleEntryRows_settles` says what the loop leaves.
-/

namespace KeysCore.Verify

open Lib

/-- The entry is here, and the merge of the version parked for it finds a conflict. -/
def Clashes (L : VaultMergeLib) (m : Mirror) (v : Vault) (owner : String) (u : Uuid) : Prop :=
  v.root.containsEntry u = true ∧ ∃ theirs outcome, theirsVault m v owner u = some theirs ∧
    L.merge v theirs = .ok outcome ∧ L.clean outcome = false

/-- A row that holds nothing the local vault lacks: the entry is gone, the row cannot be read, or its
merge is clean and leaves the entry as it is. -/
inductive Spent (L : VaultMergeLib) (m : Mirror) (v : Vault) (owner : String) (u : Uuid) : Prop where
  | gone : v.root.findEntry u = none → Spent L m v owner u
  | unreadable : theirsVault m v owner u = none → Spent L m v owner u
  | same {l e : Entry} {merged : Vault} : v.root.findEntry u = some l → Adopts L m v u owner merged →
      merged.root.findEntry u = some e → sameEntry e l = true → Spent L m v owner u

/-- A row whose merge is clean and would change the entry. -/
def Carries (L : VaultMergeLib) (m : Mirror) (v : Vault) (owner : String) (u : Uuid) (merged : Vault) :
    Prop :=
  ∃ l, v.root.findEntry u = some l ∧ Adopts L m v u owner merged ∧
    (merged.root.findEntry u).any (sameEntry · l) = false

/-! ## One row -/

section Row

variable {L : VaultMergeLib} {m m' : Mirror} {v : Vault} {l : Entry} {owner : String} {u : Uuid}

/-- A row is judged by the version parked in it. -/
theorem theirsVault_congr (h : m'.conflicts.find? (owner, u) = m.conflicts.find? (owner, u)) :
    theirsVault m' v owner u = theirsVault m v owner u := by
  unfold theirsVault Mirror.reconstructPeerEntry
  rw [h]

theorem clashes_congr (h : m'.conflicts.find? (owner, u) = m.conflicts.find? (owner, u)) :
    Clashes L m' v owner u ↔ Clashes L m v owner u := by
  unfold Clashes
  rw [theirsVault_congr h]

/-- **What `dissolve_decision` finds about one row.** -/
theorem dissolveRow_spec (hl : v.root.findEntry u = some l) {verdict : RowVerdict}
    (h : dissolveRow L m v l owner u = .ok verdict) :
    match verdict with
    | .live => Clashes L m v owner u
    | .dropped => Spent L m v owner u
    | .adopt merged => Carries L m v owner u merged := by
  unfold dissolveRow at h
  split at h
  · rename_i hnone
    obtain rfl := Except.ok.inj h
    exact .unreadable hnone
  · rename_i theirs htheirs
    obtain ⟨outcome, houtcome, h⟩ := except_bind_ok.1 h
    rw [serialised_ok] at houtcome
    split at h
    · rename_i hclean
      obtain ⟨merged, hmerged, h⟩ := except_bind_ok.1 h
      have hadopts : Adopts L m v u owner merged := ⟨theirs, outcome, htheirs, houtcome, hclean, hmerged⟩
      split at h
      · rename_i hsame
        obtain rfl := Except.ok.inj h
        obtain ⟨e, he, hsame⟩ := (Option.any_eq_true _ _).1 hsame
        exact .same hl hadopts he hsame
      · rename_i hdiffers
        obtain rfl := Except.ok.inj h
        exact ⟨l, hl, hadopts, by simpa using hdiffers⟩
    · rename_i hclash
      obtain rfl := Except.ok.inj h
      refine ⟨?_, theirs, outcome, htheirs, houtcome, by simpa using hclash⟩
      unfold Group.containsEntry
      rw [hl]
      rfl

end Row

/-! ## One pass -/

section Pass

variable {L : VaultMergeLib} {m m' : Mirror} {v : Vault} {u : Uuid}

theorem mem_conflictOwnersFor {owner : String} :
    owner ∈ m.conflictOwnersFor u ↔ Parked m owner u := by
  unfold Mirror.conflictOwnersFor sortStrings Parked
  rw [List.mem_insertionSort, List.mem_map, Table.find?_isSome, Table.mem_keys]
  constructor
  · rintro ⟨r, hr, rfl⟩
    obtain ⟨hr, hu⟩ := List.mem_filter.1 hr
    exact ⟨r, hr, by rw [ConflictRow.key, of_decide_eq_true hu]⟩
  · rintro ⟨r, hr, hkey⟩
    obtain ⟨rfl, rfl⟩ := Prod.mk.inj hkey
    exact ⟨r, List.mem_filter.2 ⟨hr, by simp⟩, rfl⟩

theorem conflictOwnersFor_nodup : (m.conflictOwnersFor u).Nodup := by
  unfold Mirror.conflictOwnersFor sortStrings
  rw [(List.perm_insertionSort _ _).nodup_iff]
  refine List.Nodup.map_on (fun a ha b hb h => ?_) ((List.Nodup.of_map _ m.conflicts.nodup).filter _)
  have hua : a.uuid = u := of_decide_eq_true (List.mem_filter.1 ha).2
  have hub : b.uuid = u := of_decide_eq_true (List.mem_filter.1 hb).2
  exact Table.eq_of_key (List.mem_filter.1 ha).1 (List.mem_filter.1 hb).1
    (Prod.ext h (hua.trans hub.symm))

/-- The judgements of the loop over the owners: what it drops is spent; the merge it adopts would change
the entry; when it adopts none, the rows it does not drop clash. -/
theorem dissolveOwners_spec {l : Entry} (hl : v.root.findEntry u = some l) {owners d dropped : List String}
    {adopt : Option (String × Vault)}
    (h : dissolveOwners L m v l u d owners = .ok (.settle dropped adopt)) :
    (∀ o ∈ d, o ∈ dropped) ∧ (∀ o ∈ dropped, o ∈ d ∨ o ∈ owners ∧ Spent L m v o u) ∧
      (∀ p ∈ adopt, p.1 ∈ owners ∧ Carries L m v p.1 u p.2) ∧
      (adopt = none → ∀ o ∈ owners, o ∈ dropped ∨ Clashes L m v o u) := by
  induction owners generalizing d with
  | nil =>
    obtain ⟨rfl, rfl⟩ := DissolveDecision.settle.inj (Except.ok.inj h)
    refine ⟨fun _ ho => ho, fun _ ho => .inl ho, fun p hp => ?_, fun _ o ho => ?_⟩
    · cases hp
    · cases ho
  | cons o owners ih =>
    unfold dissolveOwners at h
    obtain ⟨verdict, hverdict, h⟩ := except_bind_ok.1 h
    have hrow := dissolveRow_spec hl hverdict
    cases verdict with
    | live =>
      obtain ⟨hkept, hdropped, hadopt, hlive⟩ := ih h
      refine ⟨hkept, fun x hx => (hdropped x hx).imp_right fun hx => ⟨.tail _ hx.1, hx.2⟩,
        fun p hp => ⟨.tail _ (hadopt p hp).1, (hadopt p hp).2⟩, fun hnone x hx => ?_⟩
      rcases List.mem_cons.1 hx with rfl | hx
      · exact .inr hrow
      · exact hlive hnone x hx
    | dropped =>
      obtain ⟨hkept, hdropped, hadopt, hlive⟩ := ih h
      refine ⟨fun x hx => hkept x (List.mem_append_left _ hx), fun x hx => ?_,
        fun p hp => ⟨.tail _ (hadopt p hp).1, (hadopt p hp).2⟩, fun hnone x hx => ?_⟩
      · rcases hdropped x hx with hx | hx
        · rcases List.mem_append.1 hx with hx | hx
          · exact .inl hx
          · obtain rfl := List.mem_singleton.1 hx
            exact .inr ⟨.head _, hrow⟩
        · exact .inr ⟨.tail _ hx.1, hx.2⟩
      · rcases List.mem_cons.1 hx with rfl | hx
        · exact .inl (hkept _ (by simp))
        · exact hlive hnone x hx
    | adopt merged =>
      obtain ⟨rfl, rfl⟩ := DissolveDecision.settle.inj (Except.ok.inj h)
      refine ⟨fun _ ho => ho, fun _ ho => .inl ho, fun p hp => ?_, fun hnone => ?_⟩
      · obtain rfl := Option.some.inj hp
        exact ⟨.head _, hrow⟩
      · cases hnone

theorem dropConflictOwners_find (m : Mirror) (u w : Uuid) (owners : List String) (o : String) :
    (m.dropConflictOwners u owners).conflicts.find? (o, w) =
      if w = u ∧ o ∈ owners then none else m.conflicts.find? (o, w) := by
  induction owners generalizing m with
  | nil => simp [Mirror.dropConflictOwners]
  | cons a owners ih =>
    have hone : (m.dropConflictRow a u).conflicts.find? (o, w) =
        if (o, w) = (a, u) then none else m.conflicts.find? (o, w) :=
      Table.find?_erase m.conflicts (a, u) (o, w)
    have hstep : m.dropConflictOwners u (a :: owners) =
        (m.dropConflictRow a u).dropConflictOwners u owners := rfl
    rw [hstep, ih, hone]
    simp only [Prod.mk.injEq, List.mem_cons]
    by_cases hw : w = u <;> by_cases ho : o = a <;> simp [hw, ho]

theorem dropConflictRows_find (m : Mirror) (u w : Uuid) (o : String) :
    (m.dropConflictRows u).conflicts.find? (o, w) =
      if w = u then none else m.conflicts.find? (o, w) := by
  unfold Mirror.dropConflictRows
  rw [Table.find?_delete]
  cases h : m.conflicts.find? (o, w) with
  | none => simp
  | some r =>
    have hkey : r.key = (o, w) := Table.find?_key h
    have hw : r.uuid = w := (Prod.mk.inj hkey).2
    by_cases e : w = u <;> simp [hw, e]

theorem dissolveOwners_ne_dropAll {l : Entry} {owners d : List String} :
    dissolveOwners L m v l u d owners ≠ .ok .dropAll := by
  intro h
  induction owners generalizing d with
  | nil => cases h
  | cons o owners ih =>
    unfold dissolveOwners at h
    obtain ⟨verdict, -, h⟩ := except_bind_ok.1 h
    cases verdict with
    | live => exact ih h
    | dropped => exact ih h
    | adopt => cases h

theorem dissolveDecision_dropAll {owners : List String}
    (h : dissolveDecision L m v u owners = .ok .dropAll) : v.root.findEntry u = none := by
  unfold dissolveDecision at h
  split at h
  · assumption
  · exact absurd h dissolveOwners_ne_dropAll

theorem dissolveDecision_settle {owners dropped : List String} {adopt : Option (String × Vault)}
    (h : dissolveDecision L m v u owners = .ok (.settle dropped adopt)) :
    ∃ l, v.root.findEntry u = some l ∧
      dissolveOwners L m v l u [] owners = .ok (.settle dropped adopt) := by
  unfold dissolveDecision at h
  split at h
  · cases h
  · exact ⟨_, ‹_›, h⟩

/-- A pass that lands `p.2`, the merge its owner's row still carries: the rows that have dissolved are
dropped, the vault tables are those of the merge, and the row it settles is dropped. -/
def Lands (L : VaultMergeLib) (u : Uuid) (x : Mirror × Vault) (p : String × Vault) (m' : Mirror) : Prop :=
  ∃ dropped mid, dissolveDecision L x.1 x.2 u (x.1.conflictOwnersFor u) = .ok (.settle dropped (some p)) ∧
    ingestVault p.2 (x.1.dropConflictOwners u dropped) = .ok mid ∧ m' = mid.dropConflictRow p.1 u

/-- The pass that ends the loop, which at most drops rows: all of them when the entry is gone, else those
that have dissolved. -/
inductive Ends (L : VaultMergeLib) (u : Uuid) (x : Mirror × Vault) : Mirror → Prop where
  | noRows : x.1.conflictOwnersFor u = [] → Ends L u x x.1
  | gone : dissolveDecision L x.1 x.2 u (x.1.conflictOwnersFor u) = .ok .dropAll →
      Ends L u x (x.1.dropConflictRows u)
  | settled {dropped : List String} :
      dissolveDecision L x.1 x.2 u (x.1.conflictOwnersFor u) = .ok (.settle dropped none) →
      Ends L u x (x.1.dropConflictOwners u dropped)

/-- The rows of `u` that remain are rows that were there, and those of other entries are the same. -/
structure RowsLeft (u : Uuid) (m m' : Mirror) : Prop where
  others : ∀ o w, w ≠ u → m'.conflicts.find? (o, w) = m.conflicts.find? (o, w)
  kept : ∀ o, Parked m' o u → m'.conflicts.find? (o, u) = m.conflicts.find? (o, u)

namespace RowsLeft

theorem refl (u : Uuid) (m : Mirror) : RowsLeft u m m := ⟨fun _ _ _ => rfl, fun _ _ => rfl⟩

theorem parked (h : RowsLeft u m m') {o : String} (hp : Parked m' o u) : Parked m o u := by
  unfold Parked
  rw [← h.kept o hp]
  exact hp

theorem trans {m'' : Mirror} (h : RowsLeft u m m') (h' : RowsLeft u m' m'') : RowsLeft u m m'' :=
  ⟨fun o w hw => (h'.others o w hw).trans (h.others o w hw),
    fun o hp => (h'.kept o hp).trans (h.kept o (h'.parked hp))⟩

/-- Fewer owners have a row. -/
theorem length_lt (h : RowsLeft u m m') {o : String} (ho : Parked m o u) (ho' : ¬ Parked m' o u) :
    (m'.conflictOwnersFor u).length < (m.conflictOwnersFor u).length := by
  refine (List.subperm_of_subset conflictOwnersFor_nodup fun x hx => ?_).length_le.lt_of_ne fun he => ?_
  · exact mem_conflictOwnersFor.2 (h.parked (mem_conflictOwnersFor.1 hx))
  · have hperm : (m'.conflictOwnersFor u).Perm (m.conflictOwnersFor u) :=
      (List.subperm_of_subset conflictOwnersFor_nodup fun x hx =>
        mem_conflictOwnersFor.2 (h.parked (mem_conflictOwnersFor.1 hx))).perm_of_length_le he.ge
    exact ho' (mem_conflictOwnersFor.1 (hperm.mem_iff.2 (mem_conflictOwnersFor.2 ho)))

end RowsLeft

theorem rowsLeft_dropOwners (m : Mirror) (u : Uuid) (owners : List String) :
    RowsLeft u m (m.dropConflictOwners u owners) := by
  refine ⟨fun o w hw => ?_, fun o hp => ?_⟩
  · rw [dropConflictOwners_find, if_neg fun h => hw h.1]
  · unfold Parked at hp
    rw [dropConflictOwners_find] at hp ⊢
    by_cases ho : u = u ∧ o ∈ owners
    · simp [ho] at hp
    · rw [if_neg ho]

theorem rowsLeft_dropAll (m : Mirror) (u : Uuid) : RowsLeft u m (m.dropConflictRows u) := by
  refine ⟨fun o w hw => ?_, fun o hp => ?_⟩
  · rw [dropConflictRows_find, if_neg hw]
  · unfold Parked at hp
    rw [dropConflictRows_find, if_pos rfl] at hp
    cases hp

theorem lands_of_landed {d : DissolveDecision}
    (hd : dissolveDecision L m v u (m.conflictOwnersFor u) = .ok d)
    (ha : applyDissolve u m d = .ok (m', true)) : ∃ p, Lands L u (m, v) p m' := by
  cases d with
  | dropAll => cases ha
  | settle dropped adopt =>
    cases adopt with
    | none => cases ha
    | some p =>
      obtain ⟨mid, hmid, ha⟩ := except_bind_ok.1 ha
      obtain ⟨rfl, -⟩ := Prod.mk.inj (Except.ok.inj ha)
      exact ⟨p, dropped, mid, hd, hmid, rfl⟩

theorem ends_of_unlanded {d : DissolveDecision}
    (hd : dissolveDecision L m v u (m.conflictOwnersFor u) = .ok d)
    (ha : applyDissolve u m d = .ok (m', false)) : Ends L u (m, v) m' := by
  cases d with
  | dropAll =>
    obtain ⟨rfl, -⟩ := Prod.mk.inj (Except.ok.inj ha)
    exact .gone hd
  | settle dropped adopt =>
    cases adopt with
    | none =>
      obtain ⟨rfl, -⟩ := Prod.mk.inj (Except.ok.inj ha)
      exact .settled hd
    | some p =>
      obtain ⟨_, -, ha⟩ := except_bind_ok.1 ha
      cases ha

/-- **What a landing puts into the mirror** is the merge, ingested over what was there. -/
theorem Lands.ingests {x : Mirror × Vault} {p : String × Vault} (h : Lands L u x p m') :
    ∃ before after, SameContent x.1 before ∧ ingestVault p.2 before = .ok after ∧
      SameContent after m' := by
  obtain ⟨dropped, mid, -, hmid, rfl⟩ := h
  exact ⟨_, mid, dropConflictOwners_sameContent x.1 u dropped, hmid, rfl, rfl, rfl, rfl⟩

/-- **A pass that goes on.** The merge it lands is that of a row of the entry, which is gone after the
pass; the other rows it drops are spent, and it writes none. -/
theorem Lands.spec {x : Mirror × Vault} {p : String × Vault} (h : Lands L u x p m') :
    RowsLeft u x.1 m' ∧ Parked x.1 p.1 u ∧ ¬ Parked m' p.1 u ∧ Carries L x.1 x.2 p.1 u p.2 ∧
      ∀ o, Parked x.1 o u → ¬ Parked m' o u → o = p.1 ∨ Spent L x.1 x.2 o u := by
  obtain ⟨m, v⟩ := x
  obtain ⟨owner, merged⟩ := p
  obtain ⟨dropped, mid, hdecision, hmid, rfl⟩ := h
  obtain ⟨l, hl, howners⟩ := dissolveDecision_settle hdecision
  obtain ⟨-, hdropped, hadopt, -⟩ := dissolveOwners_spec hl howners
  obtain ⟨howner, hcarries⟩ := hadopt _ rfl
  have hfind : ∀ o w, (mid.dropConflictRow owner u).conflicts.find? (o, w) =
      if w = u ∧ o ∈ dropped ++ [owner] then none else m.conflicts.find? (o, w) := by
    intro o w
    rw [← dropConflictOwners_find, Mirror.dropConflictOwners, List.foldl_append]
    have hconf : mid.conflicts = (m.dropConflictOwners u dropped).conflicts :=
      (ingestVaultWithHeader_meta hmid).2
    unfold Mirror.dropConflictRow
    rw [hconf]
    rfl
  have hleft : RowsLeft u m (mid.dropConflictRow owner u) := by
    have hdrop := rowsLeft_dropOwners m u (dropped ++ [owner])
    refine ⟨fun o w hw => ?_, fun o hp => ?_⟩
    · rw [hfind, if_neg fun h => hw h.1]
    · unfold Parked at hp
      rw [hfind, ← dropConflictOwners_find] at hp ⊢
      exact hdrop.kept o hp
  refine ⟨hleft, mem_conflictOwnersFor.1 howner, ?_, hcarries, fun o ho hgone => ?_⟩
  · unfold Parked
    rw [hfind]
    simp
  · unfold Parked at hgone
    rw [hfind] at hgone
    by_cases hmem : u = u ∧ o ∈ dropped ++ [owner]
    · rcases List.mem_append.1 hmem.2 with hmem | hmem
      · exact .inr ((hdropped o hmem).resolve_left (List.not_mem_nil)).2
      · exact .inl (List.mem_singleton.1 hmem)
    · rw [if_neg hmem] at hgone
      exact absurd ho hgone

/-- **The pass that ends the loop.** It drops spent rows only, and each row it leaves clashes. -/
theorem Ends.spec {x : Mirror × Vault} (h : Ends L u x m') :
    SameContent x.1 m' ∧ RowsLeft u x.1 m' ∧ (∀ o, Parked m' o u → Clashes L m' x.2 o u) ∧
      ∀ o, Parked x.1 o u → ¬ Parked m' o u → Spent L x.1 x.2 o u := by
  obtain ⟨m, v⟩ := x
  cases h with
  | noRows hnone =>
    refine ⟨.refl _, .refl _ _, fun o ho => ?_, fun o ho ho' => absurd ho ho'⟩
    have hmem := mem_conflictOwnersFor.2 ho
    rw [hnone] at hmem
    cases hmem
  | gone hdecision =>
    refine ⟨⟨rfl, rfl, rfl, rfl⟩, rowsLeft_dropAll m u, fun o ho => ?_,
      fun o _ _ => .gone (dissolveDecision_dropAll hdecision)⟩
    unfold Parked at ho
    rw [dropConflictRows_find, if_pos rfl] at ho
    cases ho
  | @settled dropped hdecision =>
    obtain ⟨l, hl, howners⟩ := dissolveDecision_settle hdecision
    obtain ⟨-, hdropped, -, hlive⟩ := dissolveOwners_spec hl howners
    have hleft := rowsLeft_dropOwners m u dropped
    refine ⟨dropConflictOwners_sameContent m u dropped, hleft, fun o ho => ?_, fun o ho hgone => ?_⟩
    · rw [clashes_congr (hleft.kept o ho)]
      refine (hlive rfl o (mem_conflictOwnersFor.2 (hleft.parked ho))).resolve_left fun hmem => ?_
      unfold Parked at ho
      rw [dropConflictOwners_find, if_pos ⟨rfl, hmem⟩] at ho
      cases ho
    · by_contra hspent
      refine hgone ?_
      unfold Parked
      rw [dropConflictOwners_find, if_neg fun h => ?_]
      · exact ho
      · exact hspent ((hdropped o h.2).resolve_left List.not_mem_nil).2

end Pass

/-! ## The loop -/

/-- The loop of `settle_entry_rows`, with no fuel: it ends with the mirror, its projection and whether a
merge was landed, or with the error of one of its calls. -/
inductive Settling (L : VaultMergeLib) (u : Uuid) :
    Mirror × Vault × Bool → Except EngineError (Mirror × Vault × Bool) → Prop where
  | ended {m m' : Mirror} {v : Vault} {adopted : Bool} : Ends L u (m, v) m' →
      Settling L u (m, v, adopted) (.ok (m', v, adopted))
  | again {m m₁ : Mirror} {v v₁ : Vault} {adopted : Bool} {p : String × Vault}
      {r : Except EngineError (Mirror × Vault × Bool)} : Lands L u (m, v) p m₁ →
      m₁.project = .ok v₁ → Settling L u (m₁, v₁, true) r → Settling L u (m, v, adopted) r
  | judgeFails {m : Mirror} {v : Vault} {adopted : Bool} {e : EngineError} :
      dissolveDecision L m v u (m.conflictOwnersFor u) = .error e → Settling L u (m, v, adopted) (.error e)
  | applyFails {m : Mirror} {v : Vault} {adopted : Bool} {d : DissolveDecision} {e : EngineError} :
      dissolveDecision L m v u (m.conflictOwnersFor u) = .ok d → applyDissolve u m d = .error e →
      Settling L u (m, v, adopted) (.error e)
  | projectFails {m m₁ : Mirror} {v : Vault} {adopted : Bool} {p : String × Vault} {e : EngineError} :
      Lands L u (m, v) p m₁ → m₁.project = .error e → Settling L u (m, v, adopted) (.error e)

/-- The merges landed one after the other, each on the mirror and the projection the last one left. -/
inductive Landings (L : VaultMergeLib) (u : Uuid) :
    Mirror × Vault → List (String × Vault) → Mirror × Vault → Prop where
  | nil (x : Mirror × Vault) : Landings L u x [] x
  | cons {x y : Mirror × Vault} {p : String × Vault} {m₁ : Mirror} {v₁ : Vault}
      {landed : List (String × Vault)} : Lands L u x p m₁ → m₁.project = .ok v₁ →
      Landings L u (m₁, v₁) landed y → Landings L u x (p :: landed) y

/-- What settling the rows of `u` leaves of the mirror and vault `x`, when it landed `landed`. -/
structure Settled (L : VaultMergeLib) (u : Uuid) (x : Mirror × Vault) (landed : List (String × Vault))
    (x' : Mirror × Vault) : Prop where
  run : ∃ y, Landings L u x landed y ∧ Ends L u y x'.1 ∧ x'.2 = y.2
  /-- The vault the rows were judged by last is what the mirror left projects to. -/
  projects : x.1.project = .ok x.2 → x'.1.project = .ok x'.2
  left : RowsLeft u x.1 x'.1
  /-- Each row that remains clashes with the vault left. -/
  clashes : ∀ o, Parked x'.1 o u → Clashes L x'.1 x'.2 o u
  /-- Each row dropped held nothing more when it was judged, or its merge is the next that was landed. -/
  dropped : ∀ o, Parked x.1 o u → ¬ Parked x'.1 o u →
    ∃ before y, Landings L u x before y ∧ y.1.conflicts.find? (o, u) = x.1.conflicts.find? (o, u) ∧
      ((Spent L y.1 y.2 o u ∧ before <+: landed) ∨
        ∃ merged, Carries L y.1 y.2 o u merged ∧ before ++ [(o, merged)] <+: landed)

section Loop

variable {L : VaultMergeLib} {u : Uuid}

/-- **With fuel for the rows there are, the loop runs to its end.** Each pass that goes on takes a row. -/
theorem settleLoop_settling {fuel : Nat} {m : Mirror} {v : Vault} {adopted : Bool}
    (hfuel : (m.conflictOwnersFor u).length < fuel) :
    Settling L u (m, v, adopted) (settleLoop L u fuel (m, v, adopted)) := by
  induction fuel generalizing m v adopted with
  | zero => omega
  | succ fuel ih =>
    unfold settleLoop
    dsimp only
    split
    · rename_i hnone
      exact .ended (.noRows (List.isEmpty_iff.1 hnone))
    cases hd : dissolveDecision L m v u (m.conflictOwnersFor u) with
    | error e => exact .judgeFails hd
    | ok d =>
      cases ha : applyDissolve u m d with
      | error e => simpa [bind, Except.bind, ha] using Settling.applyFails hd ha
      | ok r =>
        obtain ⟨m₁, landed⟩ := r
        cases landed with
        | false =>
          simpa [bind, Except.bind, ha, pure, Except.pure] using Settling.ended (ends_of_unlanded hd ha)
        | true =>
          obtain ⟨p, hlands⟩ := lands_of_landed hd ha
          cases hv : m₁.project with
          | error e => simpa [bind, Except.bind, ha, hv] using Settling.projectFails hlands hv
          | ok v₁ =>
            obtain ⟨hleft, hp, hgone, -, -⟩ := hlands.spec
            have hless : (m₁.conflictOwnersFor u).length < (m.conflictOwnersFor u).length :=
              hleft.length_lt hp hgone
            have hrest : Settling L u (m₁, v₁, true) (settleLoop L u fuel (m₁, v₁, true)) :=
              ih (by omega)
            simpa [bind, Except.bind, ha, hv] using Settling.again hlands hv hrest

theorem Settled.of_ends {x : Mirror × Vault} {m' : Mirror} (h : Ends L u x m') :
    Settled L u x [] (m', x.2) := by
  obtain ⟨hsame, hleft, hclash, hspent⟩ := h.spec
  refine ⟨⟨x, .nil x, h, rfl⟩, fun hv => ?_, hleft, hclash, fun o ho hgone => ?_⟩
  · rw [hsame.project]
    exact hv
  · exact ⟨[], x, .nil x, rfl, .inl ⟨hspent o ho hgone, List.nil_prefix⟩⟩

theorem Settled.cons {x x' : Mirror × Vault} {p : String × Vault} {m₁ : Mirror} {v₁ : Vault}
    {landed : List (String × Vault)} (hlands : Lands L u x p m₁) (hv : m₁.project = .ok v₁)
    (h : Settled L u (m₁, v₁) landed x') : Settled L u x (p :: landed) x' := by
  obtain ⟨hleft, -, -, hcarries, hspent⟩ := hlands.spec
  obtain ⟨y, hrun, hends, hy⟩ := h.run
  refine ⟨⟨y, .cons hlands hv hrun, hends, hy⟩, fun _ => h.projects hv, hleft.trans h.left, h.clashes,
    fun o ho hgone => ?_⟩
  by_cases hmid : Parked m₁ o u
  · -- The row was still there when the loop started over.
    obtain ⟨before, z, hbefore, hrow, hz⟩ := h.dropped o hmid hgone
    refine ⟨p :: before, z, .cons hlands hv hbefore, hrow.trans (hleft.kept o hmid), ?_⟩
    refine hz.imp (fun hz => ⟨hz.1, (List.prefix_cons_inj p).2 hz.2⟩) ?_
    rintro ⟨merged, hm, hpre⟩
    exact ⟨merged, hm, (List.prefix_cons_inj p).2 hpre⟩
  · refine ⟨[], x, .nil x, rfl, ?_⟩
    rcases hspent o ho hmid with rfl | hsp
    · exact .inr ⟨p.2, hcarries, (List.prefix_cons_inj p).2 List.nil_prefix⟩
    · exact .inl ⟨hsp, List.nil_prefix⟩

/-- **What a run that returns has settled.** By the run: its last pass, and one landing before the rest. -/
theorem Settling.settled {x : Mirror × Vault × Bool} {r : Except EngineError (Mirror × Vault × Bool)}
    (h : Settling L u x r) {m' : Mirror} {v' : Vault} {flag : Bool} (hr : r = .ok (m', v', flag)) :
    ∃ landed, Settled L u (x.1, x.2.1) landed (m', v') ∧ flag = (x.2.2 || !landed.isEmpty) := by
  induction h with
  | ended hends =>
    cases hr
    exact ⟨[], .of_ends hends, by simp⟩
  | @again m m₁ v v₁ adopted p r hlands hv _ ih =>
    obtain ⟨landed, hsettled, hflag⟩ := ih hr
    exact ⟨p :: landed, .cons hlands hv hsettled, by simp [hflag]⟩
  | judgeFails => cases hr
  | applyFails => cases hr
  | projectFails => cases hr

end Loop

end KeysCore.Verify
