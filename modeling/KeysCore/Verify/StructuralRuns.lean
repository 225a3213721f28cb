import KeysCore.Verify.Projection

/-!
# Runs of structural operations

Any sequence of the structural operations, each committed before the next. `structural_run_iff`:
along a run from a tree, every state reached is a tree whose projection is complete if and only if
every step was safe. `recycle_above_bin_loses_groups` runs the step that is not: recycling a group
that holds the bin makes the two each other's ancestor, and the projection drops both with what
they hold.
-/

namespace KeysCore.Verify

open Lib Lib.Forest

/-- A run from `m`: the operations in order, each with the mirror it committed. -/
inductive Run : Mirror → List (StructuralOp × Mirror) → Prop where
  | nil (m : Mirror) : Run m []
  | cons {m m' : Mirror} {op : StructuralOp} {t : List (StructuralOp × Mirror)} :
      op.run m = .ok m' → Run m' t → Run m ((op, m') :: t)

/-- Every step of the run was safe in the state it started from. -/
def SafeRun : Mirror → List (StructuralOp × Mirror) → Prop
  | _, [] => True
  | m, (op, m') :: t => op.Safe m ∧ SafeRun m' t

/-- Nothing is left out of the vault the mirror projects to, and it projects unless a
`sort_order` has left `u32`. -/
structure ProjectsWhole (m : Mirror) : Prop where
  attached : ∀ v, m.project = .ok v → Attached m v
  returns : (∀ g ∈ m.groups.rows, 0 ≤ g.sortOrder ∧ g.sortOrder < 2 ^ 32) → ∃ v, m.project = .ok v

theorem GroupTree.projectsWhole {m : Mirror} (h : GroupTree m) : ProjectsWhole m :=
  ⟨fun _ hv => project_attaches h hv, (project_ok_iff h).2⟩

/-- **A run keeps the group tree, and with it the completeness of the projection, exactly when
every step is safe.** -/
theorem structural_run_iff {m : Mirror} {t : List (StructuralOp × Mirror)} (ht : GroupTree m)
    (hrun : Run m t) :
    (∀ s ∈ t, GroupTree s.2 ∧ ProjectsWhole s.2) ↔ SafeRun m t := by
  induction hrun with
  | nil m => simp [SafeRun]
  | cons hstep hrest ih =>
    rename_i m m' op t
    have hone := op.run_groupTree_iff hstep ht
    constructor
    · intro h
      have hm' := (h (op, m') (by simp)).1
      exact ⟨hone.1 hm', (ih hm').1 fun s hs => h s (List.mem_cons_of_mem _ hs)⟩
    · rintro ⟨hsafe, hsafe'⟩ s hs
      have hm' := hone.2 hsafe
      rcases List.mem_cons.1 hs with rfl | hs
      · exact ⟨hm', hm'.projectsWhole⟩
      · exact (ih hm').2 hsafe' s hs

/-! ## A small vault -/

/-- Root `1`, group `2` under it with entry `9`, group `3` under `2`; `3` is the bin when `bin`. -/
def nestedMirror (bin : Bool) : Mirror where
  groups := ⟨[
    { uuid := 1, parentUuid := none, name := "Root" },
    { uuid := 2, parentUuid := some 1, name := "Work" },
    { uuid := 3, parentUuid := some 2, name := "Old", isRecycleBin := bin }],
    by cases bin <;> decide⟩
  entries := ⟨[{ uuid := 9, groupUuid := 2, title := "Mail" }], by decide⟩
  fkParent := by cases bin <;> decide
  fkGroup := by cases bin <;> decide

theorem nestedMirror_groupTree (bin : Bool) : GroupTree (nestedMirror bin) := by
  refine groupTree_iff.2 ⟨1, ?_, rfl, fun _ hp => (mem_keys_of_parentOf hp).2, ?_⟩
  · exact List.mem_map.2 ⟨_, List.mem_cons_self .., rfl⟩
  · intro x hx
    have hx : x = 1 ∨ x = 2 ∨ x = 3 := by
      simpa [nestedMirror, Table.keys] using hx
    rcases hx with rfl | rfl | rfl
    · exact ⟨0, rfl⟩
    · exact ⟨1, rfl⟩
    · exact ⟨2, rfl⟩

/-- The mirror an operation leaves, the old one when it fails. -/
def StructuralOp.next (m : Mirror) (op : StructuralOp) : Mirror := (op.run m).toOption.getD m

theorem StructuralOp.run_next {m : Mirror} {op : StructuralOp} (h : (op.run m).isOk = true) :
    op.run m = .ok (op.next m) := by
  cases hr : op.run m with
  | error e => rw [hr] at h; cases h
  | ok m' => rw [StructuralOp.next, hr]; rfl

/-- Moving group `3` to the root and deleting it there are two safe steps. -/
theorem structural_run_tidy :
    let m := nestedMirror false
    let m₁ := (StructuralOp.moveGroup 3 1 default).next m
    let m₂ := (StructuralOp.deleteGroup 3 default).next m₁
    ∀ s ∈ [(StructuralOp.moveGroup 3 1 default, m₁), (StructuralOp.deleteGroup 3 default, m₂)],
      GroupTree s.2 ∧ ProjectsWhole s.2 := by
  intro m m₁ m₂
  refine (structural_run_iff (nestedMirror_groupTree false) ?_).2 ?_
  · exact .cons (StructuralOp.run_next (by decide))
      (.cons (StructuralOp.run_next (by decide)) (.nil _))
  · refine ⟨trivial, ?_, trivial⟩
    show m₁.parentOf 3 ≠ none
    decide

/-- Recycling the group above the bin returns, closes a cycle through the bin, and the projection
of the result has lost both groups and the entry without an error. -/
theorem recycle_above_bin_loses_groups :
    let m := nestedMirror true
    let op := StructuralOp.recycleGroup 2 default
    GroupTree m ∧ Run m [(op, op.next m)] ∧ ¬ GroupTree (op.next m) ∧
      ((op.next m).groups.keys = [1, 2, 3] ∧ (op.next m).entries.keys = [9]) ∧
      ((op.next m).project.map fun v => (v.groups.map (·.info.id), v.entries.map (·.id))) =
        .ok ([1], []) := by
  intro m op
  refine ⟨nestedMirror_groupTree true, .cons (StructuralOp.run_next (by decide)) (.nil _), ?_, ?_, ?_⟩
  · intro h
    exact h.acyclic 2 1 (by decide)
  · decide
  · decide

end KeysCore.Verify
