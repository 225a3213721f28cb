import Mathlib
import KeysCore.KdfCost
import KeysCore.Lib.LittleEndian

/-!
# The KDF-cost gate over runs

What the gate sees of a state is its `view`: the recorded cost, the derivations and the last files. The
rows a re-ingest clears and the rows a merge writes are not those of the facts, so only an ingest of a
file and a refresh of the facts move the recorded cost (`writeKdbxOuterHeaderFacts_spec`,
`refreshKdbxOuterHeaderFacts_spec`). From what each operation does to the view (`KdfOp.run_spec`)
follows by induction what a run does (`recorded_cost_follows_files`): the recorded cost is that of the
last file whose recording went through, or of one whose recording was cut short since, and every key
derivation was on a file the gate allows.
-/

namespace KeysCore.Verify.KdfGate

open Std.Do KeysCore.KdfGate Lib

set_option mvcgen.warning false

/-! ## The rows of the facts -/

theorem ofLeBytes_leBytes (n : UInt64) : ofLeBytes (leBytes n) = some n := by
  have hlt : n.toNat < 256 ^ 8 := n.toNat_lt
  have hsum : (leBytes n).foldr (fun b k => b.toNat + 256 * k) 0 = n.toNat := by
    rw [← ofLittleEndian_eq_foldr, leBytes, ← littleEndian_eq_map, ofLittleEndian_littleEndian,
      Nat.mod_eq_of_lt hlt]
  rw [ofLeBytes, if_pos (by simp [leBytes]), hsum, UInt64.ofNat_toNat]

variable {L : KdbxLib}

theorem kdfCost_congr {rows rows' : SettingRows}
    (hp : rows' keyKdbxKdfParameters = rows keyKdbxKdfParameters)
    (hr : rows' keyKdbxTransformRounds = rows keyKdbxTransformRounds) :
    rows'.kdfCost L = rows.kdfCost L := by
  unfold SettingRows.kdfCost
  rw [hp, hr]

@[simp] theorem kdfCost_clearMetaTables (rows : SettingRows) :
    (clearMetaTables rows).kdfCost L = rows.kdfCost L :=
  kdfCost_congr (if_neg (by decide)) (if_neg (by decide))

@[simp] theorem kdfCost_writeMetaScalars (values rows : SettingRows) :
    (writeMetaScalars values rows).kdfCost L = rows.kdfCost L :=
  kdfCost_congr (if_neg (by decide)) (if_neg (by decide))

@[simp] theorem kdfCost_cipher (rows : SettingRows) (b : Option Blob) :
    SettingRows.kdfCost L (Function.update rows keyKdbxCipherOid b) = rows.kdfCost L :=
  kdfCost_congr (Function.update_of_ne (by decide) _ _) (Function.update_of_ne (by decide) _ _)

/-- The parameters of a KDBX 4 header decide, whatever the row of the rounds says. -/
theorem kdfCost_parameters {rows : SettingRows} {params : Blob} {p : KdfParams}
    (hp : L.decodeParams params = some p) (hrow : rows keyKdbxKdfParameters = some params) :
    rows.kdfCost L = .ok (.of p) := by
  simp [SettingRows.kdfCost, hrow, hp]

theorem kdfCost_rounds {rows : SettingRows} {rounds : UInt64} (hp : rows keyKdbxKdfParameters = none)
    (hrow : rows keyKdbxTransformRounds = some (leBytes rounds)) :
    rows.kdfCost L = .ok (.aesKdf rounds) := by
  simp [SettingRows.kdfCost, hrow, hp, ofLeBytes_leBytes]

/-! ## What the gate sees -/

/-- The part of a state the gate is about. -/
structure KdfView where
  recorded : Except KdfError KdfCost
  derived : List Derivation
  lastFiles : List (Option KdfCost)

def view (L : KdbxLib) (s : KdfState) : KdfView := ⟨s.settings.kdfCost L, s.derived, s.lastFiles⟩

/-- The state without what is still to fail. -/
def core (s : KdfState) : KdfState := { s with faults := [] }

theorem view_core (s : KdfState) : view L (core s) = view L s := rfl

theorem callOut_core (c : KdfState) :
    ⦃fun s => ⌜core s = c⌝⦄ callOut ⦃post⟨fun _ s => ⌜core s = c⌝, fun _ s => ⌜core s = c⌝⟩⦄ := by
  mvcgen [callOut]

/-- The row under one key changes, nothing else. -/
def SetsRow (key : String) (value : Option Blob) (c s : KdfState) : Prop :=
  s.settings = Function.update c.settings key value ∧ s.derived = c.derived ∧ s.lastFiles = c.lastFiles

theorem setBlob_core (c : KdfState) (key : String) (value : Blob) :
    ⦃fun s => ⌜core s = c⌝⦄ setBlob key value
    ⦃post⟨fun _ s => ⌜SetsRow key (some value) c s⌝, fun _ s => ⌜core s = c⌝⟩⦄ := by
  mvcgen [setBlob, callOut_core]
  · rename_i s hs _ s' hs' _
    obtain rfl : core s' = c := hs'.trans hs
    exact ⟨rfl, rfl, rfl⟩
  · rename_i s hs _ s'
    exact fun hs' => hs'.trans hs

theorem deleteRow_core (c : KdfState) (key : String) :
    ⦃fun s => ⌜core s = c⌝⦄ deleteRow key
    ⦃post⟨fun _ s => ⌜SetsRow key none c s⌝, fun _ s => ⌜core s = c⌝⟩⦄ := by
  mvcgen [deleteRow, callOut_core]
  · rename_i s hs _ s' hs' _
    obtain rfl : core s' = c := hs'.trans hs
    exact ⟨rfl, rfl, rfl⟩
  · rename_i s hs _ s'
    exact fun hs' => hs'.trans hs

theorem view_of_core {s c : KdfState} (h : core s = core c) : view L s = view L c := by
  rw [← view_core, h, view_core]

theorem view_of_setsRow {s c : KdfState} {key : String} {value : Option Blob}
    (h : SetsRow key value (core c) s) :
    view L s = { view L c with recorded := SettingRows.kdfCost L (Function.update c.settings key value) } := by
  obtain ⟨hrows, hderived, hfiles⟩ := h
  unfold view
  rw [hrows, hderived, hfiles]
  rfl

/-- The row of the parameters set or the row of the rounds: which of the two decides. -/
theorem kdfCost_set_parameters {params : Blob} {p : KdfParams} (hp : L.decodeParams params = some p)
    (rows : SettingRows) :
    SettingRows.kdfCost L (Function.update rows keyKdbxKdfParameters (some params)) = .ok (.of p) :=
  kdfCost_parameters hp (Function.update_self _ _ _)

theorem kdfCost_set_rounds (rounds : UInt64) (rows : SettingRows) :
    SettingRows.kdfCost L (Function.update rows keyKdbxTransformRounds (some (leBytes rounds))) =
        rows.kdfCost L ∨
      SettingRows.kdfCost L (Function.update rows keyKdbxTransformRounds (some (leBytes rounds))) =
        .ok (.aesKdf rounds) := by
  have hne : keyKdbxKdfParameters ≠ keyKdbxTransformRounds := by decide
  cases hrow : rows keyKdbxKdfParameters with
  | some blob =>
    left
    unfold SettingRows.kdfCost
    rw [Function.update_of_ne hne, hrow]
  | none =>
    right
    exact kdfCost_rounds ((Function.update_of_ne hne _ _).trans hrow) (Function.update_self _ _ _)

theorem view_cipher {s c : KdfState} {value : Option Blob}
    (h : SetsRow keyKdbxCipherOid value (core c) s) : view L s = view L c := by
  rw [view_of_setsRow h, kdfCost_cipher]
  rfl

/-- **Writing the facts moves the recorded cost to that of the header**, and a write cut short leaves the
earlier one or that. -/
theorem writeKdbxOuterHeaderFacts_spec {header : OuterHeader} {cost : KdfCost}
    (hcost : header.cost L = some cost) (v : KdfView) :
    ⦃fun s => ⌜view L s = v⌝⦄ writeKdbxOuterHeaderFacts header
    ⦃post⟨fun _ s => ⌜view L s = { v with recorded := .ok cost }⌝,
      fun _ s => ⌜view L s = v ∨ view L s = { v with recorded := .ok cost }⌝⟩⦄ := by
  unfold OuterHeader.cost OuterHeader.decodeKdfParams at hcost
  have hkeys : keyKdbxKdfParameters ≠ keyKdbxTransformRounds := by decide
  mvcgen [writeKdbxOuterHeaderFacts, setBlob_core, deleteRow_core]
  -- a KDBX 4 header: all three statements, then each as the one that fails
  · rename_i s hs _ params hv s₁ h₁ _ s₂ h₂ _ s₃
    intro h₃
    rw [hv] at hcost
    obtain ⟨p, hp, rfl⟩ := Option.map_eq_some_iff.1 hcost
    have hrow : Function.update s₂.settings keyKdbxTransformRounds none keyKdbxKdfParameters =
        some params := by
      rw [Function.update_of_ne hkeys, h₂.1, Function.update_self]
    rw [view_of_setsRow h₃, kdfCost_parameters hp hrow, view_of_setsRow h₂, view_cipher h₁, hs]
  · rename_i s hs _ params hv s₁ h₁ _ s₂ h₂ _ s₃
    intro h₃
    rw [hv] at hcost
    obtain ⟨p, hp, rfl⟩ := Option.map_eq_some_iff.1 hcost
    right
    rw [view_of_core h₃, view_of_setsRow h₂, kdfCost_set_parameters hp, view_cipher h₁, hs]
  · rename_i s hs _ params hv s₁ h₁ _ s₂
    intro h₂
    left
    rw [view_of_core h₂, view_cipher h₁, hs]
  -- a KDBX 3 header
  · rename_i s hs _ seed rounds hv s₁ h₁ _ s₂ h₂ _ s₃
    intro h₃
    rw [hv] at hcost
    obtain rfl := Option.some.inj hcost
    have hrow : Function.update s₂.settings keyKdbxKdfParameters none keyKdbxTransformRounds =
        some (leBytes rounds) := by
      rw [Function.update_of_ne hkeys.symm, h₂.1, Function.update_self]
    rw [view_of_setsRow h₃, kdfCost_rounds (Function.update_self _ _ _) hrow, view_of_setsRow h₂,
      view_cipher h₁, hs]
    rfl
  · rename_i s hs _ seed rounds hv s₁ h₁ _ s₂ h₂ _ s₃
    intro h₃
    rw [hv] at hcost
    obtain rfl := Option.some.inj hcost
    rw [view_of_core h₃, view_of_setsRow h₂]
    rcases kdfCost_set_rounds rounds s₁.settings with hset | hset
    · left
      rw [hset, ← hs, ← view_cipher h₁]
      rfl
    · right
      rw [hset, view_cipher h₁, hs]
      rfl
  · rename_i s hs _ seed rounds hv s₁ h₁ _ s₂
    intro h₂
    left
    rw [view_of_core h₂, view_cipher h₁, hs]
  · rename_i s hs _ s₁
    intro h₁
    left
    rw [view_of_core h₁, hs]

theorem readKdfCost_spec (v : KdfView) :
    ⦃fun s => ⌜view L s = v⌝⦄ readKdfCost L
    ⦃post⟨fun cost s => ⌜view L s = v ∧ v.recorded = .ok cost⌝, fun _ s => ⌜view L s = v⌝⟩⦄ := by
  mvcgen [readKdfCost, callOut_core]
  · rename_i s hs _ s₁ h₁ cost hcost
    rw [view_of_core h₁, hs]
    exact ⟨rfl, by rw [← hs, ← view_of_core h₁, ← hcost]; rfl⟩
  · rename_i s hs _ s₁ h₁ e he
    rw [view_of_core h₁, hs]
  · rename_i s hs _ s₁
    exact fun h₁ => (view_of_core h₁).trans hs

theorem recordedKdfCost_spec (v : KdfView) :
    ⦃fun s => ⌜view L s = v⌝⦄ recordedKdfCost L
    ⦃post⟨fun recorded s => ⌜view L s = v ∧ v.recorded.toOption = recorded⌝,
      fun _ s => ⌜view L s = v⌝⟩⦄ := by
  mvcgen [recordedKdfCost, callOut_core]
  · rename_i s hs _ s₁ h₁ cost hcost
    rw [view_of_core h₁, hs, ← hs, ← view_of_core h₁]
    exact ⟨rfl, by rw [view, hcost]; rfl⟩
  · rename_i s hs _ s₁ h₁ hcost
    rw [view_of_core h₁, hs, ← hs, ← view_of_core h₁]
    exact ⟨rfl, by rw [view, hcost]; rfl⟩
  · rename_i s hs _ s₁ h₁ _ _ _
    rw [view_of_core h₁, hs]
  · rename_i s hs _ s₁
    exact fun h₁ => (view_of_core h₁).trans hs

theorem costOfHeader_spec (header : OuterHeader) (v : KdfView) :
    ⦃fun s => ⌜view L s = v⌝⦄ costOfHeader L header
    ⦃post⟨fun cost s => ⌜view L s = v ∧ header.cost L = some cost⌝, fun _ s => ⌜view L s = v⌝⟩⦄ := by
  mvcgen [costOfHeader]

theorem recorded_of_toOption {recorded : Except KdfError KdfCost} {cost : KdfCost}
    (h : recorded.toOption = some cost) : recorded = .ok cost := by
  cases recorded with
  | ok c => exact congrArg Except.ok (Option.some.inj h)
  | error e => cases h

/-- What a refresh of the facts that is cut short may have done. -/
def CutShort (cost : KdfCost) (v v' : KdfView) : Prop :=
  v' = { v with lastFiles := some cost :: v.lastFiles } ∨
    v' = { v with recorded := .ok cost, lastFiles := some cost :: v.lastFiles }

/-- The facts of a header recorded. -/
def KdfView.record (cost : KdfCost) (v : KdfView) : KdfView :=
  { v with recorded := .ok cost, lastFiles := [some cost] }

/-- A derivation done. -/
def KdfView.derive (d : Derivation) (v : KdfView) : KdfView := { v with derived := d :: v.derived }

/-- **A refresh records the cost of the header**, and one cut short leaves the earlier one or that. -/
theorem refreshKdbxOuterHeaderFacts_spec (header : OuterHeader) (v : KdfView) :
    ⦃fun s => ⌜view L s = v⌝⦄ refreshKdbxOuterHeaderFacts L header
    ⦃post⟨fun _ s => ⌜∃ cost, header.cost L = some cost ∧ view L s = v.record cost⌝,
      fun _ s => ⌜view L s = v ∨ ∃ cost, header.cost L = some cost ∧ CutShort cost v (view L s)⌝⟩⦄ := by
  mvcgen [refreshKdbxOuterHeaderFacts, costOfHeader_spec, recordedKdfCost_spec, callOut_core,
    writeKdbxOuterHeaderFacts_spec]
  · rename_i s hs cost s₁ h₁ _ s₂ h₂ _ s₃ h₃ _ _ _ _
    exact h₁.2
  · rename_i s hs cost s₁ h₁ _ s₂ h₂ _ s₃ h₃ _ _ _ _ _ s₄ h₄ _
    have hview : view L s₃ = v := (view_of_core h₃).trans (h₂.1.trans (h₁.1.trans hs))
    rw [← hview]
    exact ⟨cost, h₁.2, congrArg (fun w : KdfView => { w with lastFiles := [some cost] }) h₄⟩
  · rename_i s hs cost s₁ h₁ _ s₂ h₂ _ s₃ h₃ _ _ _ _ _ s₄
    intro h₄
    have hview : view L s₃ = v := (view_of_core h₃).trans (h₂.1.trans (h₁.1.trans hs))
    rw [← hview]
    exact .inr ⟨cost, h₁.2, h₄⟩
  -- the rows have the cost and the cipher
  · rename_i s hs cost s₁ h₁ r s₂ h₂ _ s₃ h₃ _ _ hsame _
    have hview : view L s₃ = v := (view_of_core h₃).trans (h₂.1.trans (h₁.1.trans hs))
    have hr : r = some cost := by_contra fun h => hsame (.inl h)
    have hrec : v.recorded = .ok cost := recorded_of_toOption (by rw [← hr, ← h₂.2, h₁.1, hs])
    refine ⟨cost, h₁.2, ?_⟩
    rw [← hview] at hrec ⊢
    unfold KdfView.record
    rw [← hrec]
    rfl
  · rename_i s hs cost s₁ h₁ r s₂ h₂ _ s₃
    intro h₃
    exact .inl ((view_of_core h₃).trans (h₂.1.trans (h₁.1.trans hs)))
  · rename_i s hs cost s₁ h₁ _ s₂
    intro h₂
    exact .inl (h₂.trans (h₁.1.trans hs))
  · rename_i s hs _ s₁
    intro h₁
    exact .inl (h₁.trans hs)

/-! ## Transactions -/

/-- A triple, run by run. -/
theorem triple_iff {α : Type} {P : KdfState → Prop} {x : KdfM α} {Q : α → KdfState → Prop}
    {R : KdfError → KdfState → Prop} :
    ⦃fun s => ⌜P s⌝⦄ x ⦃post⟨fun a s => ⌜Q a s⌝, fun e s => ⌜R e s⌝⟩⦄ ↔
      ∀ s, P s → match x s with
        | .ok a s' => Q a s'
        | .error e s' => R e s' := by
  refine forall₂_congr fun s hs => ?_
  simp only [WP.wp, PredTrans.apply, EStateM.run]
  cases x s with
  | ok a s' => exact Iff.rfl
  | error e s' => exact Iff.rfl

theorem triple_mono {α : Type} {P : KdfState → Prop} {x : KdfM α} {Q Q' : α → KdfState → Prop}
    {R R' : KdfError → KdfState → Prop}
    (h : ⦃fun s => ⌜P s⌝⦄ x ⦃post⟨fun a s => ⌜Q a s⌝, fun e s => ⌜R e s⌝⟩⦄)
    (hQ : ∀ a s, Q a s → Q' a s) (hR : ∀ e s, R e s → R' e s) :
    ⦃fun s => ⌜P s⌝⦄ x ⦃post⟨fun a s => ⌜Q' a s⌝, fun e s => ⌜R' e s⌝⟩⦄ := by
  rw [triple_iff] at h ⊢
  intro s hs
  have hrun := h s hs
  cases hx : x s with
  | ok a s' =>
    rw [hx] at hrun
    exact hQ a s' hrun
  | error e s' =>
    rw [hx] at hrun
    exact hR e s' hrun

/-- **What fails inside a transaction leaves the rows.** -/
theorem transaction_spec {body : KdfM Unit} {v v' : KdfView}
    (hbody : ⦃fun s => ⌜view L s = v⌝⦄ body
      ⦃post⟨fun _ s => ⌜view L s = v'⌝, fun _ s => ⌜∃ r, view L s = { v with recorded := r }⌝⟩⦄) :
    ⦃fun s => ⌜view L s = v⌝⦄ transaction body
    ⦃post⟨fun _ s => ⌜view L s = v'⌝, fun _ s => ⌜view L s = v⌝⟩⦄ := by
  rw [triple_iff] at hbody ⊢
  intro s hs
  have hrun := hbody s hs
  unfold transaction
  cases hx : body s with
  | ok a s' =>
    rw [hx] at hrun
    exact hrun
  | error e s' =>
    rw [hx] at hrun
    obtain ⟨r, hr⟩ := hrun
    subst hs
    have hrows : view L { s' with settings := s.settings } =
        { view L s' with recorded := s.settings.kdfCost L } := rfl
    exact hrows.trans (by rw [hr]; rfl)

/-- The rows a re-ingest clears and writes are not those of the facts. -/
theorem view_reingest (values : SettingRows) (s : KdfState) :
    view L { s with settings := writeMetaScalars values (clearMetaTables s.settings) } = view L s := by
  simp [view]

theorem view_writeMetaScalars (values : SettingRows) (s : KdfState) :
    view L { s with settings := writeMetaScalars values s.settings } = view L s := by
  simp [view]

theorem ingestInMemory_spec (values : SettingRows) (v : KdfView) :
    ⦃fun s => ⌜view L s = v⌝⦄ ingestInMemory values
    ⦃post⟨fun _ s => ⌜view L s = v⌝, fun _ s => ⌜view L s = v⌝⟩⦄ := by
  refine transaction_spec ?_
  mvcgen [callOut_core]
  · rename_i s hs _ s₁ h₁ _ _ s₂
    intro h₂
    rw [view_of_core h₂, view_reingest, view_of_core h₁, hs]
  · rename_i s hs _ s₁ h₁ _ _ s₂
    intro h₂
    exact ⟨v.recorded, by rw [view_of_core h₂, view_reingest, view_of_core h₁, hs]⟩
  · rename_i s hs _ s₁
    intro h₁
    exact ⟨v.recorded, by rw [view_of_core h₁, hs]⟩

theorem pullScalars_spec (scalars : Option SettingRows) (v : KdfView) :
    ⦃fun s => ⌜view L s = v⌝⦄ pullScalars scalars
    ⦃post⟨fun _ s => ⌜view L s = v⌝, fun _ s => ⌜view L s = v⌝⟩⦄ := by
  refine transaction_spec ?_
  mvcgen [callOut_core]
  · rename_i s hs _ _ values _ s₁ h₁ _ _ s₂
    intro h₂
    rw [view_of_core h₂, view_writeMetaScalars, view_of_core h₁, hs]
  · rename_i s hs _ _ values _ s₁ h₁ _ _ s₂
    intro h₂
    exact ⟨v.recorded, by rw [view_of_core h₂, view_writeMetaScalars, view_of_core h₁, hs]⟩
  · rename_i s hs _ _ _ _ _ s₁ h₁ _ s₂
    intro h₂
    rw [view_of_core h₂, view_of_core h₁, hs]
  · rename_i s hs _ _ _ _ _ s₁ h₁ _ s₂
    intro h₂
    exact ⟨v.recorded, by rw [view_of_core h₂, view_of_core h₁, hs]⟩
  · rename_i s hs _ s₁
    intro h₁
    exact ⟨v.recorded, by rw [view_of_core h₁, hs]⟩

theorem ingestKdbxAsOwner_spec (merge : MergeWrites) (v : KdfView) :
    ⦃fun s => ⌜view L s = v⌝⦄ KdfGate.ingestKdbxAsOwner merge
    ⦃post⟨fun _ s => ⌜view L s = v⌝, fun _ s => ⌜view L s = v⌝⟩⦄ := by
  mvcgen [KdfGate.ingestKdbxAsOwner, pullScalars_spec, ingestInMemory_spec, callOut_core]
  case inv1 => exact post⟨fun _ s => ⌜view L s = v⌝, fun _ s => ⌜view L s = v⌝⟩
  · rename_i hs _ _ h₁
    exact h₁.trans hs
  · rename_i hs _
    exact fun _ h₁ => h₁.trans hs
  · rename_i s hs _ s₁ h₁
    exact h₁.trans hs
  · rename_i hs _ s₁
    exact fun h₁ => (view_of_core h₁).trans hs
  · rename_i hs _ s₁
    exact fun h₁ => (view_of_core h₁).trans hs
  · simp
  · rename_i s hs _ s₁
    exact fun h₁ => h₁.trans hs

theorem ingestVaultFile_spec {header : OuterHeader} {cost : KdfCost}
    (hcost : header.cost L = some cost) (values : SettingRows) (v : KdfView) :
    ⦃fun s => ⌜view L s = v⌝⦄ ingestVaultFile header values
    ⦃post⟨fun _ s => ⌜view L s = { v with recorded := .ok cost }⌝, fun _ s => ⌜view L s = v⌝⟩⦄ := by
  refine transaction_spec ?_
  mvcgen [callOut_core, writeKdbxOuterHeaderFacts_spec]
  · rename_i s hs _ s₁ h₁ _ _ s₂ h₂ _ s₃
    intro h₃
    rw [view_of_core h₃, h₂, view_reingest, view_of_core h₁, hs]
  · rename_i s hs _ s₁ h₁ _ _ s₂ h₂ _ s₃
    intro h₃
    exact ⟨.ok cost, by rw [view_of_core h₃, h₂, view_reingest, view_of_core h₁, hs]⟩
  · rename_i s hs _ s₁ h₁ _ _ s₂
    rw [view_reingest, view_of_core h₁, hs]
    rintro (h₂ | h₂)
    · exact ⟨v.recorded, h₂⟩
    · exact ⟨.ok cost, h₂⟩
  · rename_i s hs _ s₁
    intro h₁
    exact ⟨v.recorded, by rw [view_of_core h₁, hs]⟩

theorem ingestFile_spec (file : UnlockedHeader L) (values : SettingRows) (v : KdfView) :
    ⦃fun s => ⌜view L s = v⌝⦄ ingestFile file values
    ⦃post⟨fun _ s => ⌜view L s = v.record file.cost⌝, fun _ s => ⌜view L s = v⌝⟩⦄ := by
  have hcost := file.decodes
  mvcgen [ingestFile, ingestVaultFile_spec]
  · rename_i s hs _ s₁ h₁ _
    rw [← hs]
    exact congrArg (fun w : KdfView => { w with lastFiles := [some file.cost] }) h₁
  · rename_i s hs _ s₁
    exact fun h₁ => h₁.trans hs

/-! ## Derivations -/

/-- What the gate lets through. -/
def Allowed (d : Derivation) : Prop :=
  d.recorded = some d.file ∨ d.approved = some d.file ∨ d.recorded = none ∧ d.withinCeiling = true

theorem checkVaultFile_spec (file : KdfCost) (recorded : Option KdfCost) (policy : KdfPolicy)
    (v : KdfView) :
    ⦃fun s => ⌜view L s = v⌝⦄ checkVaultFile file recorded policy
    ⦃post⟨fun _ s => ⌜view L s = v ∧ Allowed ⟨file, recorded, policy.approved, !policy.exceeds file⟩⌝,
      fun _ s => ⌜view L s = v⌝⟩⦄ := by
  mvcgen [checkVaultFile]
  rename_i passes hpasses s hs
  refine ⟨hs, ?_⟩
  rcases Bool.or_eq_true_iff.1 hpasses with h | h
  · exact .inr (.inl (of_decide_eq_true h))
  · cases recorded with
    | some recorded => exact .inl (congrArg some (of_decide_eq_true h))
    | none => exact .inr (.inr ⟨rfl, h⟩)

/-- One derivation more, which the gate lets through. -/
def Derives (v v' : KdfView) : Prop := ∃ d, Allowed d ∧ v' = v.derive d

theorem unlock_spec {file : KdfCost} {approved : Option KdfCost} {withinCeiling : Bool} (v : KdfView)
    (h : Allowed ⟨file, v.recorded.toOption, approved, withinCeiling⟩) :
    ⦃fun s => ⌜view L s = v⌝⦄ unlock L file approved withinCeiling
    ⦃post⟨fun _ s => ⌜Derives v (view L s)⌝, fun _ s => ⌜Derives v (view L s)⌝⟩⦄ := by
  mvcgen [unlock, callOut_core]
  · rename_i s hs _ _ s₁
    intro h₁
    exact ⟨_, h, by rw [view_of_core h₁, ← hs]; rfl⟩
  · rename_i s hs _ _ s₁
    intro h₁
    exact ⟨_, h, by rw [view_of_core h₁, ← hs]; rfl⟩

theorem ensureSameKdfCost_spec (peer : OuterHeader) (v : KdfView) :
    ⦃fun s => ⌜view L s = v⌝⦄ ensureSameKdfCost L peer
    ⦃post⟨fun cost s => ⌜view L s = v ∧ v.recorded = .ok cost⌝, fun _ s => ⌜view L s = v⌝⟩⦄ := by
  mvcgen [ensureSameKdfCost, readKdfCost_spec, costOfHeader_spec]
  · rename_i s hs _ s₁ h₁ _ hsame s₂ h₂
    subst hsame
    exact ⟨h₂.1.trans (h₁.1.trans hs), hs ▸ h₁.2⟩
  · rename_i s hs _ s₁ h₁ _ _ s₂ h₂
    exact h₂.1.trans (h₁.1.trans hs)
  · rename_i s hs _ s₁ h₁ _ s₂
    exact fun h₂ => h₂.trans (h₁.1.trans hs)
  · rename_i s hs _ s₁
    exact fun h₁ => h₁.trans hs

/-! ## Operations -/

/-- **A reconcile that completes records the cost of the file**, and one that fails has at most derived its
key, merged it and begun to record. -/
theorem reconcile_spec (disk : OuterHeader) (policy : KdfPolicy) (merge : MergeWrites) (v : KdfView) :
    ⦃fun s => ⌜view L s = v⌝⦄ reconcileWithDiskParkConflicts L disk policy merge
    ⦃post⟨fun _ s => ⌜∃ w cost, Derives v w ∧ disk.cost L = some cost ∧ view L s = w.record cost⌝,
      fun _ s => ⌜view L s = v ∨ ∃ w, Derives v w ∧
        (view L s = w ∨ ∃ cost, disk.cost L = some cost ∧ CutShort cost w (view L s))⌝⟩⦄ := by
  mvcgen [reconcileWithDiskParkConflicts, callOut_core, recordedKdfCost_spec, costOfHeader_spec,
    checkVaultFile_spec, unlock_spec, ingestKdbxAsOwner_spec, refreshKdbxOuterHeaderFacts_spec]
  -- the gate has let the file through
  · rename_i s hs _ s₁ h₁ r s₂ h₂ file s₃ h₃ _ s₄ h₄
    have hr : r = (view L s₄).recorded.toOption := by rw [← h₂.2, h₄.1, h₃.1, h₂.1]
    exact hr ▸ h₄.2
  all_goals grind [view_of_core]

/-- **A peer's file is derived at the recorded cost**, and records nothing. -/
theorem ingestPeer_spec (peer : OuterHeader) (merge : MergeWrites) (v : KdfView) :
    ⦃fun s => ⌜view L s = v⌝⦄ ingestPeerFromKdbx L peer merge
    ⦃post⟨fun _ s => ⌜Derives v (view L s)⌝,
      fun _ s => ⌜view L s = v ∨ Derives v (view L s)⌝⟩⦄ := by
  have hmerge (w : KdfView) := ingestKdbxAsOwner_spec (L := L) merge w
  mvcgen [ingestPeerFromKdbx, callOut_core, ensureSameKdfCost_spec, unlock_spec, hmerge]
  · rename_i s hs _ s₁ h₁ cost s₂ h₂
    left
    rw [h₂.1, h₂.2]
    rfl
  all_goals grind [view_of_core]

/-- **An adoption derives at the approved cost and records it**, once the merge is saved. -/
theorem adoptPeerKdf_spec (peer : OuterHeader) (approved : KdfCost) (merge : MergeWrites) (v : KdfView) :
    ⦃fun s => ⌜view L s = v⌝⦄ adoptPeerKdf L peer approved merge
    ⦃post⟨fun _ s => ⌜∃ w cost, Derives v w ∧ peer.cost L = some cost ∧ view L s = w.record cost⌝,
      fun _ s => ⌜view L s = v ∨ ∃ w, Derives v w ∧ (view L s = w ∨ ∃ cost, peer.cost L = some cost ∧
        (CutShort cost w (view L s) ∨ view L s = w.record cost))⌝⟩⦄ := by
  have hmerge (w : KdfView) := ingestKdbxAsOwner_spec (L := L) merge w
  mvcgen [adoptPeerKdf, callOut_core, costOfHeader_spec, readKdfCost_spec, unlock_spec, hmerge,
    refreshKdbxOuterHeaderFacts_spec]
  case vc3.h =>
    rename_i hsame _ _ _ _ _
    exact .inr (.inl (congrArg some (not_not.1 hsame).symm))
  all_goals grind [view_of_core]

/-! ## Runs -/

/-- The cost an operation records when it completes. -/
def accepts : KdfOp L → Option KdfCost
  | .ingestFile file _ => some file.cost
  | .ingestInMemory _ => none
  | .reconcile disk _ _ => disk.cost L
  | .ingestPeer _ _ => none
  | .adopt peer _ _ => peer.cost L

/-- The cost an operation that refreshes the facts statement by statement may leave when it fails. -/
def refreshes : KdfOp L → Option KdfCost
  | .reconcile disk _ _ => disk.cost L
  | .adopt peer _ _ => peer.cost L
  | _ => none

/-- The recorded cost and the last files are as before. -/
def Unmoved (v v' : KdfView) : Prop := v'.recorded = v.recorded ∧ v'.lastFiles = v.lastFiles

/-- A completed operation records the cost of the file it accepts. -/
def Completed (op : KdfOp L) (v v' : KdfView) : Prop :=
  match accepts op with
  | some cost => v'.recorded = .ok cost ∧ v'.lastFiles = [some cost]
  | none => Unmoved v v'

/-- A failed operation leaves the recorded cost, unless it had begun to record the cost of its file. -/
def Failed (op : KdfOp L) (v v' : KdfView) : Prop :=
  Unmoved v v' ∨ ∃ cost, refreshes op = some cost ∧
    ((v'.recorded = v.recorded ∨ v'.recorded = .ok cost) ∧ v'.lastFiles = some cost :: v.lastFiles ∨
      v'.recorded = .ok cost ∧ v'.lastFiles = [some cost])

/-- The derivations so far and at most one more, which the gate lets through. -/
def DerivesOnce (v v' : KdfView) : Prop :=
  v'.derived = v.derived ∨ ∃ d, Allowed d ∧ v'.derived = d :: v.derived

theorem CutShort.moves {cost : KdfCost} {v v' : KdfView} (h : CutShort cost v v') :
    (v'.recorded = v.recorded ∨ v'.recorded = .ok cost) ∧ v'.lastFiles = some cost :: v.lastFiles ∧
      v'.derived = v.derived := by
  rcases h with rfl | rfl
  · exact ⟨.inl rfl, rfl, rfl⟩
  · exact ⟨.inr rfl, rfl, rfl⟩

theorem unmoved_once (op : KdfOp L) (v : KdfView) : Failed op v v ∧ DerivesOnce v v :=
  ⟨.inl ⟨rfl, rfl⟩, .inl rfl⟩

theorem Derives.unmoved {v w : KdfView} (h : Derives v w) : Unmoved v w ∧ DerivesOnce v w := by
  obtain ⟨d, hd, rfl⟩ := h
  exact ⟨⟨rfl, rfl⟩, .inr ⟨d, hd, rfl⟩⟩

theorem Derives.record {v w : KdfView} (h : Derives v w) (cost : KdfCost) :
    DerivesOnce v (w.record cost) := by
  obtain ⟨d, hd, rfl⟩ := h
  exact .inr ⟨d, hd, rfl⟩

theorem Derives.cutShort {v w w' : KdfView} {cost : KdfCost} (h : Derives v w)
    (hcut : CutShort cost w w') :
    ((w'.recorded = v.recorded ∨ w'.recorded = .ok cost) ∧ w'.lastFiles = some cost :: v.lastFiles) ∧
      DerivesOnce v w' := by
  obtain ⟨d, hd, rfl⟩ := h
  obtain ⟨hrec, hfiles, hder⟩ := hcut.moves
  exact ⟨⟨hrec, hfiles⟩, .inr ⟨d, hd, hder⟩⟩

theorem completed_record {op : KdfOp L} {v w : KdfView} {cost : KdfCost} (h : accepts op = some cost) :
    Completed op v (w.record cost) := by
  rw [Completed, h]
  exact ⟨rfl, rfl⟩

/-- **What an operation does to the recorded cost and to the derivations.** -/
theorem KdfOp.run_spec (op : KdfOp L) (v : KdfView) :
    ⦃fun s => ⌜view L s = v⌝⦄ op.run
    ⦃post⟨fun _ s => ⌜Completed op v (view L s) ∧ DerivesOnce v (view L s)⌝,
      fun _ s => ⌜Failed op v (view L s) ∧ DerivesOnce v (view L s)⌝⟩⦄ := by
  cases op with
  | ingestFile file values =>
    refine triple_mono (ingestFile_spec file values v) (fun _ s h => ?_) (fun _ s h => ?_)
    · rw [h]
      exact ⟨completed_record rfl, .inl rfl⟩
    · rw [h]
      exact unmoved_once _ v
  | ingestInMemory values =>
    refine triple_mono (ingestInMemory_spec values v) (fun _ s h => ?_) (fun _ s h => ?_)
    · rw [h]
      exact ⟨⟨rfl, rfl⟩, .inl rfl⟩
    · rw [h]
      exact unmoved_once _ v
  | reconcile disk policy merge =>
    refine triple_mono (reconcile_spec disk policy merge v) (fun _ s h => ?_) (fun _ s h => ?_)
    · obtain ⟨w, cost, hd, hcost, h⟩ := h
      rw [h]
      exact ⟨completed_record hcost, hd.record cost⟩
    · rcases h with h | ⟨w, hd, h | ⟨cost, hcost, hcut⟩⟩
      · rw [h]
        exact unmoved_once _ v
      · rw [h]
        exact ⟨.inl hd.unmoved.1, hd.unmoved.2⟩
      · obtain ⟨hmoved, honce⟩ := hd.cutShort hcut
        exact ⟨.inr ⟨cost, hcost, .inl hmoved⟩, honce⟩
  | ingestPeer peer merge =>
    refine triple_mono (ingestPeer_spec peer merge v) (fun _ s hd => ?_) (fun _ s h => ?_)
    · exact Derives.unmoved hd
    · rcases h with h | hd
      · rw [h]
        exact unmoved_once _ v
      · exact ⟨.inl (Derives.unmoved hd).1, (Derives.unmoved hd).2⟩
  | adopt peer approved merge =>
    refine triple_mono (adoptPeerKdf_spec peer approved merge v) (fun _ s h => ?_) (fun _ s h => ?_)
    · obtain ⟨w, cost, hd, hcost, h⟩ := h
      rw [h]
      exact ⟨completed_record hcost, hd.record cost⟩
    · rcases h with h | ⟨w, hd, h | ⟨cost, hcost, hcut | h⟩⟩
      · rw [h]
        exact unmoved_once _ v
      · rw [h]
        exact ⟨.inl hd.unmoved.1, hd.unmoved.2⟩
      · obtain ⟨hmoved, honce⟩ := hd.cutShort hcut
        exact ⟨.inr ⟨cost, hcost, .inl hmoved⟩, honce⟩
      · rw [h]
        exact ⟨.inr ⟨cost, hcost, .inr ⟨rfl, rfl⟩⟩, hd.record cost⟩

/-- The recorded cost is that of one of the last files, and the gate let every derivation through. -/
structure Gated (v : KdfView) : Prop where
  recorded : v.recorded.toOption ∈ v.lastFiles
  derived : ∀ d ∈ v.derived, Allowed d

theorem DerivesOnce.gated {v v' : KdfView} (h : DerivesOnce v v') (hv : ∀ d ∈ v.derived, Allowed d) :
    ∀ d ∈ v'.derived, Allowed d := by
  rcases h with h | ⟨d, hd, h⟩
  · rw [h]
    exact hv
  · rw [h]
    exact List.forall_mem_cons.2 ⟨hd, hv⟩

theorem Unmoved.recorded {v v' : KdfView} (h : Unmoved v v') (hv : v.recorded.toOption ∈ v.lastFiles) :
    v'.recorded.toOption ∈ v'.lastFiles := by
  rw [h.1, h.2]
  exact hv

theorem Completed.recorded {op : KdfOp L} {v v' : KdfView} (h : Completed op v v')
    (hv : v.recorded.toOption ∈ v.lastFiles) : v'.recorded.toOption ∈ v'.lastFiles := by
  unfold Completed at h
  split at h
  · rw [h.1, h.2]
    exact List.mem_singleton.2 rfl
  · exact h.recorded hv

theorem Failed.recorded {op : KdfOp L} {v v' : KdfView} (h : Failed op v v')
    (hv : v.recorded.toOption ∈ v.lastFiles) : v'.recorded.toOption ∈ v'.lastFiles := by
  rcases h with h | ⟨cost, -, ⟨h | h, hfiles⟩ | ⟨h, hfiles⟩⟩
  · exact h.recorded hv
  · rw [h, hfiles]
    exact List.mem_cons_of_mem _ hv
  · rw [h, hfiles]
    exact List.mem_cons_self
  · rw [h, hfiles]
    exact List.mem_singleton.2 rfl

/-- **Every operation keeps the gate**, whether it completes or fails. -/
theorem KdfOp.leaves_gated (op : KdfOp L) {s : KdfState} (h : Gated (view L s)) :
    Gated (view L (op.leaves s)) := by
  have hrun := triple_iff.1 (KdfOp.run_spec op (view L s)) s rfl
  unfold KdfOp.leaves
  cases hx : op.run s with
  | ok a s' =>
    rw [hx] at hrun
    exact ⟨hrun.1.recorded h.recorded, hrun.2.gated h.derived⟩
  | error e s' =>
    rw [hx] at hrun
    exact ⟨hrun.1.recorded h.recorded, hrun.2.gated h.derived⟩

theorem KdfOp.runAll_gated (ops : List (KdfOp L)) {s : KdfState} (h : Gated (view L s)) :
    Gated (view L (KdfOp.runAll ops s)) := by
  induction ops generalizing s with
  | nil => exact h
  | cons op ops ih => exact ih (KdfOp.leaves_gated op h)

/-- **The recorded cost follows the files.** After any operations the recorded cost is one of the last
files', and each key was derived at the recorded cost, at an approved one, or with nothing recorded
within the ceiling. The next operation records the cost of the file it accepts when it completes, and
leaves the recorded cost when it fails, unless it had begun to record its file's. -/
theorem recorded_cost_follows_files (ops : List (KdfOp L)) (settings : SettingRows) (faults : List Bool)
    (op : KdfOp L) :
    let t := KdfOp.runAll ops { settings, faults, lastFiles := [(settings.kdfCost L).toOption] }
    (t.settings.kdfCost L).toOption ∈ t.lastFiles ∧ (∀ d ∈ t.derived, Allowed d) ∧
      match op.run t with
      | .ok _ t' => Completed op (view L t) (view L t')
      | .error _ t' => Failed op (view L t) (view L t') := by
  intro t
  have hstart : Gated (view L { settings, faults, lastFiles := [(settings.kdfCost L).toOption] }) :=
    ⟨List.mem_singleton.2 rfl, fun d hd => absurd hd List.not_mem_nil⟩
  have ht : Gated (view L t) := KdfOp.runAll_gated ops hstart
  refine ⟨ht.recorded, ht.derived, ?_⟩
  have hrun := triple_iff.1 (KdfOp.run_spec op (view L t)) t rfl
  cases hx : op.run t with
  | ok a t' =>
    rw [hx] at hrun
    exact hrun.1
  | error e t' =>
    rw [hx] at hrun
    exact hrun.1

/-! ## An adoption that fails last -/

/-- KDBX 3 files state their rounds, so no parameters are decoded. -/
def kdbx3 : KdbxLib := ⟨fun _ => none⟩

def roundsHeader (rounds : UInt64) : OuterHeader := ⟨List.replicate 16 0, .v3 (List.replicate 32 7) rounds⟩

def roundsFile (rounds : UInt64) : UnlockedHeader kdbx3 :=
  ⟨roundsHeader rounds, .aesKdf rounds, rfl⟩

/-- The vault file is ingested. -/
def ingestedFile : KdfState :=
  KdfOp.runAll [.ingestFile (roundsFile 6000) fun _ => none]
    { settings := fun _ => none, lastFiles := [none], faults := List.replicate 5 false ++
        List.replicate 13 false ++ [true] }

/-- The peer's higher cost is approved. -/
def adoption : KdfOp kdbx3 := .adopt (roundsHeader 60000) (.aesKdf 60000) {}

/-- The error of an operation that failed. -/
def failure : EStateM.Result KdfError KdfState Unit → Option KdfError
  | .ok _ _ => none
  | .error e _ => some e

/-- **An adoption whose last call fails has moved the recorded cost.** -/
theorem adoption_fails_recorded :
    failure (adoption.run ingestedFile) = some .outside ∧
    (ingestedFile.settings.kdfCost kdbx3).toOption = some (.aesKdf 6000) ∧
    ((adoption.leaves ingestedFile).settings.kdfCost kdbx3).toOption = some (.aesKdf 60000) := by
  decide +kernel

end KeysCore.Verify.KdfGate
