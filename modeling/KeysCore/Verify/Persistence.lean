import KeysCore.Persistence
import Mathlib.Tactic.Common

/-!
# What a recorded signature and the watermark vouch for

Two guarantees over every run of the engine's file operations, with other writers and other
connections acting between any two steps.

`recorded_signature_known`: a recorded signature that matches the file at the path vouches for a
version the engine wrote or read, provided nobody replaces the file between the engine's own rename
and the stat whose result it records. A save takes that stat from the path and not from the file it
wrote, so a replacement in between is recorded as seen (`save_records_foreign_version`).

`watermark_covers_writes`: a clean watermark vouches for every write, provided no other connection
commits while a reconcile that began clean can still settle, nor inside `adopt_peer_kdf` between the
start of its save and its own reading of the sequence (`adopt_masks_mutation`).

Both invariants are kept operation by operation; `engineStep_cases` says what a step of each can be.
-/

namespace KeysCore.Verify

variable {sigOf : Nat → KdbxStateSignature}

/-- What holds at the start and is kept by every admitted step holds in every state reached. -/
theorem persistRun_invariant {allowed : Persistence → PersistAction → Prop} {I : Persistence → Prop}
    (hstep : ∀ s a t, allowed s a → persistStep sigOf s a = some t → I s → I t)
    {s t : Persistence} (hrun : PersistRun sigOf allowed s t) (hs : I s) : I t := by
  induction hrun with
  | refl => exact hs
  | step _ hallow hnext ih => exact hstep _ _ _ hallow hnext ih

theorem beginAt_eq_some {s t : Persistence} {p : EnginePoint} :
    beginAt s p = some t ↔ s.point = .idle ∧ s.goto p = t := by
  unfold beginAt
  split
  · rename_i h
    simp [h]
  · rename_i h
    simp [h]

/-! ## The engine's steps, by operation -/

/-- A step of an ingest or of a reconcile. -/
inductive ReadStep (sigOf : Nat → KdbxStateSignature) (s : Persistence) : Persistence → Prop where
  | openFile {d : Bool} (hp : s.point = .probed d) :
      ReadStep sigOf s (s.goto (.opened (.reconcile d) s.atPath))
  | stat {r : Reader} {v : Nat} (hp : s.point = .opened r v) :
      ReadStep sigOf s (s.goto (.stated r v (sigOf v)))
  | read {r : Reader} {v : Nat} {sig : KdbxStateSignature} (hp : s.point = .stated r v sig) :
      ReadStep sigOf s { s with point := .loaded r sig, known := v :: s.known }
  | ingest {sig : KdbxStateSignature} (n : Nat) (hp : s.point = .loaded .ingest sig)
      (hclean : s.isDirty = false) :
      ReadStep sigOf s ((s.write n).goto (.merged .ingest sig (s.nextWrites n) false))
  | ingestSettled {sig : KdbxStateSignature} (n : Nat) (hp : s.point = .loaded .ingest sig)
      (hclean : s.isDirty = false) :
      ReadStep sigOf s { (s.write n).goto (.merged .ingest sig (s.nextWrites n) true) with
        persistedSeq := s.mutationSeq + n, persisted := s.nextWrites n ++ s.persisted }
  | merge {d : Bool} {sig : KdbxStateSignature} (n : Nat) (eq : Bool)
      (hp : s.point = .loaded (.reconcile d) sig) :
      ReadStep sigOf s ((s.write n).goto (.merged (.reconcile d) sig (s.nextWrites n) eq))
  | recordIngested {sig : KdbxStateSignature} {own : List Nat} {eq : Bool}
      (hp : s.point = .merged .ingest sig own eq) :
      ReadStep sigOf s { s with recorded := some sig, point := .idle }
  | refresh {d eq : Bool} {sig : KdbxStateSignature} {own : List Nat} (n : Nat)
      (hp : s.point = .merged (.reconcile d) sig own eq) :
      ReadStep sigOf s ((s.write n).goto (.refreshed d sig (own ++ s.nextWrites n) eq))
  | settle {sig : KdbxStateSignature} {own : List Nat} (hp : s.point = .refreshed false sig own true) :
      ReadStep sigOf s (s.goto (.settling sig own s.mutationSeq))
  | leave {d eq : Bool} {sig : KdbxStateSignature} {own : List Nat}
      (hp : s.point = .refreshed d sig own eq) : ReadStep sigOf s (s.goto .idle)
  | record {sig : KdbxStateSignature} {own : List Nat} {seq : Nat} (hp : s.point = .settling sig own seq) :
      ReadStep sigOf s { s.recordCorrespondence sig seq with
        point := .idle, persisted := own ++ s.persisted }

/-- A step of a save. -/
inductive SaveStep (sigOf : Nat → KdbxStateSignature) (s : Persistence) : Persistence → Prop where
  | project {a : Bool} {seq : Nat} (hp : s.point = .saving a seq) :
      SaveStep sigOf s (s.goto (.projected a seq))
  | rename {a : Bool} {seq : Nat} (hp : s.point = .projected a seq) :
      SaveStep sigOf s { s.rename with
        point := .renamed a seq
        known := s.versions :: s.known
        persisted := List.range' 1 seq ++ s.persisted }
  | statSelf {a : Bool} {seq : Nat} (hp : s.point = .renamed a seq) :
      SaveStep sigOf s (s.goto (.selfStated a seq))
  | statPath {a : Bool} {seq : Nat} (hp : s.point = .selfStated a seq) :
      SaveStep sigOf s (s.goto (.pathStated a seq (sigOf s.atPath)))
  | record {a : Bool} {seq : Nat} {sig : KdbxStateSignature} (hp : s.point = .pathStated a seq sig) :
      SaveStep sigOf s ((s.recordCorrespondence sig seq).goto (if a then .saved else .idle))

/-- A step of `adopt_peer_kdf` outside its save. -/
inductive AdoptStep (sigOf : Nat → KdbxStateSignature) (s : Persistence) : Persistence → Prop where
  | check (hp : s.point = .adopting) : AdoptStep sigOf s (s.goto .checked)
  | recheck (hp : s.point = .checked) : AdoptStep sigOf s (s.goto .rechecked)
  | merge (n : Nat) (hp : s.point = .rechecked) : AdoptStep sigOf s ((s.write n).goto .adopted)
  | save (hp : s.point = .adopted) : AdoptStep sigOf s (s.goto (.saving true s.mutationSeq))
  | writeFacts (n : Nat) (hp : s.point = .saved) :
      AdoptStep sigOf s { (s.write n).goto .factsWritten with persisted := s.nextWrites n ++ s.persisted }
  | readSettled (hp : s.point = .factsWritten) : AdoptStep sigOf s (s.goto (.settled s.mutationSeq))
  | stat {seq : Nat} (hp : s.point = .settled seq) :
      AdoptStep sigOf s (s.goto (.adoptStated seq (sigOf s.atPath)))
  | record {seq : Nat} {sig : KdbxStateSignature} (hp : s.point = .adoptStated seq sig) :
      AdoptStep sigOf s ((s.recordCorrespondence sig seq).goto .idle)

/-- **What the engine's next step can be.** -/
theorem engineStep_cases {s t : Persistence} {rows : Nat} {inSync : Bool}
    (h : engineStep sigOf s rows inSync = some t) :
    ReadStep sigOf s t ∨ SaveStep sigOf s t ∨ AdoptStep sigOf s t := by
  unfold engineStep at h
  split at h <;> rename_i hp
  case h_1 => cases h
  case h_2 => exact .inl (Option.some.inj h ▸ .openFile hp)
  case h_3 => exact .inl (Option.some.inj h ▸ .stat hp)
  case h_4 => exact .inl (Option.some.inj h ▸ .read hp)
  case h_5 =>
    split at h
    · cases h
    · rename_i hdirty
      have hclean := Bool.eq_false_iff.2 hdirty
      cases inSync with
      | true => exact .inl (Option.some.inj h ▸ .ingestSettled rows hp hclean)
      | false => exact .inl (Option.some.inj h ▸ .ingest rows hp hclean)
  case h_6 => exact .inl (Option.some.inj h ▸ .merge rows inSync hp)
  case h_7 => exact .inl (Option.some.inj h ▸ .recordIngested hp)
  case h_8 => exact .inl (Option.some.inj h ▸ .refresh rows hp)
  case h_9 =>
    split at h
    · rename_i hsettles
      rw [Bool.and_eq_true, Bool.not_eq_true'] at hsettles
      obtain ⟨rfl, rfl⟩ := hsettles
      exact .inl (Option.some.inj h ▸ .settle hp)
    · exact .inl (Option.some.inj h ▸ .leave hp)
  case h_10 => exact .inl (Option.some.inj h ▸ .record hp)
  case h_11 =>
    split at h
    · exact .inr (.inr (Option.some.inj h ▸ .check hp))
    · cases h
  case h_12 =>
    split at h
    · exact .inr (.inr (Option.some.inj h ▸ .recheck hp))
    · cases h
  case h_13 => exact .inr (.inr (Option.some.inj h ▸ .merge rows hp))
  case h_14 => exact .inr (.inr (Option.some.inj h ▸ .save hp))
  case h_15 => exact .inr (.inl (Option.some.inj h ▸ .project hp))
  case h_16 => exact .inr (.inl (Option.some.inj h ▸ .rename hp))
  case h_17 => exact .inr (.inl (Option.some.inj h ▸ .statSelf hp))
  case h_18 => exact .inr (.inl (Option.some.inj h ▸ .statPath hp))
  case h_19 => exact .inr (.inl (Option.some.inj h ▸ .record hp))
  case h_20 => exact .inr (.inr (Option.some.inj h ▸ .writeFacts rows hp))
  case h_21 => exact .inr (.inr (Option.some.inj h ▸ .readSettled hp))
  case h_22 => exact .inr (.inr (Option.some.inj h ▸ .stat hp))
  case h_23 => exact .inr (.inr (Option.some.inj h ▸ .record hp))

/-! ## Signatures -/

/-- The path still has to be stat'ed for a signature that will be recorded as the engine's own. -/
def awaitsStat : EnginePoint → Bool
  | .renamed _ _ => true
  | .selfStated _ _ => true
  | .pathStated a _ _ => a
  | .saved => true
  | .factsWritten => true
  | .settled _ => true
  | _ => false

/-- The signature the engine is about to record. -/
def carriedSig : EnginePoint → Option KdbxStateSignature
  | .loaded _ sig => some sig
  | .merged _ sig _ _ => some sig
  | .refreshed _ sig _ _ => some sig
  | .settling sig _ _ => some sig
  | .pathStated _ _ sig => some sig
  | .adoptStated _ sig => some sig
  | _ => none

/-- Nobody replaces the file while a stat of the engine's own file is awaited. -/
def FileQuiet (s : Persistence) (a : PersistAction) : Prop :=
  a = .replace → awaitsStat s.point = false

/-- Every signature recorded or about to be is that of a known version. -/
structure SignatureInv (sigOf : Nat → KdbxStateSignature) (s : Persistence) : Prop where
  recorded : ∀ sig ∈ s.recorded, ∃ v ∈ s.known, sig = sigOf v
  carried : ∀ sig ∈ carriedSig s.point, ∃ v ∈ s.known, sig = sigOf v
  handle : ∀ r v sig, s.point = .stated r v sig → sig = sigOf v
  owned : awaitsStat s.point = true → s.atPath ∈ s.known

namespace SignatureInv

variable {s : Persistence}

/-- Going on to a point that carries nothing and awaits nothing. -/
theorem goto (h : SignatureInv sigOf s) {p : EnginePoint}
    (hc : ∀ sig ∈ carriedSig p, ∃ v ∈ s.known, sig = sigOf v)
    (hh : ∀ r v sig, p = .stated r v sig → sig = sigOf v)
    (ho : awaitsStat p = true → s.atPath ∈ s.known) : SignatureInv sigOf (s.goto p) :=
  ⟨h.recorded, hc, hh, ho⟩

theorem goto_plain (h : SignatureInv sigOf s) {p : EnginePoint} (hc : carriedSig p = none)
    (hh : ∀ r v sig, p ≠ .stated r v sig) (ho : awaitsStat p = false) :
    SignatureInv sigOf (s.goto p) := by
  refine h.goto ?_ (fun r v sig e => absurd e (hh r v sig)) ?_
  · simp [hc]
  · simp [ho]

/-- Going on with the signature the engine carries. -/
theorem goto_carrying (h : SignatureInv sigOf s) {p : EnginePoint} {sig : KdbxStateSignature}
    (hsig : carriedSig s.point = some sig) (hc : carriedSig p = some sig)
    (hh : ∀ r v sig, p ≠ .stated r v sig) (ho : awaitsStat p = false) :
    SignatureInv sigOf (s.goto p) := by
  refine h.goto ?_ (fun r v sig e => absurd e (hh r v sig)) ?_
  · rw [hc, ← hsig]
    exact h.carried
  · simp [ho]

theorem write (h : SignatureInv sigOf s) (n : Nat) : SignatureInv sigOf (s.write n) :=
  ⟨h.recorded, h.carried, h.handle, h.owned⟩

/-- Recording the signature the engine carries. -/
theorem record (h : SignatureInv sigOf s) (sig : KdbxStateSignature)
    (hsig : carriedSig s.point = some sig) (seq : Nat) :
    SignatureInv sigOf (s.recordCorrespondence sig seq) := by
  refine ⟨?_, h.carried, h.handle, h.owned⟩
  rintro _ ⟨⟩
  exact h.carried sig hsig

/-- A replacement by another writer. -/
theorem rename (h : SignatureInv sigOf s) (hquiet : awaitsStat s.point = false) :
    SignatureInv sigOf s.rename := by
  refine ⟨h.recorded, h.carried, h.handle, ?_⟩
  intro ho
  have ho : awaitsStat s.point = true := ho
  rw [hquiet] at ho
  cases ho

theorem readStep {t : Persistence} (h : SignatureInv sigOf s) (hstep : ReadStep sigOf s t) :
    SignatureInv sigOf t := by
  cases hstep with
  | openFile hp => exact h.goto_plain rfl nofun rfl
  | stat hp =>
    refine h.goto nofun ?_ nofun
    rintro _ _ _ ⟨⟩
    rfl
  | @read r v sig hp =>
    -- the bytes are read from the open handle, whatever is at the path by now
    refine ⟨fun sig' hs => ?_, ?_, nofun, nofun⟩
    · obtain ⟨w, hw, e⟩ := h.recorded sig' hs
      exact ⟨w, List.mem_cons_of_mem _ hw, e⟩
    · rintro _ ⟨⟩
      exact ⟨v, List.mem_cons_self .., h.handle r v sig hp⟩
  | ingest n hp hclean =>
    exact (h.write n).goto_carrying (congrArg carriedSig hp) rfl nofun rfl
  | @ingestSettled sig n hp hclean =>
    have h' := (h.write n).goto_carrying (p := .merged .ingest sig (s.nextWrites n) true)
      (congrArg carriedSig hp) rfl nofun rfl
    exact ⟨h'.recorded, h'.carried, h'.handle, h'.owned⟩
  | merge n eq hp =>
    exact (h.write n).goto_carrying (congrArg carriedSig hp) rfl nofun rfl
  | recordIngested hp =>
    have hsig := h.carried
    rw [hp] at hsig
    exact ⟨hsig, nofun, nofun, nofun⟩
  | refresh n hp =>
    exact (h.write n).goto_carrying (congrArg carriedSig hp) rfl nofun rfl
  | settle hp => exact h.goto_carrying (congrArg carriedSig hp) rfl nofun rfl
  | leave hp => exact h.goto_plain rfl nofun rfl
  | @record sig own seq hp =>
    have h' := h.record sig (by rw [hp]; rfl) seq
    exact ⟨h'.recorded, nofun, nofun, nofun⟩

theorem saveStep {t : Persistence} (h : SignatureInv sigOf s) (hstep : SaveStep sigOf s t) :
    SignatureInv sigOf t := by
  cases hstep with
  | project hp => exact h.goto_plain rfl nofun rfl
  | rename hp =>
    refine ⟨fun sig' hs => ?_, nofun, nofun, fun _ => List.mem_cons_self ..⟩
    obtain ⟨w, hw, e⟩ := h.recorded sig' hs
    exact ⟨w, List.mem_cons_of_mem _ hw, e⟩
  | statSelf hp => exact h.goto nofun nofun fun _ => h.owned (by rw [hp]; rfl)
  | statPath hp =>
    -- the path still holds the engine's own file
    have hown : s.atPath ∈ s.known := h.owned (by rw [hp]; rfl)
    exact h.goto (by rintro _ ⟨⟩; exact ⟨_, hown, rfl⟩) nofun fun _ => hown
  | @record a seq sig hp =>
    have h' := h.record sig (by rw [hp]; rfl) seq
    cases a with
    | false => exact h'.goto_plain rfl nofun rfl
    | true => exact h'.goto nofun nofun fun _ => h.owned (by rw [hp]; rfl)

theorem adoptStep {t : Persistence} (h : SignatureInv sigOf s) (hstep : AdoptStep sigOf s t) :
    SignatureInv sigOf t := by
  cases hstep with
  | check hp => exact h.goto_plain rfl nofun rfl
  | recheck hp => exact h.goto_plain rfl nofun rfl
  | merge n hp => exact (h.write n).goto_plain rfl nofun rfl
  | save hp => exact h.goto_plain rfl nofun rfl
  | writeFacts n hp => exact ⟨h.recorded, nofun, nofun, fun _ => h.owned (by rw [hp]; rfl)⟩
  | readSettled hp => exact h.goto nofun nofun fun _ => h.owned (by rw [hp]; rfl)
  | stat hp =>
    have hown : s.atPath ∈ s.known := h.owned (by rw [hp]; rfl)
    exact h.goto (by rintro _ ⟨⟩; exact ⟨_, hown, rfl⟩) nofun nofun
  | @record seq sig hp => exact (h.record sig (by rw [hp]; rfl) seq).goto_plain rfl nofun rfl

/-- A step of the engine itself. -/
theorem engineStep {t : Persistence} {rows : Nat} {inSync : Bool} (h : SignatureInv sigOf s)
    (hstep : engineStep sigOf s rows inSync = some t) : SignatureInv sigOf t := by
  obtain hread | hsave | hadopt := engineStep_cases hstep
  · exact h.readStep hread
  · exact h.saveStep hsave
  · exact h.adoptStep hadopt

/-- Every admitted step keeps the invariant. -/
theorem step {t : Persistence} {a : PersistAction} (hquiet : FileQuiet s a)
    (hstep : persistStep sigOf s a = some t) (h : SignatureInv sigOf s) : SignatureInv sigOf t := by
  cases a with
  | replace => exact Option.some.inj hstep ▸ h.rename (hquiet rfl)
  | mutate rows => exact Option.some.inj hstep ▸ h.write rows
  | beginSave => exact (beginAt_eq_some.1 hstep).2 ▸ h.goto_plain rfl nofun rfl
  | beginIngest => exact (beginAt_eq_some.1 hstep).2 ▸ h.goto_plain rfl nofun rfl
  | beginReconcile => exact (beginAt_eq_some.1 hstep).2 ▸ h.goto_plain rfl nofun rfl
  | beginAdopt => exact (beginAt_eq_some.1 hstep).2 ▸ h.goto_plain rfl nofun rfl
  | next rows inSync => exact h.engineStep hstep
  | fail => exact Option.some.inj hstep ▸ h.goto_plain rfl nofun rfl

end SignatureInv

theorem signatureInv_fresh : SignatureInv sigOf .fresh := ⟨nofun, nofun, nofun, nofun⟩

/-- **When nobody replaces the file between the engine's rename and the stat it records, a recorded
signature that matches the file vouches for bytes the engine wrote or read.** -/
theorem recorded_signature_known (hinj : Function.Injective sigOf) {s : Persistence}
    (hrun : PersistRun sigOf FileQuiet .fresh s) (hmatch : s.recorded = some (sigOf s.atPath)) :
    s.atPath ∈ s.known := by
  have hinv := persistRun_invariant (fun _ _ _ hq hn h => h.step hq hn) hrun signatureInv_fresh
  obtain ⟨v, hv, he⟩ := hinv.recorded _ hmatch
  exact hinj he ▸ hv

/-! ## The watermark -/

/-- The sequence the engine is about to record, its writes already in the file. -/
def carriedSeq : EnginePoint → Option Nat
  | .renamed _ seq => some seq
  | .selfStated _ seq => some seq
  | .pathStated _ seq _ => some seq
  | .settled seq => some seq
  | .adoptStated seq _ => some seq
  | _ => none

/-- The points between a reading of the watermark and a later one the engine takes for the same: the
mirror counts as in the file but for the writes listed, the operation's own. -/
def presumedClean : EnginePoint → Option (List Nat)
  | .probed false => some []
  | .opened (.reconcile false) _ => some []
  | .stated (.reconcile false) _ _ => some []
  | .loaded (.reconcile false) _ => some []
  | .merged (.reconcile false) _ own true => some own
  | .refreshed false _ own true => some own
  | .renamed true _ => some []
  | .selfStated true _ => some []
  | .pathStated true _ _ => some []
  | .saved => some []
  | .factsWritten => some []
  | _ => none

/-- The save of `adopt_peer_kdf` before its rename, with the `seq_at_start` it took. -/
def adoptPending : EnginePoint → Option Nat
  | .saving true seq => some seq
  | .projected true seq => some seq
  | _ => none

/-- No other connection commits while a reconcile that began clean can still settle, nor in
`adopt_peer_kdf` from the start of its save to its own reading of the sequence. -/
def MutationQuiet (s : Persistence) (a : PersistAction) : Prop :=
  ∀ rows, a = .mutate rows → presumedClean s.point = none ∧ adoptPending s.point = none

/-- Writes `1` to `n` are in `l`. -/
def Covers1 (l : List Nat) (n : Nat) : Prop := ∀ i, 1 ≤ i → i ≤ n → i ∈ l

/-- Every sequence recorded or about to be covers only writes that are in the file. -/
structure WatermarkInv (s : Persistence) : Prop where
  bound : Covers1 s.persisted s.persistedSeq
  carried : ∀ seq ∈ carriedSeq s.point, Covers1 s.persisted seq
  clean : ∀ own ∈ presumedClean s.point, Covers1 (own ++ s.persisted) s.mutationSeq
  settling : ∀ sig own seq, s.point = .settling sig own seq → Covers1 (own ++ s.persisted) seq
  pending : ∀ seq ∈ adoptPending s.point, seq = s.mutationSeq

theorem Covers1.mono {l l' : List Nat} {n : Nat} (h : Covers1 l n) (hl : l ⊆ l') : Covers1 l' n :=
  fun i h₁ hn => hl (h i h₁ hn)

theorem Covers1.of_le {l : List Nat} {m n : Nat} (h : Covers1 l n) (hmn : m ≤ n) : Covers1 l m :=
  fun i h₁ hm => h i h₁ (hm.trans hmn)

/-- Covered writes and the next ones. -/
theorem Covers1.nextWrites {s : Persistence} {l : List Nat} (h : Covers1 l s.mutationSeq) (n : Nat) :
    Covers1 (s.nextWrites n ++ l) (s.mutationSeq + n) := by
  intro i h₁ hn
  rw [List.mem_append]
  by_cases hi : i ≤ s.mutationSeq
  · exact .inr (h i h₁ hi)
  · left
    rw [Persistence.nextWrites, List.mem_range']
    exact ⟨i - (s.mutationSeq + 1), by omega, by omega⟩

theorem covers1_range' (n : Nat) (l : List Nat) : Covers1 (List.range' 1 n ++ l) n := by
  intro i h₁ hn
  rw [List.mem_append, List.mem_range']
  exact .inl ⟨i - 1, by omega, by omega⟩

theorem mutationSeq_le_of_not_dirty {s : Persistence} (h : s.isDirty = false) :
    s.mutationSeq ≤ s.persistedSeq := by
  simpa [Persistence.isDirty] using h

namespace WatermarkInv

variable {s : Persistence}

/-- Going on to a point that presumes nothing. -/
theorem goto_plain (h : WatermarkInv s) {p : EnginePoint} (hc : carriedSeq p = none)
    (hp : presumedClean p = none) (hs : ∀ sig own seq, p ≠ .settling sig own seq)
    (ha : adoptPending p = none) : WatermarkInv (s.goto p) := by
  refine ⟨h.bound, ?_, ?_, fun sig own seq e => absurd e (hs sig own seq), ?_⟩
  · intro seq hseq
    have hseq : carriedSeq p = some seq := hseq
    rw [hc] at hseq
    cases hseq
  · intro own hown
    have hown : presumedClean p = some own := hown
    rw [hp] at hown
    cases hown
  · intro seq hseq
    have hseq : adoptPending p = some seq := hseq
    rw [ha] at hseq
    cases hseq

/-- Writes at a point that presumes nothing. -/
theorem write (h : WatermarkInv s) (n : Nat) (hp : presumedClean s.point = none)
    (ha : adoptPending s.point = none) : WatermarkInv (s.write n) := by
  refine ⟨h.bound, h.carried, ?_, h.settling, ?_⟩
  · intro own hown
    have hown : presumedClean s.point = some own := hown
    rw [hp] at hown
    cases hown
  · intro seq hseq
    have hseq : adoptPending s.point = some seq := hseq
    rw [ha] at hseq
    cases hseq

theorem rename (h : WatermarkInv s) : WatermarkInv s.rename :=
  ⟨h.bound, h.carried, h.clean, h.settling, h.pending⟩

/-- Going on to a point that presumes the mirror clean but for `own`. -/
theorem goto_clean (h : WatermarkInv s) {p : EnginePoint} (hc : carriedSeq p = none)
    (hs : ∀ sig own seq, p ≠ .settling sig own seq) (ha : adoptPending p = none)
    (hclean : ∀ own ∈ presumedClean p, Covers1 (own ++ s.persisted) s.mutationSeq) :
    WatermarkInv (s.goto p) := by
  refine ⟨h.bound, ?_, hclean, fun sig own seq e => absurd e (hs sig own seq), ?_⟩
  · intro seq hseq
    have hseq : carriedSeq p = some seq := hseq
    rw [hc] at hseq
    cases hseq
  · intro seq hseq
    have hseq : adoptPending p = some seq := hseq
    rw [ha] at hseq
    cases hseq

/-- A reader's next point, with what the reconcile presumes. -/
theorem goto_reader (h : WatermarkInv s) {p q : EnginePoint} (hp : s.point = p)
    (hc : carriedSeq q = none) (hs : ∀ sig own seq, q ≠ .settling sig own seq)
    (ha : adoptPending q = none) (hclean : presumedClean q = presumedClean p) :
    WatermarkInv (s.goto q) := by
  refine h.goto_clean hc hs ha ?_
  rw [hclean, ← hp]
  exact h.clean

theorem readStep {t : Persistence} (h : WatermarkInv s) (hstep : ReadStep sigOf s t) :
    WatermarkInv t := by
  cases hstep with
  | @openFile d hp => exact h.goto_reader hp rfl nofun rfl (by cases d <;> rfl)
  | @stat r v hp =>
    refine h.goto_reader hp rfl nofun rfl ?_
    cases r with
    | ingest => rfl
    | reconcile d => cases d <;> rfl
  | @read r v sig hp =>
    have hclean : presumedClean (.loaded r sig) = presumedClean (.stated r v sig) := by
      cases r with
      | ingest => rfl
      | reconcile d => cases d <;> rfl
    have h' := h.goto_reader hp (q := .loaded r sig) rfl nofun rfl hclean
    exact ⟨h'.bound, h'.carried, h'.clean, h'.settling, h'.pending⟩
  | ingest n hp hclean =>
    exact (h.write n (by rw [hp]; rfl) (by rw [hp]; rfl)).goto_plain rfl rfl nofun rfl
  | ingestSettled n hp hclean =>
    have hbound := h.bound.of_le (mutationSeq_le_of_not_dirty hclean)
    exact ⟨hbound.nextWrites n, nofun, nofun, nofun, nofun⟩
  | @merge d sig n eq hp =>
    refine ⟨h.bound, nofun, ?_, nofun, nofun⟩
    intro own hown
    cases d with
    | true => cases hown
    | false =>
      cases eq with
      | false => cases hown
      | true =>
        obtain rfl := Option.some.inj hown
        exact (h.clean [] (by rw [hp]; rfl)).nextWrites n
  | recordIngested hp => exact ⟨h.bound, nofun, nofun, nofun, nofun⟩
  | @refresh d eq sig own n hp =>
    refine ⟨h.bound, nofun, ?_, nofun, nofun⟩
    intro own' hown
    cases d with
    | true => cases hown
    | false =>
      cases eq with
      | false => cases hown
      | true =>
        obtain rfl := Option.some.inj hown
        refine ((h.clean own (by rw [hp]; rfl)).nextWrites n).mono fun i hi => ?_
        simp only [List.mem_append] at hi ⊢
        tauto
  | @settle sig own hp =>
    refine ⟨h.bound, nofun, nofun, ?_, nofun⟩
    rintro _ _ _ ⟨⟩
    exact h.clean own (by rw [hp]; rfl)
  | leave hp => exact h.goto_plain rfl rfl nofun rfl
  | @record sig own seq hp => exact ⟨h.settling sig own seq hp, nofun, nofun, nofun, nofun⟩

theorem saveStep {t : Persistence} (h : WatermarkInv s) (hstep : SaveStep sigOf s t) :
    WatermarkInv t := by
  have hclean := h.clean
  have hcarried := h.carried
  cases hstep with
  | @project a seq hp =>
    refine ⟨h.bound, nofun, nofun, nofun, fun seq' hseq => h.pending seq' ?_⟩
    rw [hp]
    cases a <;> exact hseq
  | @rename a seq hp =>
    have hfile := covers1_range' seq s.persisted
    refine ⟨h.bound.mono (List.subset_append_right _ _), ?_, ?_, nofun, nofun⟩
    · rintro _ ⟨⟩
      exact hfile
    · intro own hown
      cases a with
      | false => cases hown
      | true =>
        -- nothing was committed since step 0, so the file holds the whole mirror
        obtain rfl := Option.some.inj hown
        have hseq : seq = s.mutationSeq := h.pending seq (by rw [hp]; rfl)
        exact hseq ▸ hfile
  | @statSelf a seq hp =>
    rw [hp] at hclean hcarried
    exact ⟨h.bound, hcarried, by cases a <;> exact hclean, nofun, nofun⟩
  | @statPath a seq hp =>
    rw [hp] at hclean hcarried
    exact ⟨h.bound, hcarried, by cases a <;> exact hclean, nofun, nofun⟩
  | @record a seq sig hp =>
    rw [hp] at hclean hcarried
    have hseq : Covers1 s.persisted seq := hcarried seq rfl
    cases a with
    | false => exact ⟨hseq, nofun, nofun, nofun, nofun⟩
    | true => exact ⟨hseq, nofun, hclean, nofun, nofun⟩

theorem adoptStep {t : Persistence} (h : WatermarkInv s) (hstep : AdoptStep sigOf s t) :
    WatermarkInv t := by
  cases hstep with
  | check hp => exact h.goto_plain rfl rfl nofun rfl
  | recheck hp => exact h.goto_plain rfl rfl nofun rfl
  | merge n hp =>
    exact (h.write n (by rw [hp]; rfl) (by rw [hp]; rfl)).goto_plain rfl rfl nofun rfl
  | save hp =>
    refine ⟨h.bound, nofun, nofun, nofun, ?_⟩
    rintro _ ⟨⟩
    rfl
  | writeFacts n hp =>
    refine ⟨h.bound.mono (List.subset_append_right _ _), nofun, ?_, nofun, nofun⟩
    rintro _ ⟨⟩
    exact (h.clean [] (by rw [hp]; rfl)).nextWrites n
  | readSettled hp =>
    refine ⟨h.bound, ?_, nofun, nofun, nofun⟩
    rintro _ ⟨⟩
    exact h.clean [] (by rw [hp]; rfl)
  | @stat seq hp =>
    have hcar := h.carried seq (by rw [hp]; rfl)
    exact ⟨h.bound, by rintro _ ⟨⟩; exact hcar, nofun, nofun, nofun⟩
  | @record seq sig hp => exact ⟨h.carried seq (by rw [hp]; rfl), nofun, nofun, nofun, nofun⟩

/-- A step of the engine itself. -/
theorem engineStep {t : Persistence} {rows : Nat} {inSync : Bool} (h : WatermarkInv s)
    (hstep : engineStep sigOf s rows inSync = some t) : WatermarkInv t := by
  obtain hread | hsave | hadopt := engineStep_cases hstep
  · exact h.readStep hread
  · exact h.saveStep hsave
  · exact h.adoptStep hadopt

/-- Every admitted step keeps the invariant. -/
theorem step {t : Persistence} {a : PersistAction} (hquiet : MutationQuiet s a)
    (hstep : persistStep sigOf s a = some t) (h : WatermarkInv s) : WatermarkInv t := by
  cases a with
  | replace => exact Option.some.inj hstep ▸ h.rename
  | mutate rows =>
    obtain ⟨hp, ha⟩ := hquiet rows rfl
    exact Option.some.inj hstep ▸ h.write rows hp ha
  | beginSave => exact (beginAt_eq_some.1 hstep).2 ▸ h.goto_plain rfl rfl nofun rfl
  | beginIngest => exact (beginAt_eq_some.1 hstep).2 ▸ h.goto_plain rfl rfl nofun rfl
  | beginReconcile =>
    obtain ⟨-, rfl⟩ := beginAt_eq_some.1 hstep
    cases hd : s.isDirty with
    | true => exact h.goto_plain rfl rfl nofun rfl
    | false =>
      refine h.goto_clean rfl nofun rfl ?_
      rintro _ ⟨⟩
      exact h.bound.of_le (mutationSeq_le_of_not_dirty hd)
  | beginAdopt => exact (beginAt_eq_some.1 hstep).2 ▸ h.goto_plain rfl rfl nofun rfl
  | next rows inSync => exact h.engineStep hstep
  | fail => exact Option.some.inj hstep ▸ h.goto_plain rfl rfl nofun rfl

end WatermarkInv

theorem watermarkInv_fresh : WatermarkInv .fresh := by
  refine ⟨?_, nofun, nofun, nofun, nofun⟩
  intro i h₁ h₀
  have h₀ : i ≤ 0 := h₀
  omega

/-- **When no other connection commits inside the two windows, a clean watermark vouches for every
write: a save put it in the vault file or it was read from there.** -/
theorem watermark_covers_writes {s : Persistence}
    (hrun : PersistRun sigOf MutationQuiet .fresh s) (hclean : s.mutationSeq ≤ s.persistedSeq) :
    ∀ i, 1 ≤ i → i ≤ s.mutationSeq → i ∈ s.persisted := by
  have hinv := persistRun_invariant (fun _ _ _ hq hn h => h.step hq hn) hrun watermarkInv_fresh
  exact hinv.bound.of_le hclean

/-! ## Runs on a small file -/

/-- The state after a list of actions, each admitted. -/
def runActions (sigOf : Nat → KdbxStateSignature) (allowed : Persistence → PersistAction → Prop)
    [∀ s a, Decidable (allowed s a)] : Persistence → List PersistAction → Option Persistence
  | s, [] => some s
  | s, a :: as => if allowed s a then (persistStep sigOf s a).bind (runActions sigOf allowed · as)
    else none

theorem persistRun_of_runActions {allowed : Persistence → PersistAction → Prop}
    [∀ s a, Decidable (allowed s a)] {s₀ s t : Persistence} {as : List PersistAction}
    (hs : PersistRun sigOf allowed s₀ s) (h : runActions sigOf allowed s as = some t) :
    PersistRun sigOf allowed s₀ t := by
  induction as generalizing s with
  | nil => exact Option.some.inj h ▸ hs
  | cons a as ih =>
    unfold runActions at h
    split at h
    · rename_i hallow
      obtain ⟨u, hu, h⟩ := Option.bind_eq_some_iff.1 h
      exact ih (.step hs hallow hu) h
    · cases h

instance (s : Persistence) (a : PersistAction) : Decidable (FileQuiet s a) :=
  inferInstanceAs (Decidable (a = .replace → awaitsStat s.point = false))

/-- Each version one millisecond after the one before, all of one size. -/
def msSignature (v : Nat) : KdbxStateSignature := ⟨v, 1000⟩

theorem msSignature_injective : Function.Injective msSignature := by
  intro v w h
  have hms : (v : Int) = w := congrArg KdbxStateSignature.mtimeMs h
  exact_mod_cast hms

/-- The state a list of actions leads to from a fresh mirror, the fresh one when it does not run. -/
def reached (allowed : Persistence → PersistAction → Prop) [∀ s a, Decidable (allowed s a)]
    (as : List PersistAction) : Persistence :=
  (runActions msSignature allowed .fresh as).getD .fresh

theorem persistRun_reached {allowed : Persistence → PersistAction → Prop}
    [∀ s a, Decidable (allowed s a)] {as : List PersistAction}
    (h : (runActions msSignature allowed .fresh as).isSome) :
    PersistRun msSignature allowed .fresh (reached allowed as) := by
  obtain ⟨t, ht⟩ := Option.isSome_iff_exists.1 h
  rw [reached, ht]
  exact persistRun_of_runActions (.refl _) ht

/-- A file read and ingested, replaced by another client, and read again by a reconcile that
settles. -/
def ingestThenReconcile : List PersistAction :=
  [.beginIngest, .next 0 true, .next 0 true, .next 3 true, .next 0 true, .replace,
    .beginReconcile, .next 0 true, .next 0 true, .next 0 true, .next 2 true, .next 0 true,
    .next 0 true, .next 0 true]

theorem recorded_signature_known_reconciled :
    (reached FileQuiet ingestThenReconcile).recorded = some (msSignature 1) ∧
      (reached FileQuiet ingestThenReconcile).atPath ∈
        (reached FileQuiet ingestThenReconcile).known :=
  ⟨by decide, recorded_signature_known msSignature_injective (persistRun_reached (by decide))
    (by decide)⟩

/-- A save renames version `1` over the path, another client replaces it by version `2`, and the
save stats the path. -/
def saveThenReplace : List PersistAction :=
  [.beginSave, .next 0 true, .next 0 true, .replace, .next 0 true, .next 0 true, .next 0 true]

/-- The save returns with the signature of a version the engine has neither written nor read. -/
theorem save_records_foreign_version :
    ¬ ∀ s, PersistRun msSignature (fun _ _ => True) .fresh s →
      s.recorded = some (msSignature s.atPath) → s.atPath ∈ s.known := by
  intro h
  have hrun : PersistRun msSignature (fun _ _ => True) .fresh (reached _ saveThenReplace) :=
    persistRun_reached (by decide)
  exact absurd (h _ hrun (by decide)) (by decide)

instance (s : Persistence) (a : PersistAction) : Decidable (MutationQuiet s a) :=
  match a with
  | .mutate rows =>
    decidable_of_iff (presumedClean s.point = none ∧ adoptPending s.point = none)
      ⟨fun h _ _ => h, fun h => h rows rfl⟩
  | .replace | .beginSave | .beginIngest | .beginReconcile | .beginAdopt | .next _ _ | .fail =>
    .isTrue nofun

/-- Two writes, then a save across which a third is committed; the next save takes it along. -/
def saveTwice : List PersistAction :=
  [.mutate 2, .beginSave, .next 0 true, .mutate 1, .next 0 true, .next 0 true, .next 0 true,
    .next 0 true, .beginSave, .next 0 true, .next 0 true, .next 0 true, .next 0 true, .next 0 true]

theorem watermark_covers_two_saves :
    (reached MutationQuiet saveTwice).mutationSeq = 3 ∧
      (∀ i, 1 ≤ i → i ≤ (reached MutationQuiet saveTwice).mutationSeq →
        i ∈ (reached MutationQuiet saveTwice).persisted) :=
  ⟨by decide, watermark_covers_writes (persistRun_reached (by decide)) (by decide)⟩

/-- An adoption whose save has been written when another connection commits one more write. -/
def adoptThenMutate : List PersistAction :=
  [.beginIngest, .next 0 true, .next 0 true, .next 1 true, .next 0 true,
    .beginAdopt, .next 0 true, .next 0 true, .next 1 true, .next 0 true, .next 0 true, .next 0 true,
    .mutate 1, .next 0 true, .next 0 true, .next 0 true, .next 1 true, .next 0 true, .next 0 true,
    .next 0 true]

/-- The adoption settles the watermark past that write, which is in no file. -/
theorem adopt_masks_mutation :
    ¬ ∀ s, PersistRun msSignature (fun _ _ => True) .fresh s → s.mutationSeq ≤ s.persistedSeq →
      ∀ i, 1 ≤ i → i ≤ s.mutationSeq → i ∈ s.persisted := by
  intro h
  have hrun : PersistRun msSignature (fun _ _ => True) .fresh (reached _ adoptThenMutate) :=
    persistRun_reached (by decide)
  exact absurd (h _ hrun (by decide) 3 (by decide) (by decide)) (by decide)

end KeysCore.Verify
