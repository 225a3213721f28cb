import KeysCore.Verify.Connections
import KeysCore.Verify.ConflictSettling

/-!
# Lost updates between connections

What a call writes back, it made of a projection. The resolution compares `mutation_seq` with the value
it read before projecting, and the ingest of the file refuses a mirror that owes a write, each within
its own transaction; the pull and the landing of a dissolved row compare nothing. A run in which no
other connection commits between their projection and their write loses no update
(`no_lost_update`): every vault written back was made of the mirror it replaces. Without that, a pull
drops an edit committed meanwhile (`pull_discards_edit`).
-/

namespace KeysCore.Verify

open Lib

/-! ## Projections at hand -/

/-- `v` is the vault of the mirror unless the mirror was written to since `mutation_seq` was `seq`. -/
structure ReadAt (seq : Nat) (v : Vault) (m : Mirror) : Prop where
  le : seq ≤ m.mutationSeq
  current : m.mutationSeq = seq → m.project = .ok v

namespace ReadAt

variable {seq seq₀ : Nat} {v : Vault} {m m' : Mirror}

theorem step (h : ReadAt seq v m) (hle : m.mutationSeq ≤ m'.mutationSeq)
    (hc : m'.mutationSeq = m.mutationSeq → SameContent m m') : ReadAt seq v m' := by
  refine ⟨h.le.trans hle, fun e => ?_⟩
  have hm : m.mutationSeq = seq := by
    have := h.le
    omega
  rw [(hc (e.trans hm.symm)).project]
  exact h.current hm

theorem earlier (h : ReadAt seq v m) (hle : seq₀ ≤ seq) : ReadAt seq₀ v m := by
  refine ⟨hle.trans h.le, fun e => h.current ?_⟩
  have := h.le
  omega

end ReadAt

/-- The resolver read its `mutation_seq` before `seq`. -/
def AfterSettle.ReadBy (seq : Nat) : AfterSettle → Prop
  | .sweep _ => True
  | .resolver _ seq₀ _ => seq₀ ≤ seq

def Purpose.ReadBy (seq : Nat) : Purpose → Prop
  | .pull .. => True
  | .settle _ next => next.ReadBy seq

variable (Λ : Libs)

/-- What a call holds was read from the mirror when `mutation_seq` was what it carries. -/
def CallPoint.Sound (m : Mirror) : CallPoint → Prop
  | .idle | .sweeping => True
  | .projecting seq purpose => seq ≤ m.mutationSeq ∧ purpose.ReadBy seq
  | .projected seq v purpose => ReadAt seq v m ∧ purpose.ReadBy seq
  | .landing seq v u owner merged next =>
    ReadAt seq v m ∧ next.ReadBy seq ∧ ∃ m₀, Adopts Λ.vaults m₀ v u owner merged

structure Connection.Sound (m : Mirror) (k : Connection Λ.vaults) : Prop where
  point : k.point.Sound Λ m
  pending : ∀ ctx ∈ k.pending, ReadAt ctx.projectedAtSeq ctx.localVault m

namespace Connection.Sound

variable {Λ} {k : Connection Λ.vaults} {m m' : Mirror} {seq : Nat} {v : Vault} {u : Uuid}
  {next : AfterSettle}

/-- **What a connection holds stays sound when another writes.** -/
theorem step (h : k.Sound Λ m) (hle : m.mutationSeq ≤ m'.mutationSeq)
    (hc : m'.mutationSeq = m.mutationSeq → SameContent m m') : k.Sound Λ m' := by
  refine ⟨?_, fun ctx hctx => (h.pending ctx hctx).step hle hc⟩
  have hp := h.point
  cases hk : k.point with
  | idle => trivial
  | sweeping => trivial
  | projecting seq purpose =>
    rw [hk] at hp
    exact ⟨hp.1.trans hle, hp.2⟩
  | projected seq v purpose =>
    rw [hk] at hp
    exact ⟨hp.1.step hle hc, hp.2⟩
  | landing seq v u owner merged next =>
    rw [hk] at hp
    exact ⟨hp.1.step hle hc, hp.2⟩

theorem advances (h : k.Sound Λ m) (ha : Advances m m') : k.Sound Λ m' := h.step ha.le ha.content

theorem goto (h : k.Sound Λ m) {p : CallPoint} (hp : p.Sound Λ m) : (k.goto p).Sound Λ m :=
  ⟨hp, h.pending⟩

theorem returned (h : k.Sound Λ m) : k.returned.Sound Λ m := ⟨trivial, h.pending⟩

theorem settleNext (h : k.Sound Λ m) (hr : ReadAt seq v m) {next : List Uuid → AfterSettle}
    (hn : ∀ rest, (next rest).ReadBy seq) (us : List Uuid) :
    (k.settleNext seq v next us).Sound Λ m := by
  cases us with
  | nil => exact h.returned
  | cons u rest => exact h.goto ⟨hr, hn rest⟩

theorem settled (h : k.Sound Λ m) (hr : ReadAt seq v m) (hn : next.ReadBy seq) :
    (k.settled Λ m seq v u next).Sound Λ m := by
  cases next with
  | sweep rest =>
    have hsweep : ∀ rest, (AfterSettle.sweep rest).ReadBy seq := fun _ => trivial
    exact h.settleNext hr hsweep rest
  | resolver id seq₀ rest =>
    have hresolver : ∀ rest, (AfterSettle.resolver id seq₀ rest).ReadBy seq := fun _ => hn
    unfold Connection.settled
    dsimp only
    split
    · exact h.returned
    · exact h.settleNext hr hresolver rest
    · refine ⟨trivial, fun ctx hctx => ?_⟩
      rcases List.mem_append.1 hctx with hctx | hctx
      · exact h.pending ctx hctx
      · rw [List.mem_singleton.1 hctx]
        exact hr.earlier hn

theorem settlePass (h : k.Sound Λ m) (hr : ReadAt seq v m) (hn : next.ReadBy seq) :
    Advances m (k.settlePass Λ m seq v u next).1 ∧
      (k.settlePass Λ m seq v u next).2.Sound Λ (k.settlePass Λ m seq v u next).1 := by
  unfold Connection.settlePass
  dsimp only
  split
  · exact ⟨.refl m, h.settled hr hn⟩
  · split
    · exact ⟨.refl m, h.returned⟩
    · have ha := Advances.dropConflictRows m u
      exact ⟨ha, (h.advances ha).settled (hr.step ha.le ha.content) hn⟩
    · rename_i dropped _
      have ha := Advances.dropConflictOwners m u dropped
      exact ⟨ha, (h.advances ha).settled (hr.step ha.le ha.content) hn⟩
    · rename_i dropped owner merged hd
      have ha := Advances.dropConflictOwners m u dropped
      exact ⟨ha, (h.advances ha).goto
        ⟨hr.step ha.le ha.content, hn, m, dissolveDecision_adopts hd⟩⟩

/-- The step of a call. -/
theorem advance (h : k.Sound Λ m) :
    Advances m (k.advance Λ m).1 ∧ (k.advance Λ m).2.Sound Λ (k.advance Λ m).1 := by
  have hp := h.point
  unfold Connection.advance
  split
  · split
    · exact ⟨.refl m, h.returned⟩
    · rename_i st hst
      have ha := Advances.ingestPeer hst
      exact ⟨ha, (h.advances ha).goto trivial⟩
  · split
    · exact ⟨.refl m, h.returned⟩
    · exact ⟨.refl m, h.goto ⟨le_refl _, trivial⟩⟩
  · rename_i hk
    rw [hk] at hp
    exact h.settlePass hp.1 hp.2
  · rename_i u owner merged next hk
    rw [hk] at hp
    split
    · exact ⟨.refl m, h.returned⟩
    · rename_i a ha
      have ha := Advances.ingestInMemory ha
      have hdrop := Advances.dropConflictRow a owner u
      refine ⟨ha.trans hdrop, (h.advances (ha.trans hdrop)).goto ⟨le_refl _, ?_⟩⟩
      show next.ReadBy a.mutationSeq
      cases next with
      | sweep rest => trivial
      | resolver id seq₀ rest =>
        have hseq : seq₀ ≤ _ := hp.2.1
        exact (hseq.trans hp.1.le).trans ha.le
  · exact ⟨.refl m, h⟩
  · exact ⟨.refl m, h⟩

end Connection.Sound

section Drops

variable {Λ} (k : Connection Λ.vaults) (m : Mirror)

/-- A pass over the rows of an entry drops rows only. -/
theorem settlePass_sameContent (seq : Nat) (v : Vault) (u : Uuid) (next : AfterSettle) :
    SameContent m (k.settlePass Λ m seq v u next).1 := by
  unfold Connection.settlePass
  dsimp only
  split
  · exact .refl m
  · split
    · exact .refl m
    · exact ⟨rfl, rfl, rfl, rfl⟩
    · exact dropConflictOwners_sameContent m u _
    · exact dropConflictOwners_sameContent m u _

/-- A call writes content in its pull and in its landings. -/
theorem advance_sameContent {k : Connection Λ.vaults}
    (hpull : ∀ seq v ord owner peer now, k.point ≠ .projected seq v (.pull ord owner peer now))
    (hland : ∀ seq v u owner merged next, k.point ≠ .landing seq v u owner merged next) :
    SameContent m (k.advance Λ m).1 := by
  unfold Connection.advance
  split
  · exact absurd ‹_› (hpull _ _ _ _ _ _)
  · split
    · exact .refl m
    · exact .refl m
  · exact settlePass_sameContent k m _ _ _ _
  · exact absurd ‹_› (hland _ _ _ _ _ _)
  · exact .refl m
  · exact .refl m

end Drops

/-! ## Steps of the shared mirror -/

variable {ι : Type} [DecidableEq ι]

/-- Every connection is sound, and a mutation the file has not seen makes the mirror owe a write. -/
structure SharedState.Sound (s : SharedState ι Λ.vaults) : Prop where
  conns : ∀ c, (s.conns c).Sound Λ s.mirror
  watermark : s.mirror.persistedSeq ≤ s.mirror.mutationSeq
  unsaved : s.unsaved ≠ [] → s.mirror.isDirty = true

/-- No call is under way. -/
structure SharedState.Quiet (s : SharedState ι Λ.vaults) : Prop where
  idle : ∀ c, (s.conns c).point = .idle ∧ (s.conns c).pending = []
  watermark : s.mirror.persistedSeq ≤ s.mirror.mutationSeq
  unsaved : s.unsaved = []

/-- The `mutation_seq` of the projection that the next step of the call writes back, unless that step
compares it itself. -/
def CallPoint.writesFrom : CallPoint → Option Nat
  | .projected seq _ (.pull ..) => some seq
  | .landing seq .. => some seq
  | _ => none

/-- A pull, or a landing, that writes finds `mutation_seq` as its projection did. -/
def Undisturbed (s : SharedState ι Λ.vaults) (c : ι) (a : CallStep) : Prop :=
  a = .advance → ∀ seq ∈ (s.conns c).point.writesFrom, s.mirror.mutationSeq = seq

/-- The step leaves the content of the mirror, or puts there what it made of the projection of the
mirror it found; the file replaces a mirror that took no mutation since. -/
def Lossless (s : SharedState ι Λ.vaults) (c : ι) (a : CallStep) (s' : SharedState ι Λ.vaults) :
    Prop :=
  match a with
  | .mutate _ => True
  | .ingestFile .. => s'.mirror = s.mirror ∨ s.unsaved = []
  | .resolve _ r now =>
    s'.mirror = s.mirror ∨ ∃ ctx ∈ (s.conns c).pending, s.mirror.project = .ok ctx.localVault ∧
      applyConflictResolution ctx r now s.mirror = .ok s'.mirror
  | .advance =>
    match (s.conns c).point with
    | .projected _ _ (.pull ord owner peer now) =>
      s'.mirror = s.mirror ∨ ∃ v st, s.mirror.project = .ok v ∧
        ingestPeer Λ.merge ord ⟨owner, v, peer, now⟩ s.mirror = .ok st ∧ s'.mirror = st.1
    | .landing _ _ u owner merged _ =>
      s'.mirror = s.mirror ∨ ∃ v m₀ m, s.mirror.project = .ok v ∧
        Adopts Λ.vaults m₀ v u owner merged ∧ ingestVault merged s.mirror = .ok m ∧
        s'.mirror = m.dropConflictRow owner u
    | _ => SameContent s.mirror s'.mirror
  | _ => s'.mirror = s.mirror

namespace SharedState

variable {Λ} {s s' : SharedState ι Λ.vaults} {c : ι} {a : CallStep} {m : Mirror}
  {k : Connection Λ.vaults}

omit [DecidableEq ι] in
theorem Quiet.sound (h : s.Quiet Λ) : s.Sound Λ := by
  refine ⟨fun c => ⟨?_, ?_⟩, h.watermark, fun hne => absurd h.unsaved hne⟩
  · rw [(h.idle c).1]
    trivial
  · intro ctx hctx
    rw [(h.idle c).2] at hctx
    cases hctx

namespace Sound

/-- The connections after one of them has made `m` of the mirror and `k` of itself. -/
theorem put_conns (h : s.Sound Λ) (hle : s.mirror.mutationSeq ≤ m.mutationSeq)
    (hc : m.mutationSeq = s.mirror.mutationSeq → SameContent s.mirror m) (hk : k.Sound Λ m) (i : ι) :
    ((s.put Λ c m k).conns i).Sound Λ m := by
  show (Function.update s.conns c k i).Sound Λ m
  by_cases e : i = c
  · rw [e, Function.update_self]
    exact hk
  · rw [Function.update_of_ne e]
    exact (h.conns i).step hle hc

/-- A step that leaves the watermark. -/
theorem put (h : s.Sound Λ) (ha : Advances s.mirror m) (hk : k.Sound Λ m) :
    (s.put Λ c m k).Sound Λ := by
  have hseq := ha.le
  refine ⟨h.put_conns ha.le ha.content hk, ?_, fun hne => ?_⟩
  · show m.persistedSeq ≤ m.mutationSeq
    rw [ha.persisted]
    exact h.watermark.trans ha.le
  · have hdirty := h.unsaved hne
    simp only [Mirror.isDirty, decide_eq_true_eq] at hdirty ⊢
    show m.persistedSeq < m.mutationSeq
    rw [ha.persisted]
    omega

theorem goto (h : s.Sound Λ) {p : CallPoint} (hp : p.Sound Λ s.mirror) :
    (s.put Λ c s.mirror ((s.conns c).goto p)).Sound Λ :=
  h.put (.refl _) ((h.conns c).goto hp)

theorem mutate (h : s.Sound Λ) {op : EngineOp} (hop : op.run Λ.env s.mirror = .ok m) :
    ({ s.put Λ c m (s.conns c) with unsaved := s.note Λ op m } : SharedState ι Λ.vaults).Sound Λ := by
  have ha := Advances.mutate hop
  have hput := h.put (c := c) ha ((h.conns c).advances ha)
  refine ⟨hput.conns, hput.watermark, fun hne => ?_⟩
  by_cases e : m.mutationSeq = s.mirror.mutationSeq
  · exact hput.unsaved (by simpa [note, SharedState.put, e] using hne)
  · have hle := ha.le
    have hw := h.watermark
    simp only [Mirror.isDirty, decide_eq_true_eq]
    show m.persistedSeq < m.mutationSeq
    rw [ha.persisted]
    omega

theorem ingestFile (h : s.Sound Λ) {vault : Vault} {settles : Bool}
    (hm : ingestVaultWithHeader vault (.vaultFile settles) s.mirror = .ok m) :
    ({ s.put Λ c m (s.conns c) with unsaved := [] } : SharedState ι Λ.vaults).Sound Λ := by
  have hlt := Advances.ingestVaultWithHeader hm
  have hc : m.mutationSeq = s.mirror.mutationSeq → SameContent s.mirror m :=
    fun e => absurd e hlt.ne'
  refine ⟨h.put_conns hlt.le hc ((h.conns c).step hlt.le hc), ?_, fun hne => absurd rfl hne⟩
  have hp := Advances.ingestFile_persisted hm
  show m.persistedSeq ≤ m.mutationSeq
  have hw := h.watermark
  omega

/-- **Every step keeps what the connections hold sound.** -/
theorem step (h : s.Sound Λ) (hstep : SharedStep Λ s c a s') : s'.Sound Λ := by
  cases hstep with
  | mutate _ hop => exact h.mutate hop
  | ingestFile _ hm => exact h.ingestFile hm
  | fileRefused => exact h
  | @resolve id r now ctx _ hctx =>
    have hk : (s.conns c).Sound Λ s.mirror := h.conns c
    have hrest : ∀ m, Advances s.mirror m →
        ({ s.conns c with pending := (s.conns c).pending.filter (·.id ≠ id) } :
          Connection Λ.vaults).Sound Λ m := fun m ha =>
      ⟨(hk.advances ha).point, fun x hx => (hk.advances ha).pending x (List.mem_filter.1 hx).1⟩
    cases hr : applyConflictResolution ctx r now s.mirror with
    | error e => exact h.put (.refl _) (hrest _ (.refl _))
    | ok m =>
      have ha := Advances.applyConflictResolution hr
      exact h.put ha (hrest m ha)
  | beginPull => exact h.goto ⟨le_refl _, trivial⟩
  | beginReconcile => exact h.goto ⟨le_refl _, trivial⟩
  | openResolver => exact h.goto ⟨le_refl _, le_refl _⟩
  | project hk hv =>
    have hp := (h.conns c).point
    rw [hk] at hp
    exact h.goto ⟨⟨hp.1, hv⟩, hp.2⟩
  | advance =>
    have hadv := (h.conns c).advance
    exact h.put hadv.1 hadv.2
  | fail => exact h.put (.refl _) (h.conns c).returned

theorem run {C : SharedState ι Λ.vaults → ι → CallStep → Prop} (h : s.Sound Λ)
    (hrun : SharedRun Λ C s s') : s'.Sound Λ := by
  induction hrun with
  | refl => exact h
  | step _ _ hstep ih => exact ih.step hstep

omit [DecidableEq ι] in
/-- A stashed conflict that is applied was projected from the mirror it is applied to. -/
theorem resolve_current (h : s.Sound Λ) {ctx : PendingConflictContext Λ.vaults} {r : Resolution}
    {now : DateTime} (hctx : ctx ∈ (s.conns c).pending)
    (hm : applyConflictResolution ctx r now s.mirror = .ok m) :
    s.mirror.project = .ok ctx.localVault := by
  obtain ⟨v, -, hm⟩ := except_bind_ok.1 hm
  obtain ⟨a, ha, -⟩ := except_bind_ok.1 hm
  exact ((h.conns c).pending ctx hctx).current (Advances.ingestProjectedVault_seq ha)

/-- The step of a call that is not disturbed. -/
theorem advance_lossless (h : s.Sound Λ) (hC : Undisturbed Λ s c .advance) :
    Lossless Λ s c .advance
      (s.put Λ c ((s.conns c).advance Λ s.mirror).1 ((s.conns c).advance Λ s.mirror).2) := by
  have hp := (h.conns c).point
  have hC := hC rfl
  show match (s.conns c).point with
    | .projected _ _ (.pull ord owner peer now) => _
    | .landing _ _ u owner merged _ => _
    | _ => SameContent s.mirror ((s.conns c).advance Λ s.mirror).1
  split
  · rename_i seq v ord owner peer now hk
    rw [hk] at hp hC
    have hv := hp.1.current (hC seq rfl)
    simp only [SharedState.put, Connection.advance, hk]
    cases hst : ingestPeer Λ.merge ord ⟨owner, v, peer, now⟩ s.mirror with
    | error e => exact .inl rfl
    | ok st => exact .inr ⟨v, st, hv, hst, rfl⟩
  · rename_i seq v u owner merged next hk
    rw [hk] at hp hC
    have hv := hp.1.current (hC seq rfl)
    obtain ⟨-, -, m₀, had⟩ := hp
    simp only [SharedState.put, Connection.advance, hk]
    cases ha : ingestVault merged s.mirror with
    | error e => exact .inl rfl
    | ok a => exact .inr ⟨v, m₀, a, hv, had, rfl, rfl⟩
  · rename_i hpull hland
    exact advance_sameContent s.mirror hpull hland

/-- **A step of a sound state that is not disturbed loses nothing.** -/
theorem lossless (h : s.Sound Λ) (hC : Undisturbed Λ s c a) (hstep : SharedStep Λ s c a s') :
    Lossless Λ s c a s' := by
  cases hstep with
  | mutate => trivial
  | ingestFile _ hm =>
    right
    by_contra hne
    have hdirty := h.unsaved hne
    rw [Advances.ingestFile_clean hm] at hdirty
    cases hdirty
  | fileRefused => exact .inl rfl
  | @resolve id r now ctx _ hctx =>
    have hmem := List.mem_of_find?_eq_some hctx
    cases hr : applyConflictResolution ctx r now s.mirror with
    | error e => exact .inl rfl
    | ok m => exact .inr ⟨ctx, hmem, h.resolve_current hmem hr, hr⟩
  | beginPull => rfl
  | beginReconcile => rfl
  | openResolver => rfl
  | project => rfl
  | advance => exact h.advance_lossless hC
  | fail => rfl

end Sound

end SharedState

variable {Λ}

/-- **Connections to one mirror, in any order of their steps: when nothing is committed between the
projection of a pull or of a landing and its write, every step leaves the content of the mirror or
makes it of the mirror it finds.** -/
theorem no_lost_update {s t t' : SharedState ι Λ.vaults} (hs : s.Quiet Λ)
    (hrun : SharedRun Λ (Undisturbed Λ) s t) {c : ι} {a : CallStep} (hC : Undisturbed Λ t c a)
    (hstep : SharedStep Λ t c a t') : Lossless Λ t c a t' :=
  (hs.sound.run hrun).lossless hC hstep

/-! ## A pull beside an edit -/

/-- Two connections to `m`, both idle. -/
def twoConnections (m : Mirror) : SharedState Bool fieldVaults := ⟨m, fun _ => {}, []⟩

def plainLibs : Libs := ⟨plainEnv, fieldMerge, fieldVaults⟩

def mailMirror : Mirror := clashMirror "mail" (.atSecond 5) none

/-- The peer gave the entry a user name. -/
def renamedPeer : Vault :=
  view ((EngineOp.editEntry 9 (.updateEntry { username := some "me" } (.atSecond 20))).next plainEnv
    mailMirror)

def peerPull : Purpose := .pull .insertion "peer" renamedPeer (.atSecond 30)

/-- The first connection is to project for a pull of that peer, and has projected. -/
def pullBegun : SharedState Bool fieldVaults :=
  (twoConnections mailMirror).put plainLibs true mailMirror
    (({} : Connection fieldVaults).goto (.projecting 0 peerPull))

def pullProjected : SharedState Bool fieldVaults :=
  pullBegun.put plainLibs true mailMirror
    ((pullBegun.conns true).goto (.projected 0 (view mailMirror) peerPull))

theorem twoConnections_quiet : (twoConnections mailMirror).Quiet plainLibs :=
  ⟨fun _ => ⟨rfl, rfl⟩, by decide +kernel, rfl⟩

theorem pullProjected_run {C : SharedState Bool fieldVaults → Bool → CallStep → Prop}
    (hC : ∀ s c a, a ≠ .advance → C s c a) :
    SharedRun plainLibs C (twoConnections mailMirror) pullProjected := by
  have hbegin : SharedStep plainLibs (twoConnections mailMirror) true
      (.beginPull .insertion "peer" renamedPeer (.atSecond 30)) pullBegun :=
    .beginPull rfl (by decide +kernel)
  have hproject : SharedStep plainLibs pullBegun true (.project (view mailMirror)) pullProjected :=
    .project rfl fun _ => project_view (by decide +kernel)
  refine .step (.step .refl (hC _ _ _ fun h => ?_) hbegin) (hC _ _ _ fun h => ?_) hproject
  · cases h
  · cases h

/-- The pull that is left alone takes the peer's user name and keeps the entry's title. -/
theorem no_lost_update_alone :
    Lossless plainLibs pullProjected true .advance
      (pullProjected.put plainLibs true ((pullProjected.conns true).advance plainLibs mailMirror).1
        ((pullProjected.conns true).advance plainLibs mailMirror).2) := by
  have hC : ∀ (s : SharedState Bool fieldVaults) (c : Bool) (a : CallStep), a ≠ .advance →
      Undisturbed plainLibs s c a := fun _ _ _ hne ha => absurd ha hne
  refine no_lost_update twoConnections_quiet (pullProjected_run hC) ?_ .advance
  intro _ seq hseq
  obtain rfl := Option.some.inj hseq
  rfl

/-- The edit of the title, committed by the second connection before the pull writes. -/
def retitle : EngineOp := .editEntry 9 (.updateEntry { title := some "bank" } (.atSecond 25))

def retitled : SharedState Bool fieldVaults :=
  { pullProjected.put plainLibs false (retitle.next plainEnv mailMirror) (pullProjected.conns false) with
    unsaved := pullProjected.note plainLibs retitle (retitle.next plainEnv mailMirror) }

def retitledPulled : SharedState Bool fieldVaults :=
  retitled.put plainLibs true ((retitled.conns true).advance plainLibs retitled.mirror).1
    ((retitled.conns true).advance plainLibs retitled.mirror).2

/-- The pull projects, the second connection retitles the entry, and the pull writes: the title is as
before the edit, which is the peer's too, and no record of the edit is left. Made of the mirror it
found, the pull would have kept the title. -/
theorem pull_discards_edit :
    (twoConnections mailMirror).Quiet plainLibs ∧
      SharedRun plainLibs (fun _ _ _ => True) (twoConnections mailMirror) retitled ∧
      SharedStep plainLibs retitled true .advance retitledPulled ∧
      ¬ Lossless plainLibs retitled true .advance retitledPulled ∧
      (retitled.mirror.entries.find? 9).map (·.title) = some "bank" ∧
      (retitledPulled.mirror.entries.find? 9).map (fun r => (r.title, r.history.map (·.title))) =
        some ("mail", ["mail"]) ∧
      (afterPull fieldMerge .insertion "peer" (.atSecond 30) renamedPeer
        retitled.mirror).1.entries.rows.map (·.title) = ["bank"] := by
  have hedit : SharedStep plainLibs pullProjected false (.mutate retitle) retitled :=
    .mutate rfl (EngineOp.run_next (by decide +kernel))
  have htitles : retitledPulled.mirror.entries.rows.map (·.title) = ["mail"] := by decide +kernel
  refine ⟨twoConnections_quiet,
    .step (pullProjected_run fun _ _ _ _ => trivial) trivial hedit, .advance, ?_, by decide +kernel,
    by decide +kernel, by decide +kernel⟩
  rintro (hsame | ⟨v, st, hv, hst, hpulled⟩)
  · rw [hsame] at htitles
    revert htitles
    decide +kernel
  · have hview : retitled.mirror.project = .ok (view retitled.mirror) :=
      project_view (by decide +kernel)
    obtain rfl := Except.ok.inj (hv.symm.trans hview)
    have hafter : ingestPeer fieldMerge .insertion
        ⟨"peer", view retitled.mirror, renamedPeer, .atSecond 30⟩ retitled.mirror =
          .ok (afterPull fieldMerge .insertion "peer" (.atSecond 30) renamedPeer retitled.mirror) :=
      ingestPeer_afterPull (by decide +kernel)
    obtain rfl := Except.ok.inj (hst.symm.trans hafter)
    rw [hpulled] at htitles
    revert htitles
    decide +kernel

end KeysCore.Verify
