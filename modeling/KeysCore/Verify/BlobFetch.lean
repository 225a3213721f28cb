import KeysCore.BlobFetch
import KeysCore.Lib.Polling
import Mathlib.Data.List.Chain

/-!
# What a fetch asks for, and when it is over

Whatever the blob store, the doc and the clock do. A fetch asks the doc's peers for a blob an interval
apart at the earliest, never while a transfer of its own is under way, and only for content the doc's
download policy admits (`fetch_requests`). It waits little past its deadline, finds a blob that became
complete within a backstop of it, event or no event, and goes on asking while the blob stays incomplete
and nothing it started is under way (`fetch_timely`).
-/

namespace KeysCore

open Lib

variable {Hash PublicKey : Type} {c : FetchCall Hash PublicKey} {s : FetchLoop PublicKey}
  {r : FetchRound Hash} {rs : List (FetchRound Hash)}

/-! ## One iteration -/

theorem FetchLoop.asks_iff : s.asks r = true ↔ (∃ status, r.status = .ok status ∧
    status.isComplete = false) ∧ (s.requested.isSome → r.transferFinished) ∧
      s.nextRequestAt ≤ r.checkedAt := by
  unfold FetchLoop.asks
  cases r.status with
  | error cause => simp
  | ok status => cases h : s.requested.isSome <;> cases h' : r.transferFinished <;> simp

namespace FetchCall

/-- A round that leaves the loop waiting has read an incomplete blob, before the deadline. -/
theorem of_decision_none (h : c.decision r = none) : (∃ status, r.status = .ok status ∧
    status.isComplete = false) ∧ r.deadlineReadAt < c.deadlineAt := by
  unfold decision at h
  cases hs : r.status with
  | error cause => simp [hs] at h
  | ok status =>
    cases hj : c.judge status with
    | some result => simp [hs, hj] at h
    | none =>
      constructor
      · refine ⟨status, rfl, ?_⟩
        cases status with
        | complete size => simp only [judge] at hj; split at hj <;> cases hj
        | notFound => rfl
        | unfinished size => rfl
      · by_contra hlt
        simp [hs, hj, Nat.le_of_not_lt hlt] at h

theorem decision_complete {size : Nat} (h : r.status = .ok (.complete size))
    (hcap : c.tooLarge size = false) : c.decision r = some (.ok ()) := by
  simp [decision, h, judge, hcap]

/-! ## How long a round waits -/

/-- A round that starts at `x.1` does its own work within `δ`, and is woken at most `δ` late. -/
structure Paced (c : FetchCall Hash PublicKey) (δ : Nat) (x : Nat × FetchRound Hash) : Prop where
  checked : x.1 ≤ x.2.checkedAt
  requested : x.2.checkedAt ≤ x.2.requestedAt
  deadlineRead : x.2.requestedAt ≤ x.2.deadlineReadAt
  waits : x.2.deadlineReadAt ≤ x.2.waitFrom
  work : x.2.waitFrom ≤ x.1 + δ
  woken : x.2.wokenAt ≤ max x.2.waitFrom (c.wakeBy x.2) + δ

variable {δ : Nat} {x : Nat × FetchRound Hash}

theorem Paced.woken_backstop (h : c.Paced δ x) :
    x.2.wokenAt ≤ x.1 + fetchBlobStatusBackstop + 2 * δ := by
  have h₁ := h.work
  have h₂ := h.woken
  simp only [wakeBy] at h₂
  omega

theorem Paced.woken_deadline (h : c.Paced δ x) (hx : x.1 < c.deadlineAt) :
    x.2.wokenAt ≤ c.deadlineAt + 2 * δ := by
  have h₁ := h.work
  have h₂ := h.woken
  simp only [wakeBy] at h₂
  omega

/-- From the deadline on every round decides. -/
theorem Paced.decides (h : c.Paced δ x) (hx : c.deadlineAt ≤ x.1) : c.decision x.2 ≠ none := by
  intro hnone
  have h₁ := (of_decision_none hnone).2
  have h₂ := h.checked
  have h₃ := h.requested
  have h₄ := h.deadlineRead
  omega

/-! ## Rounds that ask -/

/-- Rounds an interval apart: the `i`th one is `i` intervals after the first. -/
theorem spaced_index {t : Nat} {asked : List (FetchRound Hash)}
    (hclock : ∀ r ∈ asked, r.checkedAt ≤ r.requestedAt)
    (hspaced : asked.Pairwise fun a b => a.requestedAt + missingBlobRequestInterval ≤ b.checkedAt)
    (hfirst : ∀ r ∈ asked, t ≤ r.checkedAt) (i : Nat) (hi : i < asked.length) :
    t + i * missingBlobRequestInterval ≤ asked[i].checkedAt := by
  induction asked generalizing t i with
  | nil => simp at hi
  | cons a asked ih =>
    obtain ⟨ha, hrest⟩ := List.pairwise_cons.1 hspaced
    cases i with
    | zero => simpa using hfirst a List.mem_cons_self
    | succ i =>
      have hfirst' : ∀ r ∈ asked, t + missingBlobRequestInterval ≤ r.checkedAt := by
        intro r hr
        have h₁ := hfirst a List.mem_cons_self
        have h₂ := hclock a List.mem_cons_self
        have h₃ := ha r hr
        omega
      have := ih (fun r hr => hclock r (List.mem_cons_of_mem _ hr)) hrest hfirst' i
        (by simpa using hi)
      simp only [List.getElem_cons_succ]
      rw [Nat.succ_mul]
      omega

/-- When the rounds asked last, `t` if none did. -/
def lastAskedAt (t : Nat) (asked : List (FetchRound Hash)) : Nat :=
  (asked.getLast?.map (·.requestedAt)).getD t

theorem lastAskedAt_cons (t : Nat) (r : FetchRound Hash) (asked : List (FetchRound Hash)) :
    lastAskedAt t (r :: asked) = lastAskedAt r.requestedAt asked := by
  cases asked with
  | nil => rfl
  | cons a asked => simp [lastAskedAt, List.getLast?_eq_some_getLast]

end FetchCall

variable [DecidableEq Hash]

/-! ## Providers -/

/-- `hash` is named by an entry of the doc that the download policy admits. -/
def Admitted (doc : DocReads Hash) (hash : Hash) : Prop :=
  ∃ policy entries entry, doc.downloadPolicy = .ok policy ∧ doc.getMany = .ok entries ∧
    .ok entry ∈ entries ∧ entry.contentHash = hash ∧ policy entry = true

theorem findAdmitted_true {policy : DocEntry Hash → Bool} {hash : Hash}
    {entries : List (Except String (DocEntry Hash))} (h : findAdmitted policy hash entries = .ok true) :
    ∃ entry, .ok entry ∈ entries ∧ entry.contentHash = hash ∧ policy entry = true := by
  induction entries with
  | nil => cases h
  | cons e rest ih =>
    cases e with
    | error cause => cases h
    | ok entry =>
      rw [findAdmitted] at h
      split at h
      next hentry => exact ⟨entry, List.mem_cons_self, hentry.1, hentry.2⟩
      next =>
        obtain ⟨found, hmem, hfound⟩ := ih h
        exact ⟨found, List.mem_cons_of_mem _ hmem, hfound⟩

theorem withContext_bind_ok {α β : Type} {context : String} {x : Except String α}
    {k : α → Except FetchBlobError β} {b : β} (h : (withContext context x >>= k) = .ok b) :
    ∃ a, x = .ok a ∧ k a = .ok b := by
  cases x with
  | ok a => exact ⟨a, rfl, h⟩
  | error cause => cases h

/-- Providers are peers of the doc, of an admitted hash. -/
theorem admittedProviders_ok {fromBytes : List UInt8 → Option PublicKey} {doc : DocReads Hash}
    {hash : Hash} {providers : List PublicKey} (h : admittedProviders fromBytes doc hash = .ok providers)
    (hne : providers ≠ []) : Admitted doc hash ∧
      ∃ peers, doc.getSyncPeers = .ok (some peers) ∧ providers = peers.filterMap fromBytes := by
  unfold admittedProviders at h
  obtain ⟨policy, hpolicy, h⟩ := withContext_bind_ok h
  obtain ⟨entries, hentries, h⟩ := withContext_bind_ok h
  cases hfind : findAdmitted policy hash entries with
  | error e =>
    rw [hfind] at h
    cases h
  | ok admitted =>
    rw [hfind] at h
    cases admitted with
    | false =>
      cases h
      exact absurd rfl hne
    | true =>
      obtain ⟨entry, hmem, hhash, hadmits⟩ := findAdmitted_true hfind
      obtain ⟨answer, hpeers, h⟩ := withContext_bind_ok h
      obtain rfl : (answer.getD []).filterMap fromBytes = providers := Except.ok.inj h
      refine ⟨⟨policy, entries, entry, hpolicy, hentries, hmem, hhash, hadmits⟩, ?_⟩
      cases answer with
      | none => exact absurd rfl hne
      | some peers => exact ⟨peers, hpeers, rfl⟩

theorem requestMissingBlob_some {fromBytes : List UInt8 → Option PublicKey} {doc : DocReads Hash}
    {hash : Hash} {providers : List PublicKey}
    (h : requestMissingBlob fromBytes doc hash = some providers) :
    providers ≠ [] ∧ Admitted doc hash ∧
      ∃ peers, doc.getSyncPeers = .ok (some peers) ∧ providers = peers.filterMap fromBytes := by
  unfold requestMissingBlob at h
  split at h
  next => cases h
  next hne hok =>
    cases h
    exact ⟨hne, admittedProviders_ok hok hne⟩
  next => cases h

/-! ## The loop -/

namespace FetchCall

theorem request_asks (h : s.asks r = true) : c.request s r =
    { requested := requestMissingBlob c.fromBytes r.doc c.hash
      nextRequestAt := r.requestedAt + missingBlobRequestInterval } := if_pos h

theorem request_quiet (h : s.asks r = false) : c.request s r = s :=
  if_neg (by simp [h])

/-- **The loop ends with what the first deciding round decides**, whatever it has asked for. -/
theorem loop_result : (c.loop s rs).result = rs.findSome? c.decision := by
  induction rs generalizing s with
  | nil => rfl
  | cons r rs ih =>
    rw [List.findSome?_cons, loop]
    cases h : c.decision r with
    | some result => rfl
    | none => exact ih

/-- What is asked: by the first round, if it asks, and by the rest, if the first round leaves the loop
waiting. -/
theorem loop_asked_cons : (c.loop s (r :: rs)).asked = (if s.asks r then [r] else []) ++
    if c.decision r = none then (c.loop (c.request s r) rs).asked else [] := by
  rw [loop]
  cases c.decision r <;> simp

/-- Rounds ask, they are not made up. -/
theorem loop_asked_sublist : (c.loop s rs).asked.Sublist rs := by
  induction rs generalizing s with
  | nil => exact List.Sublist.slnil
  | cons r rs ih =>
    rw [loop_asked_cons]
    have hrest : (if c.decision r = none then (c.loop (c.request s r) rs).asked else []).Sublist rs := by
      split
      · exact ih
      · exact List.nil_sublist rs
    split
    · exact hrest.cons_cons r
    · exact hrest.cons r

/-! ## What is asked for -/

/-- The rounds of a call that ask the peers. -/
def asked (c : FetchCall Hash PublicKey) (rs : List (FetchRound Hash)) : List (FetchRound Hash) :=
  (c.loop c.init rs).asked

/-- The peers of the transfer a round starts, if it asks. -/
def transfer (c : FetchCall Hash PublicKey) (r : FetchRound Hash) : Option (List PublicKey) :=
  requestMissingBlob c.fromBytes r.doc c.hash

/-- What holds of the rounds that ask, from the loop variables `s` on: the blob was incomplete, an
interval had passed since the last one, and the transfer under way before was over. -/
structure Asks (c : FetchCall Hash PublicKey) (s : FetchLoop PublicKey) (asked : List (FetchRound Hash)) :
    Prop where
  incomplete : ∀ r ∈ asked, ∃ status, r.status = .ok status ∧ status.isComplete = false
  first : ∀ r ∈ asked, s.nextRequestAt ≤ r.checkedAt
  spaced : asked.Pairwise fun a b => a.requestedAt + missingBlobRequestInterval ≤ b.checkedAt
  firstFree : ∀ r ∈ asked.head?, s.requested.isSome → r.transferFinished
  free : asked.IsChain fun a b => (c.transfer a).isSome → b.transferFinished

theorem Asks.nil : c.Asks s [] where
  incomplete := by simp
  first := by simp
  spaced := .nil
  firstFree := by simp
  free := .nil

/-- A round that asks comes before those the loop asks afterwards. -/
theorem Asks.cons {asked : List (FetchRound Hash)} (hclock : r.checkedAt ≤ r.requestedAt)
    (ha : s.asks r = true) (h : c.Asks (c.request s r) asked) : c.Asks s (r :: asked) := by
  obtain ⟨hincomplete, hfree, hdue⟩ := FetchLoop.asks_iff.1 ha
  rw [request_asks ha] at h
  refine ⟨?_, ?_, ?_, ?_, ?_⟩
  · simpa using ⟨hincomplete, h.incomplete⟩
  · intro b hb
    rcases List.mem_cons.1 hb with rfl | hb
    · exact hdue
    · have := h.first b hb
      simp only at this
      omega
  · exact List.pairwise_cons.2 ⟨h.first, h.spaced⟩
  · simpa using hfree
  · exact List.isChain_cons.2 ⟨h.firstFree, h.free⟩

theorem loop_asks (hclock : ∀ r ∈ rs, r.checkedAt ≤ r.requestedAt) : c.Asks s (c.loop s rs).asked := by
  induction rs generalizing s with
  | nil => exact .nil
  | cons r rs ih =>
    have hrest : c.Asks (c.request s r)
        (if c.decision r = none then (c.loop (c.request s r) rs).asked else []) := by
      split
      · exact ih fun q hq => hclock q (List.mem_cons_of_mem _ hq)
      · exact .nil
    rw [loop_asked_cons]
    cases ha : s.asks r with
    | true => exact .cons (hclock r List.mem_cons_self) ha hrest
    | false =>
      rw [request_quiet ha] at hrest ⊢
      exact hrest

theorem le_lastAskedAt {t : Nat} (hclock : ∀ r ∈ rs, r.checkedAt ≤ r.requestedAt)
    (hs : t ≤ s.nextRequestAt) : t ≤ lastAskedAt t (c.loop s rs).asked := by
  have hasks := loop_asks (c := c) (s := s) hclock
  unfold lastAskedAt
  cases h : (c.loop s rs).asked.getLast? with
  | none => exact Nat.le_refl t
  | some r =>
    have hr := List.mem_of_getLast? h
    have h₁ := hasks.first r hr
    have h₂ := hclock r (loop_asked_sublist.subset hr)
    simp only [Option.map_some, Option.getD_some]
    omega

/-- **A loop with no transfer under way has asked not long ago**, or started not long ago. -/
theorem asked_recently {t u : Nat} (hwait : (c.loop s rs).result = none)
    (hpaced : ∀ x ∈ timed (·.wokenAt) t rs, c.Paced δ x) (hfree : ∀ r ∈ rs, r.transferFinished = true)
    (hs : s.nextRequestAt = u + missingBlobRequestInterval) :
    endAt (·.wokenAt) t rs ≤ max t (lastAskedAt u (c.loop s rs).asked + missingBlobRequestInterval +
      fetchBlobStatusBackstop + 2 * δ) := by
  induction rs generalizing s t u with
  | nil => exact Nat.le_max_left _ _
  | cons r rs ih =>
    have hr := hpaced (t, r) List.mem_cons_self
    have hrest := fun x hx => hpaced x (List.mem_cons_of_mem _ hx)
    have hclock : ∀ q ∈ rs, q.checkedAt ≤ q.requestedAt := by
      intro q hq
      obtain ⟨w, hw⟩ := exists_mem_timed hq r.wokenAt
      exact (hrest _ hw).requested
    rw [loop_result, List.findSome?_eq_none_iff] at hwait
    have hnone := hwait r List.mem_cons_self
    have hwait' : ∀ s', (c.loop s' rs).result = none := by
      intro s'
      rw [loop_result, List.findSome?_eq_none_iff]
      exact fun q hq => hwait q (List.mem_cons_of_mem _ hq)
    have hfree' : ∀ q ∈ rs, q.transferFinished = true := fun q hq => hfree q (List.mem_cons_of_mem _ hq)
    have hwoken := hr.woken_backstop
    have hchecked := hr.checked
    have hrequested := hr.requested
    rw [loop_asked_cons, if_pos hnone]
    show endAt (·.wokenAt) r.wokenAt rs ≤ _
    cases ha : s.asks r with
    | true =>
      have hnext : (c.request s r).nextRequestAt = r.requestedAt + missingBlobRequestInterval := by
        rw [request_asks ha]
      have hend : endAt (·.wokenAt) r.wokenAt rs ≤ _ := ih (hwait' _) hrest hfree' hnext
      have hlast := le_lastAskedAt (c := c) (s := c.request s r) (t := r.requestedAt) hclock (by omega)
      simp only [if_true, List.singleton_append, lastAskedAt_cons]
      simp only at hwoken hchecked hrequested
      omega
    | false =>
      have hearly : r.checkedAt < s.nextRequestAt := by
        refine Nat.lt_of_not_le fun hdue => ?_
        have hasks := FetchLoop.asks_iff.2
          ⟨(of_decision_none hnone).1, fun _ => hfree r List.mem_cons_self, hdue⟩
        rw [ha] at hasks
        cases hasks
      rw [request_quiet ha]
      have hend : endAt (·.wokenAt) r.wokenAt rs ≤ _ := ih (hwait' s) hrest hfree' hs
      have hlast := le_lastAskedAt (c := c) (s := s) (t := u) hclock (by omega)
      simp only [Bool.false_eq_true, if_false, List.nil_append]
      simp only at hwoken hchecked hrequested
      omega

end FetchCall

namespace Verify

/-! ## Fetches -/

/-- **What a fetch asks for.** Over any rounds whose clock does not go back between two readings, the
`i`th round that asks comes `i + 1` intervals after the start of the call at the earliest. It has read an
incomplete blob, and comes when the transfer of the one before it is over. What it asks are peers of the
doc, for content its download policy admits. -/
theorem fetch_requests (hclock : ∀ r ∈ rs, r.checkedAt ≤ r.requestedAt) :
    (c.asked rs).Sublist rs ∧
    (∀ i (h : i < (c.asked rs).length),
      c.startedAt + (i + 1) * missingBlobRequestInterval ≤ (c.asked rs)[i].checkedAt) ∧
    (c.asked rs).Pairwise (fun a b => a.requestedAt + missingBlobRequestInterval ≤ b.checkedAt) ∧
    (c.asked rs).IsChain (fun a b => (c.transfer a).isSome → b.transferFinished) ∧
    ∀ r ∈ c.asked rs, (∃ status, r.status = .ok status ∧ status.isComplete = false) ∧
      ∀ providers, c.transfer r = some providers → providers ≠ [] ∧ Admitted r.doc c.hash ∧
        ∃ peers, r.doc.getSyncPeers = .ok (some peers) ∧ providers = peers.filterMap c.fromBytes := by
  have hasks := FetchCall.loop_asks (c := c) (s := c.init) hclock
  have hsub : (c.asked rs).Sublist rs := FetchCall.loop_asked_sublist
  refine ⟨hsub, ?_, hasks.spaced, hasks.free, fun r hr => ⟨hasks.incomplete r hr, ?_⟩⟩
  · intro i hi
    have hindex : c.startedAt + missingBlobRequestInterval + i * missingBlobRequestInterval ≤ _ :=
      FetchCall.spaced_index (fun r hr => hclock r (hsub.subset hr)) hasks.spaced hasks.first i hi
    rw [Nat.succ_mul]
    omega
  · exact fun providers h => requestMissingBlob_some h

/-- A fetch of the blob under `7`, without a cap. -/
def lostBlob : FetchCall Nat Nat where
  hash := 7
  maxSizeBytes := 0
  startedAt := 0
  fromBytes bytes := some bytes.length

/-- The round at `start` of a fetch whose blob is not there and whose doc has one entry and one peer. -/
def missingRound (start : Nat) : FetchRound Nat where
  status := .ok .notFound
  transferFinished := true
  checkedAt := start
  requestedAt := start
  doc := ⟨.ok fun entry => entry.key = [1], .ok [.ok ⟨[1], 7⟩], .ok (some [[0]])⟩
  deadlineReadAt := start
  waitFrom := start
  wake := .elapsed
  wokenAt := start + 2000

def foundRound : FetchRound Nat := { missingRound 8000 with status := .ok (.complete 3) }

/-- A blob that is lost, asked for after six seconds, and there two seconds later. -/
def lostThenFound : List (FetchRound Nat) :=
  [missingRound 0, missingRound 2000, missingRound 4000, missingRound 6000, foundRound]

theorem fetch_requests_lostThenFound :
    (lostBlob.asked lostThenFound).length = 1 ∧
    ∀ r ∈ lostBlob.asked lostThenFound, ∀ providers,
      lostBlob.transfer r = some providers → Admitted r.doc 7 := by
  refine ⟨rfl, fun r hr providers h => ?_⟩
  have hclock : ∀ r ∈ lostThenFound, r.checkedAt ≤ r.requestedAt := by
    simp [lostThenFound, foundRound, missingRound]
  obtain ⟨-, -, -, -, hasked⟩ := fetch_requests (c := lostBlob) hclock
  exact ((hasked r hr).2 providers h).2.1

/-- **How long a fetch takes.** Over rounds that do their own work within `δ` and are woken at most `δ`
late, a call that waits has not got further past its deadline than `2 * δ`, and ends in any round from the
deadline on. Of a blob that is complete within the cap from `T` on, a call that waits has not got further
than a backstop and `2 * δ` past `T`, and it returns the bytes if nothing before `T` ended it. While none
of its transfers is under way, the last round that asked is at most an interval, a backstop and `2 * δ`
back. -/
theorem fetch_timely {δ : Nat} {getBytes : Except String (List UInt8)}
    (hpaced : ∀ x ∈ timed (·.wokenAt) c.startedAt rs, c.Paced δ x) :
    let waits := c.fetchBlobWithDeadline rs getBytes = none
    let last := endAt (·.wokenAt) c.startedAt rs
    (waits → last ≤ c.deadlineAt + 2 * δ) ∧
    ((∃ x ∈ timed (·.wokenAt) c.startedAt rs, c.deadlineAt ≤ x.1) → ¬ waits) ∧
    (∀ T, (∀ x ∈ timed (·.wokenAt) c.startedAt rs, T ≤ x.1 →
        ∃ size, x.2.status = .ok (.complete size) ∧ c.tooLarge size = false) →
      (waits → last ≤ max c.startedAt (T + fetchBlobStatusBackstop + 2 * δ)) ∧
      ((∀ x ∈ timed (·.wokenAt) c.startedAt rs, x.1 < T → c.decision x.2 = none) →
        (∃ x ∈ timed (·.wokenAt) c.startedAt rs, T ≤ x.1) →
        c.fetchBlobWithDeadline rs getBytes = some (withContext "read complete blob" getBytes))) ∧
    (waits → (∀ r ∈ rs, r.transferFinished = true) →
      last ≤ FetchCall.lastAskedAt c.startedAt (c.asked rs) + missingBlobRequestInterval +
        fetchBlobStatusBackstop + 2 * δ) := by
  have hwaits : c.fetchBlobWithDeadline rs getBytes = none ↔ rs.findSome? c.decision = none := by
    rw [FetchCall.fetchBlobWithDeadline, Option.map_eq_none_iff, FetchCall.loop_result]
  have hdecides : ∀ x ∈ timed (·.wokenAt) c.startedAt rs, c.deadlineAt ≤ x.1 → c.decision x.2 ≠ none :=
    fun x hx => (hpaced x hx).decides
  refine ⟨fun hw => ?_, fun hreach hw => ?_, fun T hcomplete => ⟨fun hw => ?_, fun hbefore hreach => ?_⟩,
    fun hw hfree => ?_⟩
  · have hend := poll_waits (hwaits.1 hw) hdecides fun x hx hlt _ => (hpaced x hx).woken_deadline hlt
    have hstart : c.startedAt ≤ c.deadlineAt := Nat.le_add_right _ _
    omega
  · exact poll_ends hdecides hreach (hwaits.1 hw)
  · refine poll_waits (T := T) (hwaits.1 hw) (fun x hx hT => ?_) fun x hx hlt _ => ?_
    · obtain ⟨size, hs, hcap⟩ := hcomplete x hx hT
      simp [FetchCall.decision_complete hs hcap]
    · have := (hpaced x hx).woken_backstop
      omega
  · have hresult : rs.findSome? c.decision = some (.ok ()) := by
      refine poll_result (fun x hx hT => ?_) hbefore hreach
      obtain ⟨size, hs, hcap⟩ := hcomplete x hx hT
      exact FetchCall.decision_complete hs hcap
    rw [FetchCall.fetchBlobWithDeadline, FetchCall.loop_result, hresult]
    rfl
  · have hclock : ∀ r ∈ rs, r.checkedAt ≤ r.requestedAt := by
      intro r hr
      obtain ⟨w, hw⟩ := exists_mem_timed hr c.startedAt
      exact (hpaced _ hw).requested
    rw [hwaits, ← FetchCall.loop_result (s := c.init)] at hw
    have hend : endAt (·.wokenAt) c.startedAt rs ≤ max c.startedAt
        (FetchCall.lastAskedAt c.startedAt (c.asked rs) + _ + _ + _) :=
      FetchCall.asked_recently hw hpaced hfree rfl
    have hlast : c.startedAt ≤ FetchCall.lastAskedAt c.startedAt (c.asked rs) :=
      FetchCall.le_lastAskedAt hclock (Nat.le_add_right _ _)
    omega

theorem mem_lostThenFound {t : Nat} {r : FetchRound Nat}
    (h : (t, r) ∈ timed (·.wokenAt) 0 lostThenFound) :
    t < 8000 ∧ r = missingRound t ∨ t = 8000 ∧ r = foundRound := by
  simp only [lostThenFound, timed, List.mem_cons, List.not_mem_nil, or_false, Prod.mk.injEq] at h
  rcases h with ⟨rfl, rfl⟩ | ⟨rfl, rfl⟩ | ⟨rfl, rfl⟩ | ⟨rfl, rfl⟩ | ⟨rfl, rfl⟩ <;> simp [missingRound]

theorem fetch_timely_lostThenFound :
    lostBlob.fetchBlobWithDeadline lostThenFound (.ok [1, 2, 3]) = some (.ok [1, 2, 3]) := by
  have hpaced : ∀ x ∈ timed (·.wokenAt) lostBlob.startedAt lostThenFound, lostBlob.Paced 0 x := by
    rintro ⟨t, r⟩ hx
    rcases mem_lostThenFound hx with ⟨ht, rfl⟩ | ⟨rfl, rfl⟩
    · constructor <;> simp [missingRound, FetchCall.wakeBy, FetchCall.deadlineAt, lostBlob,
        fetchBlobDeadline, fetchBlobStatusBackstop]
      omega
    · constructor <;> decide
  refine ((fetch_timely hpaced).2.2.1 8000 ?_).2 ?_
    ⟨(8000, foundRound), by simp [lostThenFound, timed, missingRound], Nat.le_refl _⟩
  · rintro ⟨t, r⟩ hx hT
    rcases mem_lostThenFound hx with ⟨ht, -⟩ | ⟨rfl, rfl⟩
    · exact absurd hT (Nat.not_le_of_lt ht)
    · exact ⟨3, rfl, rfl⟩
  · rintro ⟨t, r⟩ hx hT
    rcases mem_lostThenFound hx with ⟨ht, rfl⟩ | ⟨rfl, rfl⟩
    · have hlate : ¬ lostBlob.deadlineAt ≤ t := by
        show ¬ 0 + 60000 ≤ t
        omega
      simp [FetchCall.decision, FetchCall.judge, missingRound, hlate]
    · exact absurd hT (Nat.lt_irrefl _)

end Verify

end KeysCore
