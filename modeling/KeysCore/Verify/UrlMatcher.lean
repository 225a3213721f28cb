import KeysCore.UrlMatcher

/-!
# Candidates, filing domain and saved origin agree

`domain_candidates` counts labels, `credential_domain` asks for the registrable domain, and `origin` is
parsed anew. `candidates_agree` says what they have in common, for a suffix list that answers with whole
labels and a URL parser that reads a serialised origin back.
-/

namespace KeysCore.Verify

open UrlMatcher

/-! ## Labels -/

/-- The host from its `k`-th label on. -/
def labelSuffix (host : String) (k : Nat) : String :=
  String.ofList (['.'].intercalate ((labels host).drop k))

/-- `psl::domain` answers with the last labels of the host. -/
def LabelAligned (psl : String → Option String) : Prop :=
  ∀ host reg, psl host = some reg → ∃ k < (labels host).length, labels reg = (labels host).drop k

/-- The serialisation of a URL's origin has a scheme and no blanks around it, and parses to a URL with the
same host. -/
def OriginsReparse (L : UrlLib) : Prop :=
  ∀ s u h o, L.parse s = some u → u.host = some h → u.origin = some o →
    trim o = o ∧ containsStr o "://" = true ∧ ∃ u', L.parse o = some u' ∧ u'.host = some h

section Labels

variable {host reg : String} {k : Nat}

theorem join_labels (s : String) : String.ofList (['.'].intercalate (labels s)) = s := by
  unfold labels
  rw [List.intercalate_splitOn, String.ofList_toList]

theorem labels_length_pos (s : String) : 0 < (labels s).length :=
  List.length_pos_iff.2 (List.splitOn_ne_nil _ _)

theorem labelSuffix_zero (host : String) : labelSuffix host 0 = host := join_labels host

theorem labelSuffix_of_labels (h : labels reg = (labels host).drop k) : labelSuffix host k = reg := by
  unfold labelSuffix
  rw [← h, join_labels]

theorem join_cons_cons (a b : List Char) (ls : List (List Char)) :
    ['.'].intercalate (a :: b :: ls) = a ++ '.' :: ['.'].intercalate (b :: ls) := by
  simp [List.intercalate]

theorem toList_labelSuffix_succ (h : k + 1 < (labels host).length) :
    (labelSuffix host k).toList = (labels host)[k] ++ '.' :: (labelSuffix host (k + 1)).toList := by
  unfold labelSuffix
  have hk : (labels host).drop k = (labels host)[k] :: (labels host).drop (k + 1) :=
    List.drop_eq_getElem_cons (by omega)
  have hnext : (labels host).drop (k + 1) = (labels host)[k + 1] :: (labels host).drop (k + 2) :=
    List.drop_eq_getElem_cons h
  rw [String.toList_ofList, String.toList_ofList, hk, hnext, join_cons_cons]

/-- Each label dropped makes the suffix shorter. -/
theorem length_labelSuffix_lt {i j : Nat} (hij : i < j) (hj : j < (labels host).length) :
    (labelSuffix host j).length < (labelSuffix host i).length := by
  have hstep : ∀ k, k + 1 < (labels host).length →
      (labelSuffix host (k + 1)).length < (labelSuffix host k).length := by
    intro k hk
    have h := congrArg List.length (toList_labelSuffix_succ hk)
    rw [List.length_append, List.length_cons, String.length_toList, String.length_toList] at h
    omega
  induction j, hij using Nat.le_induction with
  | base => exact hstep i hj
  | succ j _ ih => exact (hstep j hj).trans (ih (by omega))

theorem labelSuffix_ne_empty (hne : [] ∉ labels host) (hk : k < (labels host).length) :
    labelSuffix host k ≠ "" := by
  intro h
  have hlist : (labelSuffix host k).toList = [] := by
    rw [h]
    rfl
  unfold labelSuffix at hlist
  rw [String.toList_ofList, List.drop_eq_getElem_cons hk] at hlist
  have hlabel : (labels host)[k] ≠ [] := fun he => hne (he ▸ List.getElem_mem hk)
  cases htail : (labels host).drop (k + 1) with
  | nil =>
    rw [htail] at hlist
    exact hlabel (by simpa [List.intercalate] using hlist)
  | cons l ls =>
    rw [htail] at hlist
    simp [List.intercalate] at hlist

end Labels

/-! ## The loop -/

/-- The candidates of a host with `k` labels over its registrable domain. -/
def suffixesTo (host : String) (k : Nat) : List String := (List.range' 0 (k + 1)).map (labelSuffix host)

theorem mem_suffixesTo {host c : String} {k : Nat} :
    c ∈ suffixesTo host k ↔ ∃ i ≤ k, labelSuffix host i = c := by
  unfold suffixesTo
  rw [List.mem_map]
  refine exists_congr fun i => and_congr_left fun _ => ?_
  rw [List.mem_range'_1]
  omega

/-- The loop from the `start`-th label on, with `d` labels to go to the registrable domain. -/
theorem candidateLoop_eq {host : String} {count start d : Nat}
    (h : start + d + count = (labels host).length) :
    candidateLoop (labels host) count start =
      some ((List.range' start (d + 1)).map (labelSuffix host)) := by
  induction d generalizing start with
  | zero =>
    unfold candidateLoop
    rw [dif_pos (by omega), dif_pos (by omega), dif_pos (by omega)]
    rfl
  | succ d ih =>
    unfold candidateLoop
    rw [dif_pos (by omega), dif_pos (by omega), dif_neg (by omega), ih (by omega)]
    rfl

/-- What `domain_candidates` returns, by the normalised host. -/
inductive CandidatesOf (psl : String → Option String) : Option Host → Option (List String) → Prop where
  | noHost : CandidatesOf psl none (some [])
  | ip (text : String) : CandidatesOf psl (some (.ip text)) (some [text])
  | publicSuffix {host : String} : psl host = none → CandidatesOf psl (some (.domain host)) (some [host])
  | downTo {host reg : String} {k : Nat} : psl host = some reg → k < (labels host).length →
      labelSuffix host k = reg → CandidatesOf psl (some (.domain host)) (some (suffixesTo host k))

section Matcher

variable {L : UrlLib} {psl : String → Option String}

theorem domainCandidates_spec (hpsl : LabelAligned psl) (s : String) :
    CandidatesOf psl (normaliseHost L s) (domainCandidates L psl s) := by
  unfold domainCandidates
  cases normaliseHost L s with
  | none => exact .noHost
  | some site =>
    cases site with
    | ip text => exact .ip text
    | domain host =>
      cases hreg : psl host with
      | none =>
        dsimp only
        rw [hreg]
        exact .publicSuffix hreg
      | some reg =>
        obtain ⟨k, hk, hlabels⟩ := hpsl host reg hreg
        have hcount : 0 + k + (labels reg).length = (labels host).length := by
          rw [hlabels, List.length_drop]
          omega
        dsimp only
        rw [hreg]
        dsimp only
        rw [candidateLoop_eq hcount]
        exact .downTo hreg hk (labelSuffix_of_labels hlabels)

/-- The labels of a normalised host are not empty. -/
theorem normaliseHost_labels {s host : String} (h : normaliseHost L s = some (.domain host)) :
    [] ∉ labels host := by
  obtain ⟨u, -, h⟩ := Option.bind_eq_some_iff.1 h
  unfold siteHost at h
  split at h
  · cases h
  · cases h
  · cases h
  · dsimp only at h
    split_ifs at h with hempty
    obtain rfl := Host.domain.inj (Option.some.inj h)
    exact fun hmem => hempty (.inr hmem)

/-- The host has the registrable domain `r`, or is `r`. -/
def OnDomain (psl : String → Option String) (r : String) : Option Host → Prop
  | none => False
  | some (.ip text) => text = r
  | some (.domain host) => psl host = some r ∨ host = r

theorem mem_candidates {site : Option Host} {r : String} {cs : Option (List String)}
    (h : CandidatesOf psl site cs) (hr : OnDomain psl r site) : ∃ l, cs = some l ∧ r ∈ l := by
  cases h with
  | noHost => cases hr
  | ip text =>
    obtain rfl : text = r := hr
    exact ⟨_, rfl, List.mem_singleton_self _⟩
  | publicSuffix hnone =>
    rcases hr with hr | rfl
    · rw [hnone] at hr
      cases hr
    · exact ⟨_, rfl, List.mem_singleton_self _⟩
  | @downTo host reg k hreg hk hsuffix =>
    refine ⟨_, rfl, mem_suffixesTo.2 ?_⟩
    rcases hr with hr | rfl
    · obtain rfl := Option.some.inj (hreg.symm.trans hr)
      exact ⟨k, le_rfl, hsuffix⟩
    · exact ⟨0, Nat.zero_le _, labelSuffix_zero _⟩

theorem parse_of_default_scheme {s : String} {u : ParsedUrl} (h : parseWithDefaultScheme L s = some u) :
    ∃ t, L.parse t = some u := by
  unfold parseWithDefaultScheme at h
  dsimp only at h
  split_ifs at h
  · exact ⟨_, h⟩
  · exact ⟨_, h⟩

/-- The saved origin normalises to the same host. -/
theorem normaliseHost_origin (hL : OriginsReparse L) {a o : String} (h : UrlMatcher.origin L a = some o) :
    normaliseHost L o = normaliseHost L a := by
  unfold UrlMatcher.origin at h
  split at h
  · cases h
  rename_i u hu
  split at h
  · cases h
  rename_i site hsite
  obtain ⟨s, hs⟩ := parse_of_default_scheme hu
  obtain ⟨host, hhost⟩ : ∃ host, u.host = some host := by
    cases hhost : u.host with
    | none =>
      unfold siteHost at hsite
      rw [hhost] at hsite
      cases hsite
    | some host => exact ⟨host, rfl⟩
  obtain ⟨htrim, hscheme, u', hu', hhost'⟩ := hL s u host o hs hhost h
  have hne : o ≠ "" := by
    rintro rfl
    exact absurd hscheme (by decide +kernel)
  have hparse : parseWithDefaultScheme L o = some u' := by
    unfold parseWithDefaultScheme
    dsimp only
    rw [htrim, if_neg hne, if_pos hscheme, hu']
  unfold normaliseHost
  rw [hparse, hu, Option.bind_some, Option.bind_some]
  unfold siteHost
  rw [hhost', hhost]

/-- The functions read an identifier by its normalised host alone. -/
theorem domainCandidates_congr {a b : String} (h : normaliseHost L a = normaliseHost L b) :
    domainCandidates L psl a = domainCandidates L psl b := by
  unfold domainCandidates
  rw [h]

theorem credentialDomain_congr {a b : String} (h : normaliseHost L a = normaliseHost L b) :
    credentialDomain L psl a = credentialDomain L psl b := by
  unfold credentialDomain
  rw [h]

/-- The candidates of a host get shorter, and none is empty. -/
theorem suffixesTo_shorter {host : String} {k : Nat} (hne : [] ∉ labels host)
    (hk : k < (labels host).length) :
    (suffixesTo host k).Pairwise (fun c d => d.length < c.length) ∧ ∀ c ∈ suffixesTo host k, c ≠ "" := by
  constructor
  · unfold suffixesTo
    rw [List.pairwise_map]
    refine List.Pairwise.imp_of_mem (fun {i j} _ hj hij => ?_) (List.pairwise_lt_range' 1)
    rw [List.mem_range'_1] at hj
    exact length_labelSuffix_lt hij (by omega)
  · intro c hc
    obtain ⟨i, hi, rfl⟩ := mem_suffixesTo.1 hc
    exact labelSuffix_ne_empty hne (by omega)

/-- **Candidates, filing domain and origin agree.** The candidates of an identifier are the suffixes of its
host by whole labels down to the registrable domain, ever shorter and none empty; the domain a credential
is filed under is a candidate of each identifier on that domain; and the saved origin has the candidates
and the filing domain of the identifier it is saved from. -/
theorem candidates_agree (hpsl : LabelAligned psl) (hL : OriginsReparse L) (a : String) :
    CandidatesOf psl (normaliseHost L a) (domainCandidates L psl a) ∧
      (∀ host l, normaliseHost L a = some (.domain host) → domainCandidates L psl a = some l →
        l.Pairwise (fun c d => d.length < c.length) ∧ ∀ c ∈ l, c ≠ "") ∧
      (∀ r b, credentialDomain L psl a = some r → OnDomain psl r (normaliseHost L b) →
        ∃ l, domainCandidates L psl b = some l ∧ r ∈ l) ∧
      ∀ o, UrlMatcher.origin L a = some o → domainCandidates L psl o = domainCandidates L psl a ∧
        credentialDomain L psl o = credentialDomain L psl a := by
  refine ⟨domainCandidates_spec hpsl a, fun host l hhost hl => ?_,
    fun r b _ hb => mem_candidates (domainCandidates_spec hpsl b) hb, fun o ho => ?_⟩
  · have hne := normaliseHost_labels hhost
    have hspec := domainCandidates_spec (L := L) hpsl a
    rw [hhost, hl] at hspec
    cases hspec with
    | publicSuffix =>
      refine ⟨List.pairwise_singleton _ _, fun c hc => ?_⟩
      obtain rfl := List.mem_singleton.1 hc
      rw [← labelSuffix_zero c]
      exact labelSuffix_ne_empty hne (labels_length_pos c)
    | downTo _ hk => exact suffixesTo_shorter hne hk
  · have hhost := normaliseHost_origin hL ho
    exact ⟨domainCandidates_congr hhost, credentialDomain_congr hhost⟩

end Matcher

/-- The login page of a site, as the crates read it. -/
def loginLib : UrlLib where
  parse url :=
    if url = "https://login.example.com/" ∨ url = "https://login.example.com" then
      some { host := some (.domain "login.example.com"), origin := some "https://login.example.com" }
    else none

def loginSuffixes (host : String) : Option String :=
  if host = "login.example.com" then some "example.com" else none

theorem loginSuffixes_aligned : LabelAligned loginSuffixes := by
  intro host reg h
  unfold loginSuffixes at h
  split_ifs at h with hhost
  obtain rfl := Option.some.inj h
  exact ⟨1, by rw [hhost]; decide +kernel, by rw [hhost]; decide +kernel⟩

theorem loginLib_reparses : OriginsReparse loginLib := by
  intro s u h o hs hh ho
  unfold loginLib at hs
  dsimp only at hs
  split_ifs at hs
  obtain rfl := Option.some.inj hs
  obtain rfl := Option.some.inj ho
  have hparse : loginLib.parse "https://login.example.com" =
      some ⟨some (.domain "login.example.com"), some "https://login.example.com"⟩ := by decide +kernel
  exact ⟨by decide +kernel, by decide +kernel, _, hparse, hh⟩

theorem candidates_agree_login :
    (∃ l, domainCandidates loginLib loginSuffixes "login.example.com" = some l ∧ "example.com" ∈ l) ∧
      domainCandidates loginLib loginSuffixes "https://login.example.com" =
        domainCandidates loginLib loginSuffixes "https://login.example.com/" := by
  obtain ⟨-, -, hfiled, horigin⟩ :=
    candidates_agree loginSuffixes_aligned loginLib_reparses "https://login.example.com/"
  have hhost : normaliseHost loginLib "login.example.com" = some (.domain "login.example.com") := by
    decide +kernel
  refine ⟨hfiled _ "login.example.com" (by decide +kernel) ?_, (horigin _ (by decide +kernel)).1⟩
  rw [hhost]
  exact .inl rfl

end KeysCore.Verify
