import KeysCore.Lib.AsciiCase
import KeysCore.ServiceSearch
import KeysCore.Verify.DerivedColumns

/-!
# What the AutoFill lookup finds

A URL's host ranks in one of the two host tiers exactly when it is, or lies below, the domain the lookup
keeps of the identifier's host (`Reached`, `searchDomain`, `hostTier_iff`). The domain comes from a
count of labels, while the matcher takes it from the Public Suffix List, and the two part in both
directions. A lookup crosses sites where a host it reaches belongs to another site
(`host_tiers_on_site_iff`), such as another tenant of a public suffix or another address with the same
last two numbers. And it misses an entry saved for the page itself where the page's host is not reached
(`saved_page_found_iff`), as the lookup reads an identifier without a scheme as a host, with its port,
path or user name. Such an identifier may also carry a NUL, where `LIKE` stops reading the domain.
-/

namespace KeysCore.Verify

open Lib

variable {L : UrlLib} {psl : String → Option String}

/-! ## Hosts under a domain -/

/-- The host is the domain, or ends in a dot and the domain. -/
def Under (d h : String) : Prop := h = d ∨ '.' :: d.toList <:+ h.toList

instance (d h : String) : Decidable (Under d h) := inferInstanceAs (Decidable (_ ∨ _))

theorem Under.refl (h : String) : Under h h := .inl rfl

theorem Under.trans {d h k : String} (hd : Under d h) (hk : Under h k) : Under d k := by
  rcases hk with rfl | hk
  · exact hd
  · rcases hd with rfl | hd
    · exact .inr hk
    · exact .inr ((hd.trans (List.suffix_cons _ _)).trans hk)

theorem Under.mem {d h : String} (hd : Under d h) {c : Char} (hc : c ∈ d.toList) : c ∈ h.toList := by
  rcases hd with rfl | hd
  · exact hc
  · exact hd.subset (List.mem_cons_of_mem _ hc)

theorem under_www (h : String) : Under h ("www." ++ h) := by
  refine .inr ⟨"www".toList, ?_⟩
  rw [String.toList_append]
  rfl

theorem under_stripWww (h : String) : Under (stripWww h) h := by
  unfold stripWww
  split
  · rename_i hp
    obtain ⟨t, ht⟩ := List.isPrefixOf_iff_prefix.1 hp
    refine .inr ⟨"www".toList, ?_⟩
    have hstrip : (String.ofList (h.toList.drop 4)).toList = t := by
      rw [String.toList_ofList, ← ht]
      rfl
    rw [hstrip, ← ht]
    rfl
  · exact .refl h

/-- The last parts of a joined text, one of them at least. -/
theorem intercalate_drop {xs : List (List Char)} {k : Nat} (hk : k < xs.length) :
    ['.'].intercalate (xs.drop k) = ['.'].intercalate xs ∨
      '.' :: ['.'].intercalate (xs.drop k) <:+ ['.'].intercalate xs := by
  induction xs generalizing k with
  | nil => cases hk
  | cons x xs ih =>
    cases k with
    | zero => exact .inl rfl
    | succ k =>
      cases xs with
      | nil => simp at hk
      | cons y ys =>
        have htail : '.' :: ['.'].intercalate (y :: ys) <:+ ['.'].intercalate (x :: y :: ys) :=
          ⟨x, by simp [List.intercalate]⟩
        rw [List.drop_succ_cons]
        rcases ih (by simpa using hk) with h | h
        · rw [h]
          exact .inr htail
        · exact .inr ((h.trans (List.suffix_cons _ _)).trans htail)

theorem under_lastLabels {n : Nat} (hn : 0 < n) (h : String) : Under (lastLabels n h) h := by
  have hsplit : ['.'].intercalate (labels h) = h.toList := List.intercalate_splitOn _
  have hpos : 0 < (labels h).length := List.length_pos_iff.2 (List.splitOn_ne_nil _ _)
  have hlt : (labels h).length - n < (labels h).length := by omega
  rcases intercalate_drop hlt with he | he
  · left
    rw [lastLabels, he, hsplit, String.ofList_toList]
  · right
    rw [lastLabels, String.toList_ofList, ← hsplit]
    exact he

theorem under_registrableDomain (h : String) : Under (registrableDomain h) h := by
  refine Under.trans ?_ (under_stripWww h)
  unfold registrableDomain
  dsimp only
  split
  · exact .refl _
  · split
    · exact under_lastLabels (by omega) _
    · exact under_lastLabels (by omega) _

/-! ## NUL -/

theorem nulFree_map_toLower (s : String) : NulFree (s.map Char.toLower) ↔ NulFree s := by
  have hnul (c : Char) : c.toLower = '\x00' ↔ c = '\x00' := toLower_eq_iff (by decide)
  simp [NulFree, hnul]

/-- No host has a NUL, which is among the code points that the URL standard forbids in one. -/
def HostsNulFree (L : UrlLib) : Prop :=
  ∀ text u host, L.parse text = some u → u.hostStr = some host → NulFree host

theorem nulFree_parseHost (hL : HostsNulFree L) (url : String) : NulFree (parseHost L url) := by
  have hempty : NulFree "" := List.not_mem_nil
  unfold parseHost
  split
  · exact hempty
  · split
    · rename_i u hu
      cases hstr : u.hostStr with
      | none => exact hempty
      | some host => exact (nulFree_map_toLower host).2 (hL url u host hu hstr)
    · exact hempty

/-- The lookup of a domain reaches a host: the host is the domain, or ends in a dot and what a C string
says of the domain. -/
def Reached (d h : String) : Prop := h = d ∨ '.' :: Like.cString d.toList <:+ h.toList

instance (d h : String) : Decidable (Reached d h) := inferInstanceAs (Decidable (_ ∨ _))

/-- A domain without a NUL reaches the hosts under it. -/
theorem reached_iff_under {d : String} (hd : NulFree d) (h : String) : Reached d h ↔ Under d h := by
  rw [Reached, Like.cString_of_not_mem hd, Under]

theorem Under.reached {d h : String} (hd : Under d h) (hh : NulFree h) : Reached d h :=
  (reached_iff_under (fun hmem => hh (hd.mem hmem)) h).2 hd

/-! ## Lower case -/

/-- No letter that `LIKE` would compare with another one. -/
def Lower (s : String) : Prop := ∀ c ∈ s.toList, c.toLower = c

theorem lower_toAsciiLowercase (s : String) : Lower (toAsciiLowercase s) := by
  intro c hc
  unfold toAsciiLowercase at hc
  rw [String.toList_map] at hc
  obtain ⟨d, -, rfl⟩ := List.mem_map.1 hc
  exact Char.toLower_toLower_eq_toLower d

theorem lower_parseHost (url : String) : Lower (parseHost L url) := by
  have hempty : Lower "" := fun c hc => absurd hc List.not_mem_nil
  unfold parseHost
  split
  · exact hempty
  · split
    · rename_i u _
      cases u.hostStr with
      | none => exact hempty
      | some host => exact lower_toAsciiLowercase host
    · exact hempty

theorem lower_rawHost (s : String) : Lower (rawHost L s) := by
  unfold rawHost
  cases (L.parse s).bind ParsedUrl.hostStr with
  | none => exact lower_toAsciiLowercase s
  | some host => exact lower_toAsciiLowercase host

theorem Lower.of_under {d h : String} (hh : Lower h) (hd : Under d h) : Lower d :=
  fun c hc => hh c (hd.mem hc)

/-- **The pattern of the second tier matches the hosts below the domain.** -/
theorem like_suffix {d h : String} (hd : Lower d) (hh : Lower h) (hnul : NulFree h) :
    like ("%." ++ escapeLike d) h = true ↔ '.' :: Like.cString d.toList <:+ h.toList := by
  have hpat : ("%." ++ escapeLike d).toList = '%' :: Like.escape '\\' ('.' :: d.toList) := by
    have hesc : (escapeLike d).toList = Like.escape '\\' d.toList := String.toList_ofList
    rw [String.toList_append, hesc, Like.escape_cons_plain (by decide)]
    rfl
  have hdomain : (Like.cString d.toList).map Char.toLower = Like.cString d.toList :=
    map_toLower fun c hc => hd c (List.takeWhile_subset _ hc)
  unfold like
  rw [hpat, Like.like_any_escape (by decide) (by decide), Like.cString_of_not_mem hnul, map_toLower hh,
    Like.cString_cons (by decide), List.map_cons, hdomain]
  rfl

/-! ## The host tiers -/

/-- The domain the lookup keeps of the identifier's host. -/
def searchDomain (L : UrlLib) (s : String) : String := (ServiceQuery.of L (trim s)).etld1

section Query

variable (L) (t : String)

theorem ServiceQuery.of_exactHost : (ServiceQuery.of L t).exactHost = stripWww (rawHost L t) := by
  simp only [ServiceQuery.of]

theorem ServiceQuery.of_wwwHost :
    (ServiceQuery.of L t).wwwHost = "www." ++ (ServiceQuery.of L t).exactHost := by
  simp only [ServiceQuery.of]

theorem ServiceQuery.of_etld1 :
    (ServiceQuery.of L t).etld1 = registrableDomain (ServiceQuery.of L t).exactHost := by
  simp only [ServiceQuery.of]

theorem ServiceQuery.of_etldSuffixLike :
    (ServiceQuery.of L t).etldSuffixLike = "%." ++ escapeLike (ServiceQuery.of L t).etld1 := by
  simp only [ServiceQuery.of]

theorem under_exactHost : Under (ServiceQuery.of L t).etld1 (ServiceQuery.of L t).exactHost := by
  rw [ServiceQuery.of_etld1]
  exact under_registrableDomain _

theorem lower_exactHost : Lower (ServiceQuery.of L t).exactHost := by
  rw [ServiceQuery.of_exactHost]
  exact (lower_rawHost t).of_under (under_stripWww _)

end Query

/-- **A host ranks in a host tier when the searched domain reaches it.** -/
theorem hostTier_iff (t url : String) {h : String} (hh : Lower h) (hnul : NulFree h) :
    (∃ T, (ServiceQuery.of L t).tier h url = some T ∧ T ≠ .substring) ↔
      Reached (ServiceQuery.of L t).etld1 h := by
  have hunder := under_exactHost L t
  have hlike := like_suffix ((lower_exactHost L t).of_under hunder) hh hnul
  unfold ServiceQuery.tier
  rw [ServiceQuery.of_wwwHost, ServiceQuery.of_etldSuffixLike]
  generalize ServiceQuery.of L t = q at hunder hlike ⊢
  split
  · rename_i heq
    refine iff_of_true ⟨_, rfl, by decide⟩ ?_
    rcases heq with rfl | rfl
    · exact hunder.reached hnul
    · exact (hunder.trans (under_www _)).reached hnul
  · split
    · rename_i heq
      exact iff_of_true ⟨_, rfl, by decide⟩ (heq.imp id hlike.1)
    · rename_i hne
      refine iff_of_false ?_ fun hd => hne (hd.imp id hlike.2)
      rintro ⟨T, hT, hsub⟩
      split at hT
      · exact hsub (Option.some.inj hT).symm
      · cases hT

/-- The `url_host` column is that of the URL, as in every state of a run (`urlHosts_run`). -/
def UrlHosts (L : UrlLib) (m : Mirror) (C : ColumnTable) : Prop :=
  ∀ e ∈ m.entries.rows, (C e.uuid).urlHost = parseHost L e.url

theorem urlHosts_run {K : ColumnLib} {Λ : Libs} (hM : Lawful Λ.merge) {vault : Vault} {source : Source}
    {m m' : Mirror} (hingest : ingestVaultWithHeader vault source m = .ok m')
    {pending : List (PendingConflictContext Λ.vaults)} {t : EngineState Λ.vaults × ColumnTable}
    (hrun : Lib.Run (EngineTxn.runWith (columnCompanion K Λ)) (fun _ _ => True)
      (⟨m', pending⟩, ingestColumns K vault) t) : UrlHosts K.toUrlLib t.1.mirror t.2 := by
  intro row hrow
  have hcoh : Coherent K t.1.mirror t.2 := (columnCompanion_keeps K hM).run hingest rfl hrun
  have hcol := hcoh row.uuid (EntryRow.columns K row) (by
    rw [valuesOf, Table.find?_of_mem hrow]
    rfl)
  rw [hcol]
  rfl

section

variable {m : Mirror} {C : ColumnTable} {used : Uuid → Option EpochMs} {s : String}

/-- The rows of the lookup. -/
theorem mem_ranked {limit : Nat} {r : ServiceTier × EntryRow}
    (h : r ∈ m.rankedByService L C used s limit) :
    r.2 ∈ m.entries.rows ∧ m.live r.2 = true ∧
      (ServiceQuery.of L (trim s)).tier (C r.2.uuid).urlHost r.2.url = some r.1 := by
  unfold Mirror.rankedByService at h
  dsimp only at h
  split at h
  · cases h
  · obtain ⟨e, he, hr⟩ := List.mem_filterMap.1 ((List.mem_insertionSort _).1 (List.mem_of_mem_take h))
    obtain ⟨T, hT, rfl⟩ := Option.map_eq_some_iff.1 hr
    exact ⟨(List.mem_filter.1 he).1, (List.mem_filter.1 he).2, hT⟩

/-- A limit of the number of entries leaves none out. -/
theorem ranked_of_mem (hs : trim s ≠ "") {limit : Nat} (hlimit : m.entries.rows.length ≤ limit)
    {e : EntryRow} (he : e ∈ m.entries.rows) (hlive : m.live e = true) {T : ServiceTier}
    (hT : (ServiceQuery.of L (trim s)).tier (C e.uuid).urlHost e.url = some T) :
    (T, e) ∈ m.rankedByService L C used s limit := by
  unfold Mirror.rankedByService
  dsimp only
  rw [if_neg hs, List.take_of_length_le]
  · refine (List.mem_insertionSort _).2 (List.mem_filterMap.2 ⟨e, List.mem_filter.2 ⟨he, hlive⟩, ?_⟩)
    rw [hT]
    rfl
  · rw [List.length_insertionSort]
    exact (List.length_filterMap_le _ _).trans ((List.length_filter_le _ _).trans hlimit)

/-! ## Sites -/

/-- The host of the page an identifier names, without a leading `www.`. -/
def pageHost (L : UrlLib) (s : String) : Option String :=
  ((UrlMatcher.parseWithDefaultScheme L s).bind ParsedUrl.hostStr).map fun host =>
    stripWww (toAsciiLowercase host)

/-- The URL and the identifier belong to the same site, as the matcher has it. -/
def SameSite (L : UrlLib) (psl : String → Option String) (url s : String) : Prop :=
  if UrlMatcher.credentialDomain L psl s = none then pageHost L url = pageHost L s
  else UrlMatcher.credentialDomain L psl url = UrlMatcher.credentialDomain L psl s

instance (url s : String) : Decidable (SameSite L psl url s) :=
  inferInstanceAs (Decidable (if UrlMatcher.credentialDomain L psl s = none then
    pageHost L url = pageHost L s
  else UrlMatcher.credentialDomain L psl url = UrlMatcher.credentialDomain L psl s))

theorem trim_ne_of_pageHost (hs : (pageHost L s).isSome) : trim s ≠ "" := by
  intro h
  unfold pageHost UrlMatcher.parseWithDefaultScheme at hs
  rw [h] at hs
  cases hs

/-- **The lookup stays on the identifier's site** when every live entry whose host the searched domain
reaches belongs to that site, and only then. -/
theorem host_tiers_on_site_iff (hL : HostsNulFree L) (hC : UrlHosts L m C)
    (hs : (pageHost L s).isSome) :
    (∀ limit, ∀ r ∈ m.rankedByService L C used s limit, r.1 ≠ .substring → SameSite L psl r.2.url s) ↔
      ∀ e ∈ m.entries.rows, m.live e = true → Reached (searchDomain L s) (parseHost L e.url) →
        SameSite L psl e.url s := by
  have htier (url : String) := hostTier_iff (L := L) (trim s) url (lower_parseHost (L := L) url)
    (nulFree_parseHost hL url)
  unfold searchDomain
  constructor
  · intro h e he hlive hreached
    obtain ⟨T, hT, hne⟩ := (htier e.url).2 hreached
    rw [← hC e he] at hT
    exact h _ (T, e) (ranked_of_mem (trim_ne_of_pageHost hs) le_rfl he hlive hT) hne
  · intro h limit r hr hne
    obtain ⟨hmem, hlive, hT⟩ := mem_ranked hr
    rw [hC r.2 hmem] at hT
    exact h r.2 hmem hlive ((htier r.2.url).1 ⟨r.1, hT, hne⟩)

end

/-- Five pages of four sites, as the crates read them. -/
def webLib : UrlLib where
  parse url :=
    if url = "https://alice.github.io/" then some { host := some (.domain "alice.github.io") }
    else if url = "https://bob.github.io/login" then some { host := some (.domain "bob.github.io") }
    else if url = "http://192.168.1.1/admin" then some { host := some (.ipv4 "192.168.1.1") }
    else if url = "http://10.0.1.1/" then some { host := some (.ipv4 "10.0.1.1") }
    else if url = "https://example.com:8080" then
      some { host := some (.domain "example.com"), origin := some "https://example.com:8080" }
    else if url = "example.com:8080" then some {}
    else none

theorem webLib_hostsNulFree : HostsNulFree webLib := by
  intro text u host hu hstr
  simp only [webLib] at hu
  split_ifs at hu <;> cases hu <;> cases hstr <;> decide

def webSuffixes (host : String) : Option String :=
  if host ∈ ["alice.github.io", "bob.github.io", "example.com"] then some host else none

def webColumns : ColumnLib := { twoHosts with toUrlLib := webLib }

/-- An entry for a page of a hosting domain, one for an address, and one for a page with a port. -/
def webVault : Vault where
  root := .node { id := 1, name := "root" }
    [{ id := 7, url := "https://bob.github.io/login" }, { id := 8, url := "http://10.0.1.1/" },
      { id := 9, url := "https://example.com:8080" }] []
  metadata := {}
  deletedObjects := []

def webMirror : Mirror := ingested webVault freshMirror

def webTable : ColumnTable := ingestColumns webColumns webVault

theorem webMirror_ingested : ingestVaultWithHeader webVault (.inMemory none) freshMirror = .ok webMirror :=
  ingestVault_ingested (by decide +kernel)

theorem webMirror_urlHosts : UrlHosts webLib webMirror webTable := by
  have h : ∀ e ∈ webMirror.entries.rows, (webTable e.uuid).urlHost = parseHost webLib e.url := by
    decide +kernel
  exact h

theorem host_tiers_on_site_iff_web :
    (pageHost webLib "https://example.com:8080").isSome ∧
      ∀ limit, ∀ r ∈ webMirror.rankedByService webLib webTable (fun _ => none)
        "https://example.com:8080" limit,
        r.1 ≠ .substring → SameSite webLib webSuffixes r.2.url "https://example.com:8080" := by
  have hpage : (pageHost webLib "https://example.com:8080").isSome := by decide +kernel
  refine ⟨hpage, (host_tiers_on_site_iff webLib_hostsNulFree webMirror_urlHosts hpage).2 ?_⟩
  decide +kernel

/-- The page of one tenant is offered the entry of another, and one address that of another. -/
theorem host_tiers_cross_sites :
    ingestVaultWithHeader webVault (.inMemory none) freshMirror = .ok webMirror ∧
      ∀ p ∈ [("https://alice.github.io/", "https://bob.github.io/login"),
          ("http://192.168.1.1/admin", "http://10.0.1.1/")],
        (pageHost webLib p.1).isSome ∧ ¬ SameSite webLib webSuffixes p.2 p.1 ∧
          ∃ r ∈ webMirror.rankedByService webLib webTable (fun _ => none) p.1 10,
            r.1 ≠ .substring ∧ r.2.url = p.2 :=
  ⟨webMirror_ingested, by decide +kernel⟩

section

variable {m : Mirror} {C : ColumnTable} {used : Uuid → Option EpochMs} {s : String}

/-! ## The page an entry was saved for -/

theorem trim_ne_of_origin {o : String} (ho : UrlMatcher.origin L s = some o) : trim s ≠ "" := by
  intro h
  unfold UrlMatcher.origin UrlMatcher.parseWithDefaultScheme at ho
  rw [h] at ho
  cases ho

/-- An identifier with a scheme is looked up under the host it names: where its origin parses to the same
host, the entry is found. -/
theorem reached_of_scheme (hL : HostsNulFree L) {o : String} (hne : o ≠ "")
    (hscheme : containsStr (trim s) "://" = true) (ho : UrlMatcher.origin L s = some o)
    (hparse : ∀ u, L.parse (trim s) = some u → ∃ v, L.parse o = some v ∧ v.hostStr = u.hostStr) :
    Reached (searchDomain L s) (parseHost L o) := by
  have hs := trim_ne_of_origin ho
  unfold UrlMatcher.origin UrlMatcher.parseWithDefaultScheme at ho
  dsimp only at ho
  rw [if_neg hs, if_pos hscheme] at ho
  cases hu : L.parse (trim s) with
  | none =>
    rw [hu] at ho
    cases ho
  | some u =>
    rw [hu] at ho
    obtain ⟨v, hv, hhost⟩ := hparse u hu
    cases hstr : u.hostStr with
    | none =>
      have hnone : u.host = none := Option.map_eq_none_iff.1 hstr
      simp [UrlMatcher.siteHost, hnone] at ho
    | some host =>
      have hraw : rawHost L (trim s) = parseHost L o := by
        unfold rawHost parseHost
        rw [if_neg hne, hu, hv]
        simp [hhost, hstr]
      have hexact := under_exactHost L (trim s)
      rw [ServiceQuery.of_exactHost, hraw] at hexact
      exact (hexact.trans (under_stripWww _)).reached (nulFree_parseHost hL o)

/-- **An entry saved for a page is found for that page** when the searched domain reaches the page's
host, and only then. -/
theorem saved_page_found_iff (hL : HostsNulFree L) {o : String} (ho : UrlMatcher.origin L s = some o)
    {e : EntryRow} (he : e ∈ m.entries.rows) (hlive : m.live e = true) (hurl : e.url = o)
    (hcol : (C e.uuid).urlHost = parseHost L o) {limit : Nat} (hlimit : m.entries.rows.length ≤ limit) :
    (∃ r ∈ m.rankedByService L C used s limit, r.2 = e ∧ r.1 ≠ .substring) ↔
      Reached (searchDomain L s) (parseHost L o) := by
  rw [searchDomain, ← hostTier_iff (trim s) o (lower_parseHost o) (nulFree_parseHost hL o)]
  constructor
  · rintro ⟨r, hr, rfl, hne⟩
    obtain ⟨-, -, hT⟩ := mem_ranked hr
    rw [hcol, hurl] at hT
    exact ⟨r.1, hT, hne⟩
  · rintro ⟨T, hT, hne⟩
    rw [← hcol, ← hurl] at hT
    exact ⟨(T, e), ranked_of_mem (trim_ne_of_origin ho) hlimit he hlive hT, rfl, hne⟩

end

/-- The row of the page with a port. -/
def webRow : EntryRow := Entry.toRow { id := 9, url := "https://example.com:8080" } 1 false

theorem saved_page_found_iff_web :
    ∃ r ∈ webMirror.rankedByService webLib webTable (fun _ => none) "https://example.com:8080" 3,
      r.2 = webRow ∧ r.1 ≠ .substring :=
  (saved_page_found_iff (s := "https://example.com:8080") (o := "https://example.com:8080")
    webLib_hostsNulFree (by decide +kernel) (by decide +kernel) (by decide +kernel) rfl
    (by decide +kernel) (by decide +kernel)).2 (by decide +kernel)

/-- Without the scheme, the page with a port misses the entry saved for it. -/
theorem saved_page_missed :
    ingestVaultWithHeader webVault (.inMemory none) freshMirror = .ok webMirror ∧
      UrlMatcher.origin webLib "example.com:8080" = some "https://example.com:8080" ∧
      webRow ∈ webMirror.entries.rows ∧ webMirror.live webRow = true ∧
      webRow.url = "https://example.com:8080" ∧
      (webTable webRow.uuid).urlHost = parseHost webLib "https://example.com:8080" ∧
      ¬ ∃ r ∈ webMirror.rankedByService webLib webTable (fun _ => none) "example.com:8080" 3,
        r.2 = webRow ∧ r.1 ≠ .substring :=
  ⟨webMirror_ingested, by decide +kernel⟩

end KeysCore.Verify
