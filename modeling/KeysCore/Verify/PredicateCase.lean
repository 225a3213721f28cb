import KeysCore.Tags
import KeysCore.Verify.Predicates
import KeysCore.Verify.ServiceSearch

/-!
# The case of a predicate's texts

Two trees that differ in the case of ASCII letters in the arguments of their text leaves have one
`foldCase`. The leaves that look for a text fold the case themselves, as `LIKE` does. `UrlHostEquals`
does not: its argument is compared as it is with a column that `parse_host` wrote in lowercase, so the
trees select the same entries as long as the hosts they ask for agree on the hosts of the rows.
-/

namespace KeysCore.Predicate

open Lib

mutual

/-- The tree with the arguments of its text leaves in lowercase. -/
def foldCase : Predicate → Predicate
  | .and ps => .and (foldCaseAll ps)
  | .or ps => .or (foldCaseAll ps)
  | .not p => .not p.foldCase
  | .titleContains s => .titleContains (noCase s)
  | .urlContains s => .urlContains (noCase s)
  | .usernameContains s => .usernameContains (noCase s)
  | .urlHostEquals host => .urlHostEquals (noCase host)
  | p => p

def foldCaseAll : List Predicate → List Predicate
  | [] => []
  | p :: ps => p.foldCase :: foldCaseAll ps

end

mutual

/-- The arguments of the `UrlHostEquals` leaves, from left to right. -/
def hosts : Predicate → List String
  | .and ps | .or ps => allHosts ps
  | .not p => p.hosts
  | .urlHostEquals host => [host]
  | _ => []

def allHosts : List Predicate → List String
  | [] => []
  | p :: ps => p.hosts ++ allHosts ps

end

end KeysCore.Predicate

namespace KeysCore.Verify

open Lib

/-! ## Trees that differ in case -/

mutual

theorem hosts_foldCase : ∀ p : Predicate, p.foldCase.hosts = p.hosts.map noCase
  | .and ps => allHosts_foldCaseAll ps
  | .or ps => allHosts_foldCaseAll ps
  | .not p => hosts_foldCase p
  | .titleContains _ | .urlContains _ | .usernameContains _ | .urlHostEquals _ | .tagEquals _
  | .tagHasAny _ | .tagHasAll _ | .modifiedWithin _ | .modifiedBefore _ | .expired
  | .expiringWithin _ | .strengthBelow _ | .entropyBelow _ | .duplicates | .group _
  | .unknown _ => rfl

theorem allHosts_foldCaseAll : ∀ ps : List Predicate,
    Predicate.allHosts (Predicate.foldCaseAll ps) = (Predicate.allHosts ps).map noCase
  | [] => rfl
  | p :: ps => by
    rw [Predicate.foldCaseAll, Predicate.allHosts, Predicate.allHosts, hosts_foldCase p,
      allHosts_foldCaseAll ps, List.map_append]

end

mutual

theorem nodes_foldCase : ∀ p : Predicate, p.foldCase.nodes = p.nodes.map Predicate.foldCase
  | .and ps => congrArg _ (allNodes_foldCaseAll ps)
  | .or ps => congrArg _ (allNodes_foldCaseAll ps)
  | .not p => congrArg _ (nodes_foldCase p)
  | .titleContains _ | .urlContains _ | .usernameContains _ | .urlHostEquals _ | .tagEquals _
  | .tagHasAny _ | .tagHasAll _ | .modifiedWithin _ | .modifiedBefore _ | .expired
  | .expiringWithin _ | .strengthBelow _ | .entropyBelow _ | .duplicates | .group _
  | .unknown _ => rfl

theorem allNodes_foldCaseAll : ∀ ps : List Predicate,
    Predicate.allNodes (Predicate.foldCaseAll ps) = (Predicate.allNodes ps).map Predicate.foldCase
  | [] => rfl
  | p :: ps => by
    rw [Predicate.foldCaseAll, Predicate.allNodes, Predicate.allNodes, nodes_foldCase p,
      allNodes_foldCaseAll ps, List.map_append]

end

theorem fault_foldCase (p : Predicate) : p.foldCase.fault = p.fault := by
  cases p with
  | and ps => cases ps <;> rfl
  | or ps => cases ps <;> rfl
  | _ => rfl

/-- The first fault of a tree does not depend on the case of its texts. -/
theorem findSome?_fault_foldCase (p : Predicate) :
    p.foldCase.nodes.findSome? Predicate.fault = p.nodes.findSome? Predicate.fault := by
  rw [nodes_foldCase, List.findSome?_map]
  exact congrArg (List.findSome? · p.nodes) (funext fault_foldCase)

theorem toList_noCase (s : String) : (noCase s).toList = s.toList.map Char.toLower := by
  simp [noCase]

theorem cString_noCase (s : String) :
    Like.cString (noCase s).toList = (Like.cString s.toList).map Char.toLower := by
  have hnul (c : Char) : c.toLower = '\x00' ↔ c = '\x00' := toLower_eq_iff (by decide)
  rw [toList_noCase, Like.cString, List.takeWhile_map, Like.cString]
  simp [Function.comp_def, hnul]

theorem foundIn_noCase (s t : String) : FoundIn (noCase s) t ↔ FoundIn s t := by
  have hnul : NulFree (noCase s) ↔ NulFree s := nulFree_map_toLower s
  rw [FoundIn, cString_noCase, toList_noCase, map_toLower_map_toLower, map_toLower_map_toLower]
  simp only [hnul, FoundIn]

theorem foundIn_congr {s s' : String} (h : noCase s = noCase s') (t : String) :
    FoundIn s t ↔ FoundIn s' t := by
  rw [← foundIn_noCase s, h, foundIn_noCase]

section

variable {nowMs : I64} {T : EntryColumnTable} {e : EntryColumns}

/-- The hosts two trees ask for, one beside the other, agree on the host of the entry. -/
def HostsAgree (e : EntryColumns) (hs hs' : List String) : Prop :=
  hs.length = hs'.length ∧ ∀ x ∈ hs.zip hs', e.urlHost = x.1 ↔ e.urlHost = x.2

theorem HostsAgree.of_append {hs hs' ks ks' : List String} (hlen : hs.length = hs'.length)
    (h : HostsAgree e (hs ++ ks) (hs' ++ ks')) : HostsAgree e hs hs' ∧ HostsAgree e ks ks' := by
  obtain ⟨hlength, hagree⟩ := h
  rw [List.zip_append hlen] at hagree
  simp only [List.length_append] at hlength
  refine ⟨⟨hlen, fun x hx => hagree x (List.mem_append_left _ hx)⟩, by omega, fun x hx => ?_⟩
  exact hagree x (List.mem_append_right _ hx)

mutual

/-- Two trees that differ in case alone hold alike of an entry on whose host they agree. -/
theorem holds_congr : ∀ p p' : Predicate, p.foldCase = p'.foldCase → HostsAgree e p.hosts p'.hosts →
    p.holds nowMs T e = p'.holds nowMs T e
  | .and ps, p', h, hagree => by
    cases p' <;> simp only [Predicate.foldCase, Predicate.and.injEq, reduceCtorEq] at h
    exact (allHold_congr ps _ h hagree).1
  | .or ps, p', h, hagree => by
    cases p' <;> simp only [Predicate.foldCase, Predicate.or.injEq, reduceCtorEq] at h
    exact (allHold_congr ps _ h hagree).2
  | .not p, p', h, hagree => by
    cases p' <;> simp only [Predicate.foldCase, Predicate.not.injEq, reduceCtorEq] at h
    exact congrArg (!·) (holds_congr p _ h hagree)
  | .titleContains s, p', h, _ => by
    cases p' <;> simp only [Predicate.foldCase, Predicate.titleContains.injEq, reduceCtorEq] at h
    simp only [Predicate.holds, foundIn_congr h]
  | .urlContains s, p', h, _ => by
    cases p' <;> simp only [Predicate.foldCase, Predicate.urlContains.injEq, reduceCtorEq] at h
    simp only [Predicate.holds, foundIn_congr h]
  | .usernameContains s, p', h, _ => by
    cases p' <;> simp only [Predicate.foldCase, Predicate.usernameContains.injEq, reduceCtorEq] at h
    simp only [Predicate.holds, foundIn_congr h]
  | .urlHostEquals host, p', h, hagree => by
    cases p' <;> simp only [Predicate.foldCase, reduceCtorEq] at h
    have hhost := hagree.2 _ (List.mem_singleton.2 rfl)
    simp only [Predicate.holds, hhost]
  | .tagEquals _, p', h, _ | .tagHasAny _, p', h, _ | .tagHasAll _, p', h, _
  | .modifiedWithin _, p', h, _ | .modifiedBefore _, p', h, _ | .expired, p', h, _
  | .expiringWithin _, p', h, _ | .strengthBelow _, p', h, _ | .entropyBelow _, p', h, _
  | .duplicates, p', h, _ | .group _, p', h, _ | .unknown _, p', h, _ => by
    cases p' <;> simp only [Predicate.foldCase, reduceCtorEq] at h
    all_goals simp only [h]

theorem allHold_congr : ∀ ps ps' : List Predicate,
    Predicate.foldCaseAll ps = Predicate.foldCaseAll ps' →
    HostsAgree e (Predicate.allHosts ps) (Predicate.allHosts ps') →
    Predicate.allHold nowMs T e ps = Predicate.allHold nowMs T e ps' ∧
      Predicate.someHolds nowMs T e ps = Predicate.someHolds nowMs T e ps'
  | [], [], _, _ => ⟨rfl, rfl⟩
  | p :: ps, p' :: ps', h, hagree => by
    obtain ⟨hp, hps⟩ := List.cons.inj h
    have hlen : p.hosts.length = p'.hosts.length := by
      rw [← List.length_map (f := noCase), ← hosts_foldCase, hp, hosts_foldCase, List.length_map]
    obtain ⟨hhead, htail⟩ := hagree.of_append hlen
    have hholds := holds_congr p p' hp hhead
    obtain ⟨hall, hsome⟩ := allHold_congr ps ps' hps htail
    rw [Predicate.allHold, Predicate.allHold, Predicate.someHolds, Predicate.someHolds, hholds, hall,
      hsome]
    exact ⟨rfl, rfl⟩

end

end

/-! ## Queries -/

variable {nowMs : I64} {T : EntryColumnTable}

/-- Two trees that differ in case alone select the same rows where their hosts agree on each row. -/
theorem entriesMatching_congr {p p' : Predicate} (h : p.foldCase = p'.foldCase)
    (hagree : ∀ e ∈ T.rows, HostsAgree e p.hosts p'.hosts) :
    T.entriesMatching p .all nowMs = T.entriesMatching p' .all nowMs := by
  have hfault : p.nodes.findSome? Predicate.fault = p'.nodes.findSome? Predicate.fault := by
    rw [← findSome?_fault_foldCase, h, findSome?_fault_foldCase]
  cases hp : p.nodes.findSome? Predicate.fault with
  | some err =>
    rw [(selectWhere_refused hp T).1, (selectWhere_refused (hfault ▸ hp) T).1]
  | none =>
    have hrows : T.rows.filter (p.holds nowMs T ·) = T.rows.filter (p'.holds nowMs T ·) :=
      List.filter_congr fun e he => holds_congr p p' h (hagree e he)
    rw [entriesMatching_eq hp, entriesMatching_eq (hfault ▸ hp), hrows]

/-- A text without letters has one spelling. -/
theorem eq_of_no_letters {host k : String} (h : ∀ c ∈ host.toList, ¬ c.isAlpha)
    (hk : noCase host = noCase k) : host = k := by
  have hfold : k.toList.map Char.toLower = host.toList.map Char.toLower := by
    rw [← toList_noCase, ← toList_noCase, hk]
  exact String.toList_injective ((map_toLower_eq_iff h _).1 hfold).symm

/-- On a host without letters all spellings agree. -/
theorem hostsAgree_of_no_letters {e : EntryColumns} (h : ∀ c ∈ e.urlHost.toList, ¬ c.isAlpha)
    {hs hs' : List String} (hfold : hs.map noCase = hs'.map noCase) : HostsAgree e hs hs' := by
  induction hs generalizing hs' with
  | nil =>
    obtain rfl : hs' = [] := by simpa using hfold.symm
    exact ⟨rfl, by simp⟩
  | cons k hs ih =>
    cases hs' with
    | nil => cases hfold
    | cons k' hs' =>
      obtain ⟨hk, htail⟩ := List.cons.inj hfold
      obtain ⟨hlen, hagree⟩ := ih htail
      refine ⟨congrArg (· + 1) hlen, fun x hx => ?_⟩
      obtain rfl | hx := List.mem_cons.1 hx
      · constructor
        · rintro rfl
          exact eq_of_no_letters h hk
        · rintro rfl
          exact eq_of_no_letters h hk.symm
      · exact hagree x hx

/-- The uppercase spelling of a lowercase host with a letter is another text of the same letters. -/
theorem upper_spelling {host : String} (hlower : Lower host) {c : Char} (hc : c ∈ host.toList)
    (halpha : c.isAlpha) : noCase (host.map Char.toUpper) = noCase host ∧
      host.map Char.toUpper ≠ host := by
  refine ⟨String.toList_injective (by simp [noCase, Function.comp_def]), fun hsame => ?_⟩
  have hmap : host.toList.map Char.toUpper = host.toList.map id := by
    simpa using congrArg String.toList hsame
  have hupper : c.toUpper = c := List.map_inj_left.1 hmap c hc
  -- a letter its own lowercase and its own uppercase
  have hisLower : c.toLower.isLower = true := by simpa using halpha
  rw [hlower c hc, ← hupper, Char.isLower_toUpper_eq_false] at hisLower
  cases hisLower

/-- **The case of a host decides what a smart folder shows.** The trees over a table ignore the case of
their texts exactly when no host of the table has a letter; two given trees do when the hosts they ask
for agree on every row. -/
theorem entriesMatching_ignores_case (L : UrlLib) (T : EntryColumnTable)
    (hT : ∀ e ∈ T.rows, e.urlHost = parseHost L e.url) :
    ((∀ (nowMs : I64) (p p' : Predicate), p.foldCase = p'.foldCase →
        T.entriesMatching p .all nowMs = T.entriesMatching p' .all nowMs) ↔
      ∀ e ∈ T.rows, ∀ c ∈ e.urlHost.toList, ¬ c.isAlpha) ∧
    ∀ (nowMs : I64) (p p' : Predicate), p.foldCase = p'.foldCase →
      (∀ e ∈ T.rows, HostsAgree e p.hosts p'.hosts) →
      T.entriesMatching p .all nowMs = T.entriesMatching p' .all nowMs := by
  refine ⟨⟨fun h e he c hc halpha => ?_, fun h nowMs p p' hfold => ?_⟩,
    fun nowMs p p' hfold hagree => entriesMatching_congr hfold hagree⟩
  · obtain ⟨hfold, hne⟩ := upper_spelling (hT e he ▸ lower_parseHost e.url) hc halpha
    have hsame := h ⟨0, by decide⟩ (.urlHostEquals (e.urlHost.map Char.toUpper))
      (.urlHostEquals e.urlHost) (congrArg Predicate.urlHostEquals hfold)
    rw [entriesMatching_eq rfl, entriesMatching_eq rfl] at hsame
    have hmem : e ∈ T.rows.filter
        (Predicate.holds ⟨0, by decide⟩ T · (.urlHostEquals (e.urlHost.map Char.toUpper))) := by
      rw [← List.mem_insertionSort (fun a b => matchOrder a ≤ matchOrder b), Except.ok.inj hsame]
      simp [he, Predicate.holds]
    have hhost : e.urlHost = e.urlHost.map Char.toUpper := by
      simpa [Predicate.holds] using (List.mem_filter.1 hmem).2
    exact hne hhost.symm
  · refine entriesMatching_congr hfold fun e he => ?_
    have hhosts : p.hosts.map noCase = p'.hosts.map noCase := by
      rw [← hosts_foldCase, hfold, hosts_foldCase]
    exact hostsAgree_of_no_letters (h e he) hhosts

/-- A router at an address and a page of a domain. -/
def hostLib : UrlLib where
  parse url :=
    if url = "http://192.168.1.1/admin" then some { host := some (.ipv4 "192.168.1.1") }
    else if url = "https://github.com/login" then some { host := some (.domain "github.com") }
    else none

def routerTable : EntryColumnTable where
  rows := [
    { uuid := 1
      groupUuid := 0
      title := "Router"
      url := "http://192.168.1.1/admin"
      urlHost := "192.168.1.1"
      modifiedAt := ⟨0, by decide⟩ }]
  nodup := by decide

def githubTable : EntryColumnTable where
  rows := [
    { uuid := 1
      groupUuid := 0
      url := "https://github.com/login"
      urlHost := "github.com"
      modifiedAt := ⟨0, by decide⟩ }]
  nodup := by decide

/-- The host of the router has no letter. -/
theorem entriesMatching_ignores_case_router :
    (∀ e ∈ routerTable.rows, e.urlHost = parseHost hostLib e.url) ∧
      routerTable.entriesMatching (.not (.titleContains "ROUTER")) .all ⟨0, by decide⟩ =
        routerTable.entriesMatching (.not (.titleContains "router")) .all ⟨0, by decide⟩ := by
  have hhosts : ∀ e ∈ routerTable.rows, e.urlHost = parseHost hostLib e.url := by decide +kernel
  have hletters : ∀ e ∈ routerTable.rows, ∀ c ∈ e.urlHost.toList, ¬ c.isAlpha := by
    simp [routerTable]
  have hcase : noCase "ROUTER" = noCase "router" := String.toList_injective (by simp [noCase])
  have hfold : (Predicate.not (.titleContains "ROUTER")).foldCase =
      (Predicate.not (.titleContains "router")).foldCase :=
    congrArg (fun s => Predicate.not (.titleContains s)) hcase
  exact ⟨hhosts, (entriesMatching_ignores_case hostLib routerTable hhosts).1.2 hletters _ _ _ hfold⟩

/-- A folder for `GitHub.com` does not show the entry a folder for `github.com` shows. -/
theorem github_case_matters :
    (∀ e ∈ githubTable.rows, e.urlHost = parseHost hostLib e.url) ∧
      (Predicate.urlHostEquals "GitHub.com").foldCase = (Predicate.urlHostEquals "github.com").foldCase ∧
      githubTable.entriesMatching (.urlHostEquals "GitHub.com") .all ⟨0, by decide⟩ = .ok [] ∧
      githubTable.entriesMatching (.urlHostEquals "github.com") .all ⟨0, by decide⟩ =
        .ok githubTable.rows := by
  have hcase : noCase "GitHub.com" = noCase "github.com" :=
    String.toList_injective (by simp [noCase])
  have hnone : githubTable.rows.filter
      (Predicate.holds ⟨0, by decide⟩ githubTable · (.urlHostEquals "GitHub.com")) = [] := by
    decide +kernel
  have hall : githubTable.rows.filter
      (Predicate.holds ⟨0, by decide⟩ githubTable · (.urlHostEquals "github.com")) =
        githubTable.rows := by
    decide +kernel
  refine ⟨by decide +kernel, congrArg Predicate.urlHostEquals hcase, ?_, ?_⟩
  · rw [entriesMatching_eq (p := .urlHostEquals "GitHub.com") rfl, hnone, List.insertionSort_nil]
  · rw [entriesMatching_eq (p := .urlHostEquals "github.com") rfl, hall]
    rfl

end KeysCore.Verify
