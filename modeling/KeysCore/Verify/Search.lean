import Mathlib.Data.List.DropRight
import KeysCore.Search
import KeysCore.Verify.Predicates
import KeysCore.Verify.StructuralRuns

/-!
# The text search finds substrings

`Finds`: every token of the query is found in a field of the scope. The condition `search` builds is read
as the conjunction over the tokens of the disjunction over the fields (`search_eq`), so with a token in
the query the rows are those that `Finds` holds of and the bin filter lets through. Texts without a NUL
are found where they occur (`finds_iff`). A query without tokens finds nothing.
-/

namespace KeysCore.Verify

open Lib

/-! ## Tokens -/

theorem splitOnP_filter_cons {c : Char} (hc : isWhitespace c = true) (l : List Char) :
    ((c :: l).splitOnP isWhitespace).filter (· ≠ []) = (l.splitOnP isWhitespace).filter (· ≠ []) := by
  have hsplit := List.splitOnP_append_cons [] l hc
  rw [List.nil_append, List.splitOnP_nil] at hsplit
  rw [hsplit]
  rfl

theorem splitOnP_filter_concat {c : Char} (hc : isWhitespace c = true) (l : List Char) :
    ((l ++ [c]).splitOnP isWhitespace).filter (· ≠ []) = (l.splitOnP isWhitespace).filter (· ≠ []) := by
  rw [List.splitOnP_append_cons l [] hc, List.splitOnP_nil, List.filter_append]
  simp

theorem splitOnP_filter_dropWhile (l : List Char) :
    ((l.dropWhile isWhitespace).splitOnP isWhitespace).filter (· ≠ []) =
      (l.splitOnP isWhitespace).filter (· ≠ []) := by
  induction l with
  | nil => rfl
  | cons c l ih =>
    by_cases hc : isWhitespace c = true
    · rw [List.dropWhile_cons_of_pos hc, ih, splitOnP_filter_cons hc]
    · rw [List.dropWhile_cons_of_neg hc]

theorem splitOnP_filter_rdropWhile (l : List Char) :
    ((l.rdropWhile isWhitespace).splitOnP isWhitespace).filter (· ≠ []) =
      (l.splitOnP isWhitespace).filter (· ≠ []) := by
  induction l using List.reverseRecOn with
  | nil => rfl
  | append_singleton l c ih =>
    by_cases hc : isWhitespace c = true
    · rw [List.rdropWhile_concat_pos _ _ _ hc, ih, splitOnP_filter_concat hc]
    · rw [List.rdropWhile_concat_neg _ _ _ hc]

/-- A query has the tokens it has without the space around it. -/
theorem splitWhitespace_trim (s : String) : splitWhitespace (trim s) = splitWhitespace s := by
  have htrim : (trim s).toList = (s.toList.dropWhile isWhitespace).rdropWhile isWhitespace := by
    simp [trim, List.rdropWhile]
  rw [splitWhitespace, htrim, splitOnP_filter_rdropWhile, splitOnP_filter_dropWhile, splitWhitespace]

/-- The parts of a split text are made of its characters. -/
theorem mem_of_mem_splitOnP {p : Char → Bool} {l t : List Char} (ht : t ∈ l.splitOnP p) {c : Char}
    (hc : c ∈ t) : c ∈ l := by
  induction l generalizing t with
  | nil =>
    obtain rfl : t = [] := by simpa using ht
    cases hc
  | cons d l ih =>
    rw [List.splitOnP_cons_eq_if_modifyHead] at ht
    split at ht
    · rcases List.mem_cons.1 ht with rfl | ht
      · cases hc
      · exact List.mem_cons_of_mem _ (ih ht hc)
    · obtain ⟨r, rs, hr⟩ := List.exists_cons_of_ne_nil (List.splitOnP_ne_nil p l)
      rw [hr, List.modifyHead_cons] at ht
      rcases List.mem_cons.1 ht with rfl | ht
      · rcases List.mem_cons.1 hc with rfl | hc
        · exact List.mem_cons_self ..
        · exact List.mem_cons_of_mem _ (ih (hr ▸ List.mem_cons_self ..) hc)
      · exact List.mem_cons_of_mem _ (ih (hr ▸ List.mem_cons_of_mem _ ht) hc)

theorem nulFree_token {query t : String} (hq : NulFree query) (ht : t ∈ splitWhitespace query) :
    NulFree t := by
  obtain ⟨l, hl, rfl⟩ := List.mem_map.1 ht
  intro hc
  rw [String.toList_ofList] at hc
  exact hq (mem_of_mem_splitOnP (List.mem_filter.1 hl).1 hc)

/-! ## The condition -/

/-- Every token of the query is found in a text of the scope. -/
def Finds (scope : SearchScope) (query : String) (e : EntryRow) : Prop :=
  ∀ t ∈ splitWhitespace query, ∃ f ∈ scope.fields, ∃ s ∈ f.texts e, FoundIn t s

instance (scope : SearchScope) (query : String) (e : EntryRow) : Decidable (Finds scope query e) :=
  inferInstanceAs (Decidable (∀ t ∈ _, ∃ f ∈ _, ∃ s ∈ _, _))

/-- No text of the scope has a NUL. -/
def NulFreeIn (scope : SearchScope) (e : EntryRow) : Prop :=
  ∀ f ∈ scope.fields, ∀ s ∈ f.texts e, NulFree s

instance (scope : SearchScope) (e : EntryRow) : Decidable (NulFreeIn scope e) :=
  inferInstanceAs (Decidable (∀ f ∈ _, ∀ s ∈ _, _))

theorem finds_iff {scope : SearchScope} {query : String} {e : EntryRow} (hq : NulFree query)
    (he : NulFreeIn scope e) : Finds scope query e ↔
      ∀ t ∈ splitWhitespace query, ∃ f ∈ scope.fields, ∃ s ∈ f.texts e, OccursIn t s := by
  refine forall₂_congr fun t ht => exists_congr fun f => and_congr_right fun hf =>
    exists_congr fun s => and_congr_right fun hs => ?_
  exact foundIn_iff_occursIn (nulFree_token hq ht) (he f hf s hs)

/-- The bin filter lets an entry through. -/
def BinPasses (m : Mirror) (e : EntryRow) : RecycleBinFilter → Prop
  | .includeRecycled => True
  | .excludeRecycled => m.readRecycleBinEnabled = true → e.groupUuid ∉ m.binSubtree
  | .recycledOnly => m.readRecycleBinEnabled = true ∧ e.groupUuid ∈ m.binSubtree

instance (m : Mirror) (e : EntryRow) : DecidablePred (BinPasses m e)
  | .includeRecycled => inferInstanceAs (Decidable True)
  | .excludeRecycled => inferInstanceAs (Decidable (_ → _))
  | .recycledOnly => inferInstanceAs (Decidable (_ ∧ _))

/-- The clause of a token is the disjunction over the fields. -/
theorem closed_perTokenClause (scope : SearchScope) (n : Nat) :
    ∃ c, Closed (perTokenClause scope n) c ∧ ∀ (v : SearchAtom → Truth) (b : SearchField → Bool),
      (∀ f, v (.like f n) = some (b f)) → c.eval v = some (scope.fields.any b) := by
  obtain ⟨f, fs, hfields⟩ : ∃ f fs, scope.fields = f :: fs := by
    cases scope <;> exact ⟨_, _, rfl⟩
  have hclosed := Closed.ors (l := fs.map fun g => ([.atom (.like g n)], Cond.atom (SearchAtom.like g n)))
    (by
      intro x hx
      obtain ⟨g, -, rfl⟩ := List.mem_map.1 hx
      exact Closed.atom _) (Closed.atom (SearchAtom.like f n))
  refine ⟨(fs.map fun g => Cond.atom (SearchAtom.like g n)).foldl .or (.atom (.like f n)), ?_, ?_⟩
  · simpa [perTokenClause, hfields, Function.comp_def] using hclosed
  · intro v b hv
    have hatom : ∀ g, (Cond.atom (SearchAtom.like g n)).eval v = some (b g) := hv
    rw [Cond.eval_foldl_or (fun g _ => hatom g) (hatom f), hfields, List.any_cons]

/-- The clauses of the tokens, joined and in parentheses. -/
theorem closed_whereClause (scope : SearchScope) {patterns : List String} (hne : patterns ≠ []) :
    ∃ c, Closed (.lparen :: separated .and (patterns.mapIdx fun i _ => perTokenClause scope (i + 1)) ++
        [.rparen]) c ∧
      ∀ (m : Mirror) (e : EntryRow), c.eval (m.searchAtom patterns e) =
        some (patterns.all fun p => scope.fields.any fun f => (f.texts e).any (like p)) := by
  choose cond hclosed heval using closed_perTokenClause scope
  have hidx : (patterns.mapIdx fun i _ => perTokenClause scope (i + 1)) =
      patterns.zipIdx.map fun x => perTokenClause scope (x.2 + 1) := by
    rw [List.mapIdx_eq_zipIdx_map]
  cases hzip : patterns.zipIdx with
  | nil => exact absurd (List.zipIdx_eq_nil_iff.1 hzip) hne
  | cons x xs =>
    have hchain := Closed.ands
      (l := xs.map fun y => (perTokenClause scope (y.2 + 1), cond (y.2 + 1)))
      (by
        intro z hz
        obtain ⟨y, -, rfl⟩ := List.mem_map.1 hz
        exact hclosed _) (hclosed (x.2 + 1))
    refine ⟨(xs.map fun y => cond (y.2 + 1)).foldl .and (cond (x.2 + 1)), ?_, fun m e => ?_⟩
    · simpa [hidx, hzip, Function.comp_def] using hchain
    · -- the placeholder `?(i + 1)` has the pattern at `i`
      have htoken : ∀ y ∈ x :: xs, (cond (y.2 + 1)).eval (m.searchAtom patterns e) =
          some (scope.fields.any fun f => (f.texts e).any (like y.1)) := by
        intro y hy
        rw [← hzip] at hy
        refine heval _ _ _ fun f => ?_
        rw [Mirror.searchAtom, Nat.add_sub_cancel, (List.mem_zipIdx_iff_getElem?.1 hy)]
        rfl
      rw [Cond.eval_foldl_and (fun y hy => htoken y (List.mem_cons_of_mem _ hy))
        (htoken x (List.mem_cons_self ..))]
      have hall : patterns = (x :: xs).map (·.1) := by
        rw [← hzip]
        simp
      rw [hall, List.all_map]
      rfl

theorem any_like_iff (scope : SearchScope) (t : String) (e : EntryRow) :
    (scope.fields.any fun f => (f.texts e).any (like ("%" ++ escapeLike t ++ "%"))) = true ↔
      ∃ f ∈ scope.fields, ∃ s ∈ f.texts e, FoundIn t s := by
  simp only [List.any_eq_true, like_escapeLike]

/-- The clause of the bin filter after a condition in parentheses. -/
theorem read_binClause {m : Mirror} {bin : RecycleBinFilter} {patterns : List String}
    {ts clause : List (Lexeme SearchAtom)} {c : Cond SearchAtom}
    (hbin : binClause bin m.readRecycleBinEnabled = some clause) (hts : Closed ts c)
    {b : EntryRow → Bool} (hc : ∀ e, c.eval (m.searchAtom patterns e) = some (b e)) :
    ∃ cond, readCondition (ts ++ clause) = some cond ∧ ∀ e : EntryRow,
      cond.eval (m.searchAtom patterns e) = some true ↔ BinPasses m e bin ∧ b e = true := by
  have hatom : ∀ a, readCondition (ts ++ [.and, .atom a]) = some (.and c (.atom a)) := fun a =>
    hts.read_and (Closed.atom a)
  have hplain : readCondition (ts ++ []) = some c := by rw [List.append_nil, hts.read]
  cases bin with
  | includeRecycled =>
    obtain rfl : [] = clause := Option.some.inj hbin
    exact ⟨c, hplain, fun e => by simp [hc, BinPasses]⟩
  | excludeRecycled =>
    cases hen : m.readRecycleBinEnabled with
    | false =>
      rw [hen] at hbin
      obtain rfl : [] = clause := Option.some.inj hbin
      exact ⟨c, hplain, fun e => by simp [hc, BinPasses, hen]⟩
    | true =>
      rw [hen] at hbin
      obtain rfl : [.and, .atom .notInBinSubtree] = clause := Option.some.inj hbin
      refine ⟨_, hatom _, fun e => ?_⟩
      simp [Cond.eval, hc, Mirror.searchAtom, BinPasses, hen, and_comm]
  | recycledOnly =>
    cases hen : m.readRecycleBinEnabled with
    | false =>
      rw [hen] at hbin
      cases hbin
    | true =>
      rw [hen] at hbin
      obtain rfl : [.and, .atom .inBinSubtree] = clause := Option.some.inj hbin
      refine ⟨_, hatom _, fun e => ?_⟩
      simp [Cond.eval, hc, Mirror.searchAtom, BinPasses, hen, and_comm]

/-- With the bin disabled nothing is in it. -/
theorem not_binPasses {m : Mirror} {bin : RecycleBinFilter}
    (h : binClause bin m.readRecycleBinEnabled = none) (e : EntryRow) : ¬ BinPasses m e bin := by
  cases bin with
  | includeRecycled => cases h
  | excludeRecycled => cases h
  | recycledOnly =>
    cases hen : m.readRecycleBinEnabled with
    | false => simp [BinPasses, hen]
    | true => simp [binClause, hen] at h

theorem trim_ne_empty {query : String} (h : splitWhitespace query ≠ []) : trim query ≠ "" := by
  intro htrim
  rw [← splitWhitespace_trim, htrim] at h
  exact h rfl

/-- The search with a token: the rows that the bin filter lets through and the query finds. -/
theorem search_eq (m : Mirror) {query : String} (h : splitWhitespace query ≠ []) (scope : SearchScope)
    (bin : RecycleBinFilter) (page : Pagination) : m.search query scope bin page =
      .ok (paged page ((m.entries.rows.filter fun e => BinPasses m e bin ∧ Finds scope query e).insertionSort
        fun a b => Mirror.searchOrder a ≤ Mirror.searchOrder b)) := by
  unfold Mirror.search
  simp only [if_neg (trim_ne_empty h), splitWhitespace_trim]
  cases hbin : binClause bin m.readRecycleBinEnabled with
  | none =>
    have hnone : (m.entries.rows.filter fun e => BinPasses m e bin ∧ Finds scope query e) = [] := by
      rw [List.filter_eq_nil_iff]
      intro e _
      simp [not_binPasses hbin e]
    simp only [hnone, List.insertionSort_nil, paged_nil]
  | some clause =>
    have hne : ((splitWhitespace query).map fun t => "%" ++ escapeLike t ++ "%") ≠ [] := by
      simpa using h
    obtain ⟨c, hclosed, heval⟩ := closed_whereClause scope hne
    obtain ⟨cond, hread, hcond⟩ := read_binClause hbin hclosed (heval m)
    have hfilter : (m.entries.rows.filter fun e => cond.eval (m.searchAtom ((splitWhitespace query).map
        fun t => "%" ++ escapeLike t ++ "%") e) = some true) =
          m.entries.rows.filter fun e => BinPasses m e bin ∧ Finds scope query e := by
      refine List.filter_congr fun e _ => decide_eq_decide.2 ?_
      rw [hcond e, List.all_map, List.all_eq_true]
      exact and_congr_right fun _ => forall₂_congr fun t _ => any_like_iff scope t e
    rw [List.append_assoc, List.singleton_append] at hread
    simp only [List.isEmpty_iff, if_neg hne, hread, hfilter]

/-- A query without tokens finds nothing. -/
theorem search_no_tokens (m : Mirror) {query : String} (h : splitWhitespace query = [])
    (scope : SearchScope) (bin : RecycleBinFilter) (page : Pagination) :
    m.search query scope bin page = .ok [] := by
  unfold Mirror.search
  simp only [splitWhitespace_trim, h, List.map_nil, List.isEmpty_nil, if_true]
  split
  · rfl
  · cases binClause bin m.readRecycleBinEnabled <;> rfl

/-- The rows of a search are those a query with a token finds, inside the bin filter. -/
theorem mem_search (m : Mirror) (query : String) (scope : SearchScope) (bin : RecycleBinFilter) :
    ∃ rows, m.search query scope bin .all = .ok rows ∧ ∀ e, e ∈ rows ↔
      splitWhitespace query ≠ [] ∧ e ∈ m.entries.rows ∧ BinPasses m e bin ∧ Finds scope query e := by
  by_cases h : splitWhitespace query = []
  · exact ⟨[], search_no_tokens m h scope bin .all, fun e => by simp [h]⟩
  · refine ⟨_, search_eq m h scope bin .all, fun e => ?_⟩
    simp [h]

/-- The rows a text leaf selects are those its text occurs in. -/
theorem mem_entriesMatching_leaf {nowMs : I64} {T : EntryColumnTable} {p : Predicate} {s : String}
    {text : EntryColumns → String} (hfault : p.nodes.findSome? Predicate.fault = none)
    (h : ∀ e, p.holds nowMs T e = decide (FoundIn s (text e))) (hs : NulFree s) :
    ∃ rows, T.entriesMatching p .all nowMs = .ok rows ∧
      ∀ e, NulFree (text e) → (e ∈ rows ↔ e ∈ T.rows ∧ OccursIn s (text e)) :=
  ⟨_, entriesMatching_eq hfault T, fun e he => by simp [h, foundIn_iff_occursIn hs he]⟩

/-- **The text search is a search for substrings**, in texts without a NUL. With a token in the query it
returns the entries, inside the bin filter, in which every token occurs in a field of the scope, the case
of ASCII letters ignored and wildcards taken literally; without one it returns none. The pattern of a
token means the same in the text leaves of a smart folder. -/
theorem search_finds_substrings :
    (∀ (m : Mirror) (query : String) (scope : SearchScope) (bin : RecycleBinFilter), NulFree query →
      ∃ rows, m.search query scope bin .all = .ok rows ∧ ∀ e, NulFreeIn scope e → (e ∈ rows ↔
        splitWhitespace query ≠ [] ∧ e ∈ m.entries.rows ∧ BinPasses m e bin ∧
          ∀ t ∈ splitWhitespace query, ∃ f ∈ scope.fields, ∃ s ∈ f.texts e, OccursIn t s)) ∧
    (∀ s t : String, NulFree s → NulFree t →
      (like ("%" ++ escapeLike s ++ "%") t = true ↔ OccursIn s t)) ∧
    ∀ (T : EntryColumnTable) (nowMs : I64) (s : String), NulFree s →
      (∃ rows, T.entriesMatching (.titleContains s) .all nowMs = .ok rows ∧
        ∀ e, NulFree e.title → (e ∈ rows ↔ e ∈ T.rows ∧ OccursIn s e.title)) ∧
      (∃ rows, T.entriesMatching (.urlContains s) .all nowMs = .ok rows ∧
        ∀ e, NulFree e.url → (e ∈ rows ↔ e ∈ T.rows ∧ OccursIn s e.url)) ∧
      ∃ rows, T.entriesMatching (.usernameContains s) .all nowMs = .ok rows ∧
        ∀ e, NulFree e.username → (e ∈ rows ↔ e ∈ T.rows ∧ OccursIn s e.username) := by
  refine ⟨fun m query scope bin hq => ?_, fun s t hs ht => ?_, fun T nowMs s hs => ⟨?_, ?_, ?_⟩⟩
  · obtain ⟨rows, hrows, hmem⟩ := mem_search m query scope bin
    refine ⟨rows, hrows, fun e he => ?_⟩
    rw [hmem e, finds_iff hq he]
  · rw [like_escapeLike, foundIn_iff_occursIn hs ht]
  · exact mem_entriesMatching_leaf rfl (fun _ => rfl) hs
  · exact mem_entriesMatching_leaf rfl (fun _ => rfl) hs
  · exact mem_entriesMatching_leaf rfl (fun _ => rfl) hs

/-- The search for `MAI` returns the entry of the title Mail. -/
theorem search_finds_mail : ∃ rows,
    (nestedMirror false).search "MAI" .anyField .includeRecycled .all = .ok rows ∧
      ∀ e ∈ (nestedMirror false).entries.rows, e ∈ rows := by
  have hquery : NulFree "MAI" := by decide
  obtain ⟨rows, hrows, hmem⟩ :=
    search_finds_substrings.1 (nestedMirror false) "MAI" .anyField .includeRecycled hquery
  have hfree : ∀ e ∈ (nestedMirror false).entries.rows, NulFreeIn .anyField e := by decide +kernel
  have hfound : ∀ e ∈ (nestedMirror false).entries.rows, ∀ t ∈ splitWhitespace "MAI",
      ∃ f ∈ SearchScope.anyField.fields, ∃ s ∈ f.texts e, OccursIn t s := by
    decide +kernel
  exact ⟨rows, hrows, fun e he => (hmem e (hfree e he)).2 ⟨by decide, he, trivial, hfound e he⟩⟩

/-- Every token of a blank query occurs in the title of the only entry, which a search for it does not
return. -/
theorem blank_query_finds_nothing :
    (nestedMirror false).entries.rows.map (·.title) = ["Mail"] ∧
      (∀ e ∈ (nestedMirror false).entries.rows, ∀ t ∈ splitWhitespace " ", OccursIn t e.title) ∧
      (nestedMirror false).search " " .titleOnly .includeRecycled .all = .ok [] := by
  have htokens : splitWhitespace " " = [] := by decide
  refine ⟨rfl, ?_, search_no_tokens _ htokens _ _ _⟩
  simp [htokens]

end KeysCore.Verify
