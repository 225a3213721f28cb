import KeysCore.Lib.Except
import KeysCore.Predicates

/-!
# A compiled predicate means its tree

`Predicate.holds` is what a tree says of an entry, with the boolean connectives at every node. The
condition `compile` writes is read back with a placeholder for each parameter, is never `NULL` on a row
of the table, and is true of the rows the tree holds of; the columns that may be `NULL` are only
compared behind an `IS NOT NULL`. A leaf that asks for a text means what `LIKE` finds (`FoundIn`), which
is where the text occurs as long as there is no NUL in it.
-/

namespace KeysCore.Verify

open Lib

/-! ## Meaning -/

/-- `s` occurs in `t`, the case of ASCII letters ignored. -/
def OccursIn (s t : String) : Prop := s.toList.map Char.toLower <:+: t.toList.map Char.toLower

instance (s t : String) : Decidable (OccursIn s t) := inferInstanceAs (Decidable (_ <:+: _))

/-- What `LIKE` finds: `t` counts up to its first NUL, and a text cut at a NUL of its own has to stand at
the end of that. -/
def FoundIn (s t : String) : Prop :=
  if NulFree s then s.toList.map Char.toLower <:+: (Like.cString t.toList).map Char.toLower
  else (Like.cString s.toList).map Char.toLower <:+ (Like.cString t.toList).map Char.toLower

instance (s t : String) : Decidable (FoundIn s t) :=
  inferInstanceAs (Decidable (if NulFree s then _ <:+: _ else _ <:+ _))

/-- Texts without a NUL are found where they occur. -/
theorem foundIn_iff_occursIn {s t : String} (hs : NulFree s) (ht : NulFree t) :
    FoundIn s t ↔ OccursIn s t := by
  rw [FoundIn, if_pos hs, Like.cString_of_not_mem ht, OccursIn]

end KeysCore.Verify

namespace KeysCore.Predicate

open Lib Verify

section

variable (nowMs : I64) (T : EntryColumnTable) (e : EntryColumns)

mutual

/-- The tree holds of the entry. A node of a later version has no meaning. -/
def holds : Predicate → Bool
  | .and ps => allHold ps
  | .or ps => someHolds ps
  | .not p => !p.holds
  | .titleContains s => FoundIn s e.title
  | .urlContains s => FoundIn s e.url
  | .usernameContains s => FoundIn s e.username
  | .urlHostEquals host => e.urlHost = host
  | .tagEquals tag => tag ∈ e.tags
  | .tagHasAny tags => tags.any (· ∈ e.tags)
  | .tagHasAll tags => tags.all (· ∈ e.tags)
  | .modifiedWithin d => nowMs.1 - d.ms ≤ e.modifiedAt.1
  | .modifiedBefore timestampMs => e.modifiedAt.1 < timestampMs.1
  | .expired => e.expiresAt.any (·.1 < nowMs.1)
  | .expiringWithin d => e.expiresAt.any fun t => nowMs.1 ≤ t.1 ∧ t.1 ≤ nowMs.1 + d.ms
  | .strengthBelow bucket => e.passwordStrengthBucket.any (·.1 < bucket.number)
  | .entropyBelow bits => e.passwordEntropy.any (· < bits)
  | .duplicates => e.passwordFingerprint.any fun f =>
      T.rows.any fun other => other.uuid ≠ e.uuid ∧ other.passwordFingerprint = some f
  | .group uuid => e.groupUuid = uuid
  | .unknown _ => false

def allHold : List Predicate → Bool
  | [] => true
  | p :: ps => p.holds && allHold ps

def someHolds : List Predicate → Bool
  | [] => false
  | p :: ps => p.holds || someHolds ps

end

theorem allHold_eq (ps : List Predicate) : allHold nowMs T e ps = ps.all (holds nowMs T e) := by
  induction ps with
  | nil => rfl
  | cons p ps ih => rw [allHold, ih, List.all_cons]

theorem someHolds_eq (ps : List Predicate) : someHolds nowMs T e ps = ps.any (holds nowMs T e) := by
  induction ps with
  | nil => rfl
  | cons p ps ih => rw [someHolds, ih, List.any_cons]

end

mutual

/-- The nodes of a tree, each before those below it. -/
def nodes : Predicate → List Predicate
  | .and ps => .and ps :: allNodes ps
  | .or ps => .or ps :: allNodes ps
  | .not p => .not p :: p.nodes
  | p => [p]

def allNodes : List Predicate → List Predicate
  | [] => []
  | p :: ps => p.nodes ++ allNodes ps

end

/-- What makes a node impossible to compile. -/
def fault : Predicate → Option CompileError
  | .unknown _ => some .notEvaluable
  | .and [] | .or [] | .tagHasAny [] | .tagHasAll [] => some .emptyAndOr
  | _ => none

end KeysCore.Predicate

namespace KeysCore.Verify

open Lib

/-! ## Errors -/

mutual

/-- An evaluable tree has no node of a later version. -/
theorem isEvaluable_iff : ∀ p : Predicate,
    p.isEvaluable = true ↔ ∀ q ∈ p.nodes, q.fault ≠ some .notEvaluable
  | .and ps => by
    have hnode : (Predicate.and ps).fault ≠ some .notEvaluable := by
      cases ps <;> simp [Predicate.fault]
    rw [Predicate.isEvaluable, allEvaluable_iff ps, Predicate.nodes, List.forall_mem_cons]
    exact (and_iff_right hnode).symm
  | .or ps => by
    have hnode : (Predicate.or ps).fault ≠ some .notEvaluable := by
      cases ps <;> simp [Predicate.fault]
    rw [Predicate.isEvaluable, allEvaluable_iff ps, Predicate.nodes, List.forall_mem_cons]
    exact (and_iff_right hnode).symm
  | .not p => by
    have hinner := isEvaluable_iff p
    simpa [Predicate.isEvaluable, Predicate.nodes, Predicate.fault] using hinner
  | .tagHasAny tags => by cases tags <;> simp [Predicate.isEvaluable, Predicate.nodes, Predicate.fault]
  | .tagHasAll tags => by cases tags <;> simp [Predicate.isEvaluable, Predicate.nodes, Predicate.fault]
  | .unknown _ | .titleContains _ | .urlContains _ | .usernameContains _ | .urlHostEquals _
  | .tagEquals _ | .modifiedWithin _ | .modifiedBefore _ | .expired | .expiringWithin _
  | .strengthBelow _ | .entropyBelow _ | .duplicates | .group _ => by
    simp [Predicate.isEvaluable, Predicate.nodes, Predicate.fault]

theorem allEvaluable_iff : ∀ ps : List Predicate,
    allEvaluable ps = true ↔ ∀ q ∈ Predicate.allNodes ps, q.fault ≠ some .notEvaluable
  | [] => by simp [allEvaluable, Predicate.allNodes]
  | p :: ps => by
    rw [allEvaluable, Bool.and_eq_true, isEvaluable_iff p, allEvaluable_iff ps, Predicate.allNodes]
    simp only [List.mem_append, or_imp, forall_and]

end

/-- A tree either compiles or fails, with the fault `fault` finds first. -/
def FailsWith {α : Type} (x : Except CompileError α) (fault : Option CompileError) : Prop :=
  match fault with
  | some e => x = .error e
  | none => ∃ a, x = .ok a

theorem FailsWith.error_iff {α : Type} {x : Except CompileError α} {fault : Option CompileError}
    (h : FailsWith x fault) (e : CompileError) : x = .error e ↔ fault = some e := by
  cases fault with
  | none =>
    obtain ⟨a, rfl⟩ := h
    simp
  | some e' =>
    obtain rfl : x = .error e' := h
    simp

theorem FailsWith.map {α β : Type} {x : Except CompileError α} {fault : Option CompileError}
    (h : FailsWith x fault) (f : α → β) : FailsWith (do return f (← x)) fault := by
  cases fault with
  | none =>
    obtain ⟨a, rfl⟩ := h
    exact ⟨f a, rfl⟩
  | some e =>
    obtain rfl : x = .error e := h
    rfl

mutual

/-- A tree fails to compile with the first fault among its nodes. -/
theorem compile_failsWith (nowMs : I64) :
    ∀ p : Predicate, FailsWith (compile nowMs p) (p.nodes.findSome? Predicate.fault)
  | .and [] => rfl
  | .and (p :: ps) => (compileAll_failsWith nowMs (p :: ps)).map (joined .and)
  | .or [] => rfl
  | .or (p :: ps) => (compileAll_failsWith nowMs (p :: ps)).map (joined .or)
  | .not p => (compile_failsWith nowMs p).map _
  | .tagHasAny [] => rfl
  | .tagHasAny (_ :: _) => ⟨_, rfl⟩
  | .tagHasAll [] => rfl
  | .tagHasAll (_ :: _) => ⟨_, rfl⟩
  | .unknown _ => rfl
  | .titleContains _ | .urlContains _ | .usernameContains _ | .urlHostEquals _ | .tagEquals _
  | .modifiedWithin _ | .modifiedBefore _ | .expired | .expiringWithin _ | .strengthBelow _
  | .entropyBelow _ | .duplicates | .group _ => ⟨_, rfl⟩

theorem compileAll_failsWith (nowMs : I64) : ∀ ps : List Predicate,
    FailsWith (compileAll nowMs ps) ((Predicate.allNodes ps).findSome? Predicate.fault)
  | [] => ⟨[], rfl⟩
  | p :: ps => by
    have hhead := compile_failsWith nowMs p
    have htail := compileAll_failsWith nowMs ps
    rw [compileAll, Predicate.allNodes, List.findSome?_append]
    cases hfault : p.nodes.findSome? Predicate.fault with
    | none =>
      rw [hfault] at hhead
      obtain ⟨c, hc⟩ := hhead
      rw [hc]
      exact htail.map (c :: ·)
    | some e =>
      rw [hfault] at hhead
      have hc : compile nowMs p = .error e := hhead
      rw [hc]
      rfl

end

/-! ## Conditions -/

/-- The compiled text takes its parameters, is read as a condition, and this is `b` on every row. -/
def Means (c : CompiledPredicate) (b : EntryColumnTable → EntryColumns → Bool) : Prop :=
  ∃ cond, Reads SqlAtom.arity c.whereSql c.params cond ∧
    ∀ T : EntryColumnTable, ∀ e ∈ T.rows, cond.eval (T.evalAtom e) = some (b T e)

namespace Means

variable {b : EntryColumnTable → EntryColumns → Bool}

theorem negated {c : CompiledPredicate} (h : Means c b) :
    Means ⟨.lparen :: .not :: c.whereSql ++ [.rparen], c.params⟩ fun T e => !b T e := by
  obtain ⟨cond, hreads, heval⟩ := h
  refine ⟨.not cond, hreads.negated, fun T e he => ?_⟩
  rw [Cond.eval, heval T e he, Truth.not_some]

section

variable {ι : Type} {i : ι} {l : List ι} {f : ι → CompiledPredicate}
  {g : ι → EntryColumnTable → EntryColumns → Bool}

theorem joined_and (h : ∀ j ∈ i :: l, Means (f j) (g j)) :
    Means (joined .and ((i :: l).map f)) fun T e => (i :: l).all fun j => g j T e := by
  have hinhabited : Nonempty (Cond (SqlAtom × List Value)) := ⟨.atom (.tagExists, [])⟩
  choose! cond hreads heval using h
  have hchain := (hreads i (by simp)).ands (l := l.map fun j => ((f j).whereSql, (f j).params, cond j))
    (by
      intro x hx
      obtain ⟨j, hj, rfl⟩ := List.mem_map.1 hx
      exact hreads j (List.mem_cons_of_mem _ hj))
  refine ⟨(l.map cond).foldl .and (cond i), ?_, fun T e he => ?_⟩
  · simpa [joined, Function.comp_def] using hchain
  · rw [Cond.eval_foldl_and (fun j hj => heval j (List.mem_cons_of_mem _ hj) T e he)
      (heval i (by simp) T e he)]
    rfl

theorem joined_or (h : ∀ j ∈ i :: l, Means (f j) (g j)) :
    Means (joined .or ((i :: l).map f)) fun T e => (i :: l).any fun j => g j T e := by
  have hinhabited : Nonempty (Cond (SqlAtom × List Value)) := ⟨.atom (.tagExists, [])⟩
  choose! cond hreads heval using h
  have hchain := (hreads i (by simp)).ors (l := l.map fun j => ((f j).whereSql, (f j).params, cond j))
    (by
      intro x hx
      obtain ⟨j, hj, rfl⟩ := List.mem_map.1 hx
      exact hreads j (List.mem_cons_of_mem _ hj))
  refine ⟨(l.map cond).foldl .or (cond i), ?_, fun T e he => ?_⟩
  · simpa [joined, Function.comp_def] using hchain
  · rw [Cond.eval_foldl_or (fun j hj => heval j (List.mem_cons_of_mem _ hj) T e he)
      (heval i (by simp) T e he)]
    rfl

end

/-- A template is the conjunction of its comparisons, each with its own parameters. -/
theorem template (a : SqlAtom) (ps : List Value) (l : List (SqlAtom × List Value))
    (ha : a.arity = ps.length) (hl : ∀ x ∈ l, x.1.arity = x.2.length)
    (h : ∀ T : EntryColumnTable, ∀ e ∈ T.rows,
      ((l.map Cond.atom).foldl Cond.and (.atom (a, ps))).eval (T.evalAtom e) = some (b T e)) :
    Means (template (a :: l.map (·.1)) (ps ++ (l.map (·.2)).flatten)) b := by
  have hchain := (Reads.atom ha).ands (l := l.map fun x => ([.atom x.1], x.2, Cond.atom x))
    (by
      intro y hy
      obtain ⟨x, hx, rfl⟩ := List.mem_map.1 hy
      exact Reads.atom (hl x hx))
  refine ⟨_, ?_, h⟩
  simpa [KeysCore.template, Function.comp_def] using hchain

end Means

/-! ## Leaves -/

/-- **An escaped text between wildcards means that it is found**, the case of ASCII letters ignored. -/
theorem like_escapeLike (s t : String) : like ("%" ++ escapeLike s ++ "%") t = true ↔ FoundIn s t := by
  have hpattern : ("%" ++ escapeLike s ++ "%").toList = '%' :: (Like.escape '\\' s.toList ++ ['%']) := by
    simp [escapeLike]
  rw [like, hpattern, FoundIn]
  by_cases hs : NulFree s
  · rw [if_pos hs, Like.like_any_escape_any (by decide) (by decide) hs]
  · rw [if_neg hs, Like.like_any_escape_nul (by decide) (not_not.1 hs),
      Like.like_any_escape (by decide) (by decide)]

theorem means_likeContains {column : Column} {text : EntryColumns → String}
    (hread : ∀ e : EntryColumns, e.read column = some (.text (text e))) (s : String) :
    Means (likeContains column s) fun _ e => FoundIn s (text e) := by
  refine Means.template (.like column) [.text ("%" ++ escapeLike s ++ "%")] [] rfl (by simp)
    fun T e _ => ?_
  simp only [List.map_nil, List.foldl_nil, Cond.eval, EntryColumnTable.evalAtom, hread,
    Option.some.injEq]
  rw [Bool.eq_iff_iff, like_escapeLike, decide_eq_true_iff]

theorem means_tagExists (tag : String) :
    Means ⟨tagExistsSql, [.text tag]⟩ fun _ e => decide (tag ∈ e.tags) :=
  Means.template .tagExists [.text tag] [] rfl (by simp) fun T e _ => rfl

theorem means_tagHasAny (tags : List String) :
    Means (template [.tagExistsIn tags.length] (tags.map .text)) fun _ e => tags.any (· ∈ e.tags) := by
  have hany : Means (template [.tagExistsIn tags.length] (tags.map .text ++ [])) fun _ e =>
      tags.any (· ∈ e.tags) := by
    refine Means.template _ _ [] (by simp [SqlAtom.arity]) (by simp) fun T e _ => ?_
    simp only [List.map_nil, List.foldl_nil, Cond.eval, EntryColumnTable.evalAtom, Option.some.injEq]
    rw [Bool.eq_iff_iff]
    simp only [List.any_eq_true, decide_eq_true_eq, List.mem_map, Value.text.injEq, exists_eq_right]
    exact exists_congr fun x => And.comm
  rwa [List.append_nil] at hany

theorem one_lt_countP {ρ : Type} [DecidableEq ρ] {l : List ρ} (hnd : l.Nodup) {a : ρ} (ha : a ∈ l)
    {p : ρ → Bool} (hp : p a = true) : 1 < l.countP p ↔ ∃ b ∈ l, b ≠ a ∧ p b = true := by
  rw [(List.perm_cons_erase ha).countP_eq, List.countP_cons_of_pos hp, Nat.lt_add_left_iff_pos,
    List.countP_pos_iff]
  simp only [hnd.mem_erase_iff]
  exact ⟨fun ⟨b, ⟨hne, hb⟩, hpb⟩ => ⟨b, hb, hne, hpb⟩, fun ⟨b, hb, hne, hpb⟩ => ⟨b, ⟨hne, hb⟩, hpb⟩⟩

/-- The fingerprint of a row is among those of the subquery when another row has it. -/
theorem mem_repeatedFingerprints {T : EntryColumnTable} {e : EntryColumns} (he : e ∈ T.rows)
    {f : List UInt8} (hf : e.passwordFingerprint = some f) : f ∈ T.repeatedFingerprints ↔
      ∃ other ∈ T.rows, other.uuid ≠ e.uuid ∧ other.passwordFingerprint = some f := by
  have hmem : f ∈ T.rows.filterMap (·.passwordFingerprint) := List.mem_filterMap.2 ⟨e, he, hf⟩
  have hcount : 1 < (T.rows.filterMap (·.passwordFingerprint)).count f ↔
      ∃ other ∈ T.rows, other ≠ e ∧ other.passwordFingerprint = some f := by
    rw [List.count_filterMap, one_lt_countP T.nodup.of_map he (by simp [hf])]
    simp
  have hkey : ∀ other ∈ T.rows, (other ≠ e ↔ other.uuid ≠ e.uuid) := fun other hother =>
    not_congr ⟨fun h => h ▸ rfl, fun h => T.eq_of_key hother he h⟩
  simp only [EntryColumnTable.repeatedFingerprints, List.mem_filter, hmem, true_and,
    decide_eq_true_eq, hcount]
  exact exists_congr fun other => and_congr_right fun hother =>
    and_congr_left fun _ => hkey other hother

theorem means_duplicates (nowMs : I64) :
    Means (template [.isNotNull .passwordFingerprint, .fingerprintRepeated] []) fun T e =>
      Predicate.duplicates.holds nowMs T e := by
  refine Means.template (.isNotNull .passwordFingerprint) [] [(.fingerprintRepeated, [])] rfl
    (by simp [SqlAtom.arity]) fun T e he => ?_
  cases hf : e.passwordFingerprint with
  | none => simp [Cond.eval, EntryColumnTable.evalAtom, EntryColumns.read, Predicate.holds, hf]
  | some f =>
    have hrepeated : decide (f ∈ T.repeatedFingerprints) = T.rows.any fun other =>
        other.uuid ≠ e.uuid ∧ other.passwordFingerprint = some f := by
      rw [Bool.eq_iff_iff, decide_eq_true_iff, mem_repeatedFingerprints he hf, List.any_eq_true]
      simp only [decide_eq_true_eq]
    simp [Cond.eval, EntryColumnTable.evalAtom, EntryColumns.read, Predicate.holds, hf, hrepeated]

/-- A comparison of a column that is not `NULL`. -/
theorem means_compare {column : Column} {op : Comparison} {v : Value} {b : EntryColumns → Bool}
    (h : ∀ e : EntryColumns, (e.read column).bind (op.eval · v) = some (b e)) :
    Means (template [.compare column op] [v]) fun _ e => b e :=
  Means.template (.compare column op) [v] [] rfl (by simp) fun _ e _ => h e

/-- A comparison behind an `IS NOT NULL` is false of `NULL`. -/
theorem means_guarded {X : Type} {column : Column} {op : Comparison} {v : Value}
    {value : EntryColumns → Option X} {k : X → Value} {b : X → Bool}
    (hread : ∀ e : EntryColumns, e.read column = (value e).map k)
    (h : ∀ x, op.eval (k x) v = some (b x)) :
    Means (template [.isNotNull column, .compare column op] [v]) fun _ e => (value e).any b := by
  refine Means.template (.isNotNull column) [] [(.compare column op, [v])] rfl
    (by simp [SqlAtom.arity]) fun T e _ => ?_
  cases hv : value e with
  | none => simp [Cond.eval, EntryColumnTable.evalAtom, hread, hv]
  | some x => simp [Cond.eval, EntryColumnTable.evalAtom, hread, hv, h]

theorem means_modifiedWithin (nowMs : I64) (d : Duration) :
    Means (template [.compare .modifiedAt .ge] [.integer (saturatingSub nowMs.1 d.ms)]) fun _ e =>
      decide (nowMs.1 - d.ms ≤ e.modifiedAt.1) := by
  refine means_compare fun e => ?_
  have hnow := nowMs.2
  have hmodified := e.modifiedAt.2
  have hms : 0 ≤ d.ms := by
    simp only [Duration.ms, maxI64]
    omega
  simp only [EntryColumns.read, Option.bind_some, Comparison.eval, Comparison.holds, saturatingSub,
    Option.some.injEq, decide_eq_decide]
  omega

theorem means_expiringWithin (nowMs : I64) (d : Duration) :
    Means (template [.isNotNull .expiresAt, .compare .expiresAt .ge, .compare .expiresAt .le]
      [.integer nowMs.1, .integer (saturatingAddI64 nowMs.1 d.ms)]) fun _ e =>
        e.expiresAt.any fun t => nowMs.1 ≤ t.1 ∧ t.1 ≤ nowMs.1 + d.ms := by
  refine Means.template (.isNotNull .expiresAt) [] [(.compare .expiresAt .ge, [.integer nowMs.1]),
    (.compare .expiresAt .le, [.integer (saturatingAddI64 nowMs.1 d.ms)])] rfl (by simp [SqlAtom.arity])
    fun T e _ => ?_
  cases h : e.expiresAt with
  | none => simp [Cond.eval, EntryColumnTable.evalAtom, EntryColumns.read, h]
  | some t =>
    have hle : t.1 ≤ saturatingAddI64 nowMs.1 d.ms ↔ t.1 ≤ nowMs.1 + d.ms := by
      have hnow := nowMs.2
      have ht := t.2
      have hms : 0 ≤ d.ms := by
        simp only [Duration.ms, maxI64]
        omega
      simp only [saturatingAddI64]
      omega
    simp [Cond.eval, EntryColumnTable.evalAtom, EntryColumns.read, h, Comparison.eval, Comparison.holds,
      hle]

/-! ## Trees -/

mutual

/-- **A tree that compiles is read back as its meaning.** -/
theorem compile_means (nowMs : I64) : ∀ (p : Predicate) {c : CompiledPredicate},
    compile nowMs p = .ok c → Means c fun T e => p.holds nowMs T e
  | .and [], c, h => by cases h
  | .and (p :: ps), c, h => by
    obtain ⟨cs, hcs, hc⟩ := except_bind_ok.1 h
    cases hc
    obtain ⟨_ | ⟨x, l⟩, hps, rfl, hl⟩ := compileAll_means nowMs (p :: ps) hcs
    · cases hps
    · rw [← hps]
      simp only [Predicate.holds, Predicate.allHold_eq, List.all_map]
      exact Means.joined_and hl
  | .or [], c, h => by cases h
  | .or (p :: ps), c, h => by
    obtain ⟨cs, hcs, hc⟩ := except_bind_ok.1 h
    cases hc
    obtain ⟨_ | ⟨x, l⟩, hps, rfl, hl⟩ := compileAll_means nowMs (p :: ps) hcs
    · cases hps
    · rw [← hps]
      simp only [Predicate.holds, Predicate.someHolds_eq, List.any_map]
      exact Means.joined_or hl
  | .not p, c, h => by
    obtain ⟨inner, hinner, hc⟩ := except_bind_ok.1 h
    cases hc
    exact (compile_means nowMs p hinner).negated
  | .titleContains s, c, h => by
    cases h
    exact means_likeContains (fun _ => rfl) s
  | .urlContains s, c, h => by
    cases h
    exact means_likeContains (fun _ => rfl) s
  | .usernameContains s, c, h => by
    cases h
    exact means_likeContains (fun _ => rfl) s
  | .urlHostEquals host, c, h => by
    cases h
    exact means_compare fun _ => rfl
  | .tagEquals tag, c, h => by
    cases h
    exact means_tagExists tag
  | .tagHasAny [], c, h => by cases h
  | .tagHasAny (tag :: tags), c, h => by
    cases h
    exact means_tagHasAny (tag :: tags)
  | .tagHasAll [], c, h => by cases h
  | .tagHasAll (tag :: tags), c, h => by
    cases h
    have hall := Means.joined_and fun t (_ : t ∈ tag :: tags) => means_tagExists t
    have hsql : joined .and ((tag :: tags).map fun t => ⟨tagExistsSql, [.text t]⟩) =
        ⟨.lparen :: separated .and ((tag :: tags).map fun _ => tagExistsSql) ++ [.rparen],
          (tag :: tags).map .text⟩ := by
      have hparams : ((tag :: tags).map fun t => [Value.text t]).flatten = (tag :: tags).map .text := by
        rw [← List.flatMap_def, List.map_eq_flatMap]
      rw [joined, List.map_map, List.map_map, ← hparams]
      rfl
    rwa [hsql] at hall
  | .modifiedWithin d, c, h => by
    cases h
    exact means_modifiedWithin nowMs d
  | .modifiedBefore t, c, h => by
    cases h
    exact means_compare fun _ => rfl
  | .expired, c, h => by
    cases h
    exact means_guarded (fun _ => rfl) fun _ => rfl
  | .expiringWithin d, c, h => by
    cases h
    exact means_expiringWithin nowMs d
  | .strengthBelow bucket, c, h => by
    cases h
    exact means_guarded (fun _ => rfl) fun _ => rfl
  | .entropyBelow bits, c, h => by
    cases h
    exact means_guarded (fun _ => rfl) fun _ => rfl
  | .duplicates, c, h => by
    cases h
    exact means_duplicates nowMs
  | .group u, c, h => by
    cases h
    exact means_compare fun _ => rfl
  | .unknown _, c, h => by cases h

/-- The children of a junction, each with what it compiles to. -/
theorem compileAll_means (nowMs : I64) : ∀ (ps : List Predicate) {cs : List CompiledPredicate},
    compileAll nowMs ps = .ok cs → ∃ l : List (Predicate × CompiledPredicate),
      l.map (·.1) = ps ∧ l.map (·.2) = cs ∧ ∀ x ∈ l, Means x.2 fun T e => x.1.holds nowMs T e
  | [], cs, h => by
    cases h
    exact ⟨[], rfl, rfl, by simp⟩
  | p :: ps, cs, h => by
    obtain ⟨c, hc, h⟩ := except_bind_ok.1 h
    obtain ⟨cs', hcs, h⟩ := except_bind_ok.1 h
    cases h
    obtain ⟨l, rfl, rfl, hl⟩ := compileAll_means nowMs ps hcs
    refine ⟨(p, c) :: l, rfl, rfl, fun x hx => ?_⟩
    obtain rfl | hx := List.mem_cons.1 hx
    · exact compile_means nowMs p hc
    · exact hl x hx

end

/-! ## Text -/

/-- The placeholders in a text. -/
def questionMarks (s : String) : Nat := s.toList.count '?'

@[simp] theorem questionMarks_append (s t : String) :
    questionMarks (s ++ t) = questionMarks s + questionMarks t := by
  simp [questionMarks]

theorem questionMarks_list (n : Nat) :
    questionMarks (", ".intercalate (List.replicate n "?")) = n := by
  induction n with
  | zero => rfl
  | succ n ih =>
    cases n with
    | zero => rfl
    | succ n =>
      have hcons : ", ".intercalate (List.replicate (n + 2) "?") =
          "?" ++ ", " ++ ", ".intercalate (List.replicate (n + 1) "?") := by
        simp [List.replicate_succ, String.intercalate_cons_cons]
      have hhead : questionMarks "?" = 1 ∧ questionMarks ", " = 0 := by decide
      rw [hcons, questionMarks_append, questionMarks_append, ih]
      omega

theorem questionMarks_tagSelect : questionMarks SqlAtom.tagSelect = 0 := by decide +kernel

theorem questionMarks_column (column : Column) : questionMarks column.text = 0 := by
  cases column <;> decide

/-- The text of a comparison has the placeholders its arity says. -/
theorem questionMarks_atom (a : SqlAtom) : questionMarks a.text = a.arity := by
  cases a with
  | compare column op =>
    have hop : questionMarks op.text = 0 := by cases op <;> decide
    rw [SqlAtom.text, questionMarks_append, questionMarks_append, questionMarks_append,
      questionMarks_column, hop]
    rfl
  | like column =>
    rw [SqlAtom.text, questionMarks_append, questionMarks_column]
    rfl
  | isNotNull column =>
    rw [SqlAtom.text, questionMarks_append, questionMarks_column]
    rfl
  | tagExists =>
    rw [SqlAtom.text, questionMarks_append, questionMarks_tagSelect, Nat.zero_add]
    rfl
  | tagExistsIn n =>
    have hparens : questionMarks "IN (" = 0 ∧ questionMarks "))" = 0 := by decide
    rw [SqlAtom.text, questionMarks_append, questionMarks_append, questionMarks_append,
      questionMarks_tagSelect, questionMarks_list, hparens.1, hparens.2, Nat.zero_add,
      Nat.add_zero, SqlAtom.arity]
  | fingerprintRepeated => decide +kernel

theorem questionMarks_text (c : CompiledPredicate) :
    questionMarks c.text = placeholders SqlAtom.arity c.whereSql := by
  have hlexeme : ∀ t : Lexeme SqlAtom, questionMarks (lexemeText t) = t.placeholders SqlAtom.arity := by
    intro t
    cases t with
    | atom a => exact questionMarks_atom a
    | lparen | rparen | and | or | not => decide
  unfold CompiledPredicate.text placeholders
  induction c.whereSql with
  | nil => rfl
  | cons t ts ih =>
    rw [List.map_cons, String.join_cons, questionMarks_append, hlexeme, ih, List.map_cons, List.sum_cons]

/-! ## Queries -/

/-- The rows a compiled tree selects are those it holds of. -/
theorem selectWhere_eq {nowMs : I64} {p : Predicate} {c : CompiledPredicate}
    (h : compile nowMs p = .ok c) (T : EntryColumnTable) :
    T.selectWhere c = .ok (T.rows.filter (p.holds nowMs T ·)) := by
  obtain ⟨cond, hreads, heval⟩ := compile_means nowMs p h
  rw [EntryColumnTable.selectWhere, hreads.read]
  refine congrArg Except.ok (List.filter_congr fun e he => ?_)
  simp [heval T e he]

/-- A tree without faults selects the rows it holds of, in the order of the list. -/
theorem entriesMatching_eq {nowMs : I64} {p : Predicate} (h : p.nodes.findSome? Predicate.fault = none)
    (T : EntryColumnTable) : T.entriesMatching p .all nowMs =
      .ok ((T.rows.filter (p.holds nowMs T ·)).insertionSort fun a b => matchOrder a ≤ matchOrder b) := by
  have hfails := compile_failsWith nowMs p
  rw [h] at hfails
  obtain ⟨c, hc⟩ := hfails
  simp [EntryColumnTable.entriesMatching, hc, Except.mapError, selectWhere_eq hc, bind, Except.bind, pure,
    Except.pure]

theorem countMatching_eq {nowMs : I64} {p : Predicate} (h : p.nodes.findSome? Predicate.fault = none)
    (T : EntryColumnTable) :
    T.countMatching p nowMs = .ok (T.rows.filter (p.holds nowMs T ·)).length := by
  have hfails := compile_failsWith nowMs p
  rw [h] at hfails
  obtain ⟨c, hc⟩ := hfails
  simp [EntryColumnTable.countMatching, hc, Except.mapError, selectWhere_eq hc, bind, Except.bind, pure,
    Except.pure]

theorem selectWhere_refused {nowMs : I64} {p : Predicate} {e : CompileError}
    (h : p.nodes.findSome? Predicate.fault = some e) (T : EntryColumnTable) :
    T.entriesMatching p .all nowMs = .error .notEvaluable ∧
      T.countMatching p nowMs = .error .notEvaluable := by
  have hfails := ((compile_failsWith nowMs p).error_iff e).2 h
  constructor
  · rw [EntryColumnTable.entriesMatching, hfails]
    rfl
  · rw [EntryColumnTable.countMatching, hfails]
    rfl

def bananaTable : EntryColumnTable where
  rows := [{ uuid := 1, groupUuid := 0, title := "banana", modifiedAt := ⟨1, by decide⟩ }]
  nodup := by decide

end KeysCore.Verify
