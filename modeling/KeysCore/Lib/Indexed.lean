import Mathlib.Data.List.Nodup
import Mathlib.Data.List.Perm.Basic
import Mathlib.Data.List.Sort
import Mathlib.Algebra.Order.Ring.Int

/-!
# Rows under an index

The rows of one owner under an index that is part of the primary key: statements that insert a row,
delete rows and move rows to another index, which fail when a row stands there. An update of several
rows moves them one after the other, in the order of the index, and each against the rows as they are
by then.

`Dense rows l` says that the rows hold the list `l` under the indices from zero on. Appending at the
next index, deleting one index and closing the gap, dropping the first rows and closing the gap, and
renumbering a selection of the rows keep the rows dense, for the list treated alike.
-/

namespace KeysCore.Lib

namespace Indexed

variable {α : Type}

/-! ## Statements -/

def indices (rows : List (Int × α)) : List Int := rows.map (·.1)

/-- `INSERT`. -/
def insert? (rows : List (Int × α)) (r : Int × α) : Option (List (Int × α)) :=
  if r.1 ∈ indices rows then none else some (rows ++ [r])

/-- `DELETE … WHERE index = i`. -/
def deleteAt (rows : List (Int × α)) (i : Int) : List (Int × α) := rows.filter (·.1 ≠ i)

/-- `UPDATE … SET index = j WHERE index = i`. -/
def move? (rows : List (Int × α)) (p : Int × Int) : Option (List (Int × α)) :=
  if p.1 ∈ indices rows ∧ p.2 ≠ p.1 ∧ p.2 ∈ indices rows then none
  else some (rows.map fun r => if r.1 = p.1 then (p.2, r.2) else r)

/-- `UPDATE … SET index = index + d WHERE p index`. -/
def shift? (d : Int) (p : Int → Bool) (rows : List (Int × α)) : Option (List (Int × α)) :=
  ((((indices rows).filter p).insertionSort (· ≤ ·)).map fun i => (i, i + d)).foldlM move? rows

/-- `ORDER BY index`. -/
def ordered (rows : List (Int × α)) : List (Int × α) := rows.insertionSort fun a b => a.1 ≤ b.1

/-- One past `MAX(index)`, zero without rows. -/
def nextIndex (rows : List (Int × α)) : Int :=
  match (indices rows).max? with
  | none => 0
  | some i => i + 1

/-! ## Numbered lists -/

/-- The list under the indices from `n` on. -/
def numbered (n : Int) : List α → List (Int × α)
  | [] => []
  | a :: l => (n, a) :: numbered (n + 1) l

@[simp] theorem numbered_values (n : Int) (l : List α) : (numbered n l).map (·.2) = l := by
  induction l generalizing n with
  | nil => rfl
  | cons a l ih => simp [numbered, ih]

@[simp] theorem length_numbered (n : Int) (l : List α) : (numbered n l).length = l.length := by
  induction l generalizing n with
  | nil => rfl
  | cons a l ih => simp [numbered, ih]

theorem mem_numbered {n : Int} {l : List α} {r : Int × α} :
    r ∈ numbered n l ↔ ∃ k : Nat, r.1 = n + k ∧ l[k]? = some r.2 := by
  induction l generalizing n with
  | nil => simp [numbered]
  | cons a l ih =>
    rw [numbered, List.mem_cons, ih]
    constructor
    · rintro (rfl | ⟨k, hk, hr⟩)
      · exact ⟨0, by simp, rfl⟩
      · exact ⟨k + 1, by omega, hr⟩
    · rintro ⟨k, hk, hr⟩
      cases k with
      | zero =>
        left
        have : r.2 = a := by simpa using hr.symm
        ext
        · simpa using hk
        · exact this
      | succ k => exact .inr ⟨k, by omega, hr⟩

theorem le_of_mem_numbered {n : Int} {l : List α} {r : Int × α} (h : r ∈ numbered n l) :
    n ≤ r.1 ∧ r.1 < n + l.length := by
  obtain ⟨k, hk, hr⟩ := mem_numbered.1 h
  have hlt : k < l.length := (List.getElem?_eq_some_iff.1 hr).1
  omega

theorem numbered_pairwise (n : Int) (l : List α) :
    (numbered n l).Pairwise fun a b => a.1 < b.1 := by
  induction l generalizing n with
  | nil => exact .nil
  | cons a l ih =>
    refine .cons (fun r hr => ?_) (ih (n + 1))
    have := (le_of_mem_numbered hr).1
    show n < r.1
    omega

theorem numbered_nodup (n : Int) (l : List α) : (indices (numbered n l)).Nodup := by
  unfold indices List.Nodup
  rw [List.pairwise_map]
  exact (numbered_pairwise n l).imp fun h => ne_of_lt h

theorem numbered_append (n : Int) (l l' : List α) :
    numbered n (l ++ l') = numbered n l ++ numbered (n + l.length) l' := by
  induction l generalizing n with
  | nil => simp [numbered]
  | cons a l ih =>
    have hlen : n + 1 + (l.length : Int) = n + ((a :: l).length : Int) := by simp; omega
    simp [numbered, ih, hlen]

theorem mem_indices_numbered {n : Int} {l : List α} {i : Int} :
    i ∈ indices (numbered n l) ↔ n ≤ i ∧ i < n + l.length := by
  unfold indices
  rw [List.mem_map]
  constructor
  · rintro ⟨r, hr, rfl⟩
    exact le_of_mem_numbered hr
  · rintro ⟨hlo, hhi⟩
    have hlt : (i - n).toNat < l.length := by omega
    exact ⟨(i, l[(i - n).toNat]), mem_numbered.2 ⟨(i - n).toNat, by omega, List.getElem?_eq_getElem hlt⟩,
      rfl⟩

/-- A numbered list with one flag for all. -/
theorem numbered_zip_const {β : Type} (c : β) (n : Int) (l : List α) :
    (numbered n l).zip (l.map fun _ => c) = (numbered n l).map (·, c) := by
  induction l generalizing n with
  | nil => rfl
  | cons a l ih => rw [numbered, List.map_cons, List.zip_cons_cons, ih, List.map_cons]

/-- The list moved to other indices. -/
theorem numbered_add (n d : Int) (l : List α) :
    (numbered n l).map (fun r => (r.1 + d, r.2)) = numbered (n + d) l := by
  induction l generalizing n with
  | nil => rfl
  | cons a l ih =>
    have hn : n + 1 + d = n + d + 1 := by omega
    simp [numbered, ih, hn]

/-- One element left out, and the gap closed. -/
theorem numbered_eraseIdx (n : Int) (l : List α) (k : Nat) :
    ((numbered n l).filter (·.1 ≠ n + k)).map
      (fun r => (if n + k < r.1 then r.1 + -1 else r.1, r.2)) = numbered n (l.eraseIdx k) := by
  induction l generalizing n k with
  | nil => rfl
  | cons a l ih =>
    cases k with
    | zero =>
      have hkeep : (numbered (n + 1) l).filter (·.1 ≠ n + (0 : Nat)) = numbered (n + 1) l := by
        refine List.filter_eq_self.2 fun r hr => ?_
        have := (le_of_mem_numbered hr).1
        simp only [ne_eq, decide_eq_true_eq]
        omega
      have hmove : (numbered (n + 1) l).map
          (fun r => (if n + (0 : Nat) < r.1 then r.1 + -1 else r.1, r.2)) =
            (numbered (n + 1) l).map fun r => (r.1 + -1, r.2) := by
        refine List.map_congr_left fun r hr => ?_
        have := (le_of_mem_numbered hr).1
        rw [if_pos (by omega)]
      rw [numbered, List.filter_cons_of_neg (by simp), hkeep, hmove, numbered_add, List.eraseIdx_cons_zero]
      congr 1
      omega
    | succ k =>
      have hk : n + ((k + 1 : Nat) : Int) = n + 1 + k := by omega
      rw [numbered, List.filter_cons_of_pos (by simp; omega), List.map_cons, if_neg (by simp; omega), hk,
        ih, List.eraseIdx_cons_succ, numbered]

/-- The first elements left out. -/
theorem numbered_drop (n : Int) (l : List α) (k : Nat) :
    (numbered n l).filter (n + k ≤ ·.1) = numbered (n + k) (l.drop k) := by
  induction l generalizing n k with
  | nil => simp [numbered]
  | cons a l ih =>
    cases k with
    | zero =>
      rw [List.drop_zero, Nat.cast_zero, add_zero]
      refine List.filter_eq_self.2 fun r hr => ?_
      exact decide_eq_true (le_of_mem_numbered hr).1
    | succ k =>
      have hk : n + ((k + 1 : Nat) : Int) = n + 1 + k := by omega
      rw [numbered, List.filter_cons_of_neg (by simp), hk, ih, List.drop_succ_cons]

theorem numbered_take (n : Int) (l : List α) (k : Nat) :
    (numbered n l).take k = numbered n (l.take k) := by
  induction l generalizing n k with
  | nil => simp [numbered]
  | cons a l ih =>
    cases k with
    | zero => rfl
    | succ k => simp [numbered, ih]

/-! ## Moves -/

/-- Where the moves `ps` take the index `i`. -/
def target (ps : List (Int × Int)) (i : Int) : Int := ((ps.find? (·.1 = i)).map (·.2)).getD i

theorem target_cons (p : Int × Int) (ps : List (Int × Int)) (i : Int) :
    target (p :: ps) i = if p.1 = i then p.2 else target ps i := by
  unfold target
  rw [List.find?_cons]
  by_cases h : p.1 = i
  · simp [h]
  · simp [h]

theorem target_of_not_mem {ps : List (Int × Int)} {i : Int} (h : i ∉ ps.map (·.1)) :
    target ps i = i := by
  induction ps with
  | nil => rfl
  | cons p ps ih =>
    rw [List.map_cons, List.mem_cons, not_or] at h
    rw [target_cons, if_neg (Ne.symm h.1), ih h.2]

theorem target_map {is : List Int} (f : Int → Int) (i : Int) :
    target (is.map fun i => (i, f i)) i = if i ∈ is then f i else i := by
  induction is with
  | nil => rfl
  | cons j is ih =>
    rw [List.map_cons, target_cons, ih]
    by_cases h : j = i
    · subst h
      simp
    · simp [h, Ne.symm h]

theorem move?_eq_some {rows rows' : List (Int × α)} {p : Int × Int} (h : move? rows p = some rows') :
    ¬ (p.1 ∈ indices rows ∧ p.2 ≠ p.1 ∧ p.2 ∈ indices rows) ∧
      rows' = rows.map fun r => if r.1 = p.1 then (p.2, r.2) else r := by
  unfold move? at h
  split at h
  · cases h
  · exact ⟨‹_›, (Option.some.inj h).symm⟩

theorem mem_indices_move {rows : List (Int × α)} {p : Int × Int} {i : Int} :
    i ∈ indices (rows.map fun r => if r.1 = p.1 then (p.2, r.2) else r) ↔
      (i ∈ indices rows ∧ i ≠ p.1) ∨ (p.1 ∈ indices rows ∧ i = p.2) := by
  unfold indices
  rw [List.map_map, List.mem_map]
  constructor
  · rintro ⟨r, hr, rfl⟩
    by_cases h : r.1 = p.1
    · exact .inr ⟨List.mem_map.2 ⟨r, hr, h⟩, by simp [h]⟩
    · exact .inl ⟨List.mem_map.2 ⟨r, hr, by simp [h]⟩, by simp [h]⟩
  · rintro (⟨hi, hne⟩ | ⟨hp, rfl⟩)
    · obtain ⟨r, hr, rfl⟩ := List.mem_map.1 hi
      exact ⟨r, hr, by simp [hne]⟩
    · obtain ⟨r, hr, h⟩ := List.mem_map.1 hp
      exact ⟨r, hr, by simp [h]⟩

/-- **Moves that returned took every row where they say.** No move can take a row to an index that a
later one moves: a row stood there then. -/
theorem moves_eq {ps : List (Int × Int)} {rows rows' : List (Int × α)}
    (hnd : (indices rows).Nodup) (hold : (ps.map (·.1)).Nodup) (hin : ∀ p ∈ ps, p.1 ∈ indices rows)
    (h : ps.foldlM move? rows = some rows') :
    rows' = rows.map fun r => (target ps r.1, r.2) := by
  induction ps generalizing rows with
  | nil =>
    obtain rfl := Option.some.inj h
    exact (List.map_id' _).symm
  | cons p ps ih =>
    rw [List.foldlM_cons] at h
    obtain ⟨mid, hmid, h⟩ := Option.bind_eq_some_iff.1 h
    obtain ⟨hfree, rfl⟩ := move?_eq_some hmid
    rw [List.map_cons, List.nodup_cons] at hold
    have hp : p.1 ∈ indices rows := hin p (by simp)
    have hfree : p.2 = p.1 ∨ p.2 ∉ indices rows := by
      by_contra hcon
      rw [not_or, not_not] at hcon
      exact hfree ⟨hp, hcon.1, hcon.2⟩
    have hnew : p.2 ∉ ps.map (·.1) := by
      rcases hfree with heq | hout
      · rw [heq]
        exact hold.1
      · intro hmem
        obtain ⟨q, hq, hqe⟩ := List.mem_map.1 hmem
        exact hout (hqe ▸ hin q (List.mem_cons_of_mem _ hq))
    have hnd' : (indices (rows.map fun r => if r.1 = p.1 then (p.2, r.2) else r)).Nodup := by
      unfold indices at hnd ⊢
      rw [List.map_map]
      refine (List.nodup_map_iff_inj_on (List.Nodup.of_map _ hnd)).2 fun a ha b hb hab => ?_
      have hinj := List.inj_on_of_nodup_map hnd ha hb
      have hcase : ∀ r ∈ rows, p.2 = r.1 → r.1 = p.1 := by
        intro r hr he
        rcases hfree with heq | hout
        · rw [← he, heq]
        · exact absurd (List.mem_map.2 ⟨r, hr, he.symm⟩) hout
      simp only [Function.comp_apply] at hab
      by_cases hap : a.1 = p.1
      · by_cases hbp : b.1 = p.1
        · exact hinj (hap.trans hbp.symm)
        · rw [if_pos hap, if_neg hbp] at hab
          exact absurd (hcase b hb hab) hbp
      · by_cases hbp : b.1 = p.1
        · rw [if_neg hap, if_pos hbp] at hab
          exact absurd (hcase a ha hab.symm) hap
        · rw [if_neg hap, if_neg hbp] at hab
          exact hinj hab
    have hin' : ∀ q ∈ ps, q.1 ∈ indices (rows.map fun r => if r.1 = p.1 then (p.2, r.2) else r) := by
      intro q hq
      refine mem_indices_move.2 (.inl ⟨hin q (List.mem_cons_of_mem _ hq), fun heq => ?_⟩)
      exact hold.1 (List.mem_map.2 ⟨q, hq, heq⟩)
    rw [ih hnd' hold.2 hin' h, List.map_map]
    refine List.map_congr_left fun r _ => ?_
    rw [Function.comp_apply, target_cons]
    by_cases hr : r.1 = p.1
    · rw [if_pos hr, if_pos hr.symm, target_of_not_mem hnew]
    · rw [if_neg hr, if_neg (Ne.symm hr)]

/-- Moves down by `d` succeed when what stands below a moved row is moved itself. -/
theorem moves_down_isSome {d : Int} (hd : d < 0) {is : List Int} (hs : is.Pairwise (· < ·))
    {rows : List (Int × α)} (h : ∀ i ∈ is, i + d ∈ indices rows → i + d ∈ is) :
    ((is.map fun i => (i, i + d)).foldlM move? rows).isSome = true := by
  induction is generalizing rows with
  | nil => rfl
  | cons i is ih =>
    rw [List.pairwise_cons] at hs
    have hfree : i + d ∉ indices rows := by
      intro hmem
      rcases List.mem_cons.1 (h i (by simp) hmem) with heq | hlater
      · omega
      · have := hs.1 _ hlater
        omega
    have hmove : move? rows (i, i + d) =
        some (rows.map fun r => if r.1 = i then (i + d, r.2) else r) :=
      if_neg fun hcon => hfree hcon.2.2
    rw [List.map_cons, List.foldlM_cons, hmove]
    refine ih hs.2 fun j hj hmem => ?_
    rcases (mem_indices_move (p := (i, i + d))).1 hmem with ⟨hmem, hne⟩ | ⟨-, heq⟩
    · rcases List.mem_cons.1 (h j (List.mem_cons_of_mem _ hj) hmem) with he | hlater
      · exact absurd he hne
      · exact hlater
    · have := hs.1 j hj
      have heq : j + d = i + d := heq
      omega

/-- Moves to distinct places where no row stands succeed. -/
theorem moves_isSome {ps : List (Int × Int)} {rows : List (Int × α)} (hnew : (ps.map (·.2)).Nodup)
    (hfree : ∀ p ∈ ps, p.2 ∉ indices rows) : (ps.foldlM move? rows).isSome = true := by
  induction ps generalizing rows with
  | nil => rfl
  | cons p ps ih =>
    rw [List.map_cons, List.nodup_cons] at hnew
    have hmove : move? rows p = some (rows.map fun r => if r.1 = p.1 then (p.2, r.2) else r) :=
      if_neg fun hcon => hfree p (by simp) hcon.2.2
    rw [List.foldlM_cons, hmove]
    refine ih hnew.2 fun q hq hmem => ?_
    rcases mem_indices_move.1 hmem with ⟨hmem, -⟩ | ⟨-, heq⟩
    · exact hfree q (List.mem_cons_of_mem _ hq) hmem
    · exact hnew.1 (List.mem_map.2 ⟨q, hq, heq⟩)

/-- Moves up that returned found no row where one they had still to move stood. -/
theorem moves_up_free {d : Int} (hd : 0 < d) {is : List Int} (hs : is.Pairwise (· < ·))
    {rows : List (Int × α)} (hin : ∀ i ∈ is, i ∈ indices rows)
    (h : ((is.map fun i => (i, i + d)).foldlM move? rows).isSome = true) :
    ∀ i ∈ is, i + d ∉ is := by
  induction is generalizing rows with
  | nil => simp
  | cons j is ih =>
    rw [List.pairwise_cons] at hs
    rw [List.map_cons, List.foldlM_cons] at h
    cases hmid : move? rows (j, j + d) with
    | none => simp [hmid] at h
    | some mid =>
      rw [hmid] at h
      obtain ⟨hfree, rfl⟩ := move?_eq_some hmid
      have hj : j + d ∉ indices rows := fun hmem => hfree ⟨hin j (by simp), by simp; omega, hmem⟩
      have hin' : ∀ i ∈ is, i ∈ indices (rows.map fun r => if r.1 = j then (j + d, r.2) else r) := by
        intro i hi
        refine (mem_indices_move (p := (j, j + d))).2 (.inl ⟨hin i (List.mem_cons_of_mem _ hi), ?_⟩)
        have := hs.1 i hi
        omega
      intro i hi hid
      rcases List.mem_cons.1 hi with rfl | hi
      · exact hj (hin _ hid)
      · rcases List.mem_cons.1 hid with heq | hid
        · have := hs.1 i hi
          omega
        · exact ih hs.2 hin' h i hi hid

/-- An update of several rows that returned. -/
theorem shift?_eq {d : Int} {p : Int → Bool} {rows rows' : List (Int × α)}
    (hnd : (indices rows).Nodup) (h : shift? d p rows = some rows') :
    rows' = rows.map fun r => (if p r.1 then r.1 + d else r.1, r.2) := by
  have hsorted : ∀ i, i ∈ ((indices rows).filter p).insertionSort (· ≤ ·) ↔
      i ∈ indices rows ∧ p i = true := by
    intro i
    rw [List.mem_insertionSort, List.mem_filter]
  have hmoves := moves_eq hnd ?_ ?_ h
  · rw [hmoves]
    refine List.map_congr_left fun r hr => ?_
    have hmem : r.1 ∈ indices rows := List.mem_map_of_mem hr
    rw [target_map]
    simp [hsorted, hmem]
  · rw [List.map_map]
    have hid : ((fun r : Int × Int => r.1) ∘ fun i => (i, i + d)) = id := rfl
    rw [hid, List.map_id]
    exact (List.perm_insertionSort _ _).nodup_iff.2 (hnd.filter p)
  · intro q hq
    obtain ⟨i, hi, rfl⟩ := List.mem_map.1 hq
    exact ((hsorted i).1 hi).1

theorem pairwise_lt_sorted {is : List Int} (hnd : is.Nodup) :
    (is.insertionSort (· ≤ ·)).Pairwise (· < ·) := by
  have hle := List.pairwise_insertionSort (fun a b : Int => a ≤ b) is
  have hne := (List.perm_insertionSort (fun a b : Int => a ≤ b) is).nodup_iff.2 hnd
  exact (hle.and hne).imp fun hab => lt_of_le_of_ne hab.1 hab.2

/-- A shift down succeeds when what stands below a shifted row is shifted itself. -/
theorem shift?_isSome {d : Int} (hd : d < 0) {p : Int → Bool} {rows : List (Int × α)}
    (hnd : (indices rows).Nodup)
    (h : ∀ i ∈ indices rows, p i = true → i + d ∈ indices rows → p (i + d) = true) :
    (shift? d p rows).isSome = true := by
  refine moves_down_isSome hd ?_ fun i hi hmem => ?_
  · exact pairwise_lt_sorted (hnd.filter p)
  · rw [List.mem_insertionSort, List.mem_filter] at hi ⊢
    exact ⟨hmem, h i hi.1 hi.2 hmem⟩

/-- **A shift of all rows up succeeds exactly when no row stands where another one goes.** -/
theorem shift?_up_isSome_iff {d : Int} (hd : 0 < d) {rows : List (Int × α)}
    (hnd : (indices rows).Nodup) : (shift? d (fun _ => true) rows).isSome = true ↔
      ∀ i ∈ indices rows, i + d ∉ indices rows := by
  have hmem : ∀ i, i ∈ ((indices rows).filter fun _ => true).insertionSort (· ≤ ·) ↔
      i ∈ indices rows := by
    intro i
    rw [List.mem_insertionSort, List.mem_filter]
    exact and_iff_left rfl
  have hsorted := pairwise_lt_sorted (hnd.filter fun _ => true)
  constructor
  · intro h i hi hid
    exact moves_up_free hd hsorted (fun j hj => (hmem j).1 hj) h i ((hmem i).2 hi) ((hmem _).2 hid)
  · intro hfree
    refine moves_isSome ?_ fun p hp => ?_
    · rw [List.map_map]
      exact (hsorted.imp fun h => ne_of_lt h).map _ fun a b hab => by simpa using hab
    · obtain ⟨i, hi, rfl⟩ := List.mem_map.1 hp
      exact hfree i ((hmem i).1 hi)

/-- The rows over budget deleted, one index after the other. -/
theorem foldl_deleteAt (is : List Int) (rows : List (Int × α)) :
    is.foldl deleteAt rows = rows.filter (·.1 ∉ is) := by
  induction is generalizing rows with
  | nil => simp
  | cons i is ih =>
    rw [List.foldl_cons, ih, deleteAt, List.filter_filter]
    refine List.filter_congr fun r _ => ?_
    simp [Bool.and_comm]

/-! ## Dense rows -/

/-- The rows hold `l` under the indices from zero on. -/
def Dense (rows : List (Int × α)) (l : List α) : Prop := rows.Perm (numbered 0 l)

namespace Dense

variable {rows rows' : List (Int × α)} {l : List α}

theorem nodup (h : Dense rows l) : (indices rows).Nodup :=
  (h.map Prod.fst).nodup_iff.2 (numbered_nodup 0 l)

theorem mem (h : Dense rows l) {k : Nat} {a : α} : ((k : Int), a) ∈ rows ↔ l[k]? = some a := by
  rw [h.mem_iff, mem_numbered]
  constructor
  · rintro ⟨j, hj, ha⟩
    obtain rfl : k = j := by simp only [zero_add] at hj; omega
    exact ha
  · intro ha
    exact ⟨k, by simp, ha⟩

/-- **Dense rows, read in the order of the index, are the list under `0, 1, …`.** -/
theorem ordered (h : Dense rows l) : ordered rows = numbered 0 l := by
  have htotal : Std.Total fun a b : Int × α => a.1 ≤ b.1 := ⟨fun a b => le_total _ _⟩
  have htrans : IsTrans (Int × α) fun a b => a.1 ≤ b.1 := ⟨fun _ _ _ => le_trans⟩
  refine List.Perm.eq_of_pairwise ?_ (List.pairwise_insertionSort (fun a b : Int × α => a.1 ≤ b.1) rows)
    ((numbered_pairwise 0 l).imp fun hab => le_of_lt hab) ((List.perm_insertionSort _ rows).trans h)
  intro a b ha hb hab hba
  have ha : a ∈ rows := (List.mem_insertionSort _).1 ha
  have hb : b ∈ rows := h.mem_iff.2 hb
  exact List.inj_on_of_nodup_map h.nodup ha hb (le_antisymm hab hba)

theorem nextIndex (h : Dense rows l) : nextIndex rows = l.length := by
  have hmem : ∀ i, i ∈ indices rows ↔ 0 ≤ i ∧ i < l.length := by
    intro i
    have hperm : (indices rows).Perm (indices (numbered 0 l)) := h.map _
    rw [hperm.mem_iff, mem_indices_numbered, zero_add]
  unfold Indexed.nextIndex
  cases hmax : (indices rows).max? with
  | none =>
    have hnil : indices rows = [] := List.max?_eq_none_iff.1 hmax
    have hlen : ¬ (0 : Int) < l.length := by
      intro hpos
      have := (hmem 0).2 ⟨le_refl 0, hpos⟩
      rw [hnil] at this
      cases this
    dsimp only
    omega
  | some i =>
    obtain ⟨hi, hub⟩ := (List.max?_eq_some_iff).1 hmax
    have hrange := (hmem i).1 hi
    have hlast := hub _ ((hmem (l.length - 1)).2 ⟨by omega, by omega⟩)
    dsimp only
    omega

/-- A row appended at the next index. -/
theorem append (h : Dense rows l) (a : α) : Dense (rows ++ [((l.length : Int), a)]) (l ++ [a]) := by
  unfold Dense
  rw [numbered_append, zero_add]
  exact h.append_right _

/-- The row at `k` deleted, and the gap closed. -/
theorem eraseIdx (h : Dense rows l) {k : Nat}
    (hrows : rows' = ((rows.filter (·.1 ≠ (k : Int))).map
      fun r => (if (k : Int) < r.1 then r.1 + -1 else r.1, r.2))) : Dense rows' (l.eraseIdx k) := by
  have herase := numbered_eraseIdx 0 l k
  simp only [zero_add] at herase
  unfold Dense
  rw [hrows, ← herase]
  exact (h.filter _).map _

/-- The first `k` rows deleted, and the gap closed. -/
theorem drop (h : Dense rows l) {k : Nat}
    (hrows : rows' = (rows.filter ((k : Int) ≤ ·.1)).map fun r => (r.1 + -(k : Int), r.2)) :
    Dense rows' (l.drop k) := by
  have hdrop := numbered_drop 0 l k
  simp only [zero_add] at hdrop
  unfold Dense
  rw [hrows]
  refine ((h.filter _).map _).trans ?_
  rw [hdrop, numbered_add, add_neg_cancel]

/-- The indices of the first `k` rows are those below `k`. -/
theorem mem_lowest (h : Dense rows l) {k : Nat} {r : Int × α} (hr : r ∈ rows) :
    r.1 ∈ indices ((Indexed.ordered rows).take k) ↔ r.1 < k := by
  have hrange := le_of_mem_numbered (h.mem_iff.1 hr)
  rw [h.ordered, numbered_take]
  constructor
  · intro hmem
    obtain ⟨q, hq, heq⟩ := List.mem_map.1 hmem
    have hlt := (le_of_mem_numbered hq).2
    rw [List.length_take] at hlt
    have heq : q.1 = r.1 := heq
    omega
  · intro hlt
    obtain ⟨j, hj, hget⟩ := mem_numbered.1 (h.mem_iff.1 hr)
    refine List.mem_map.2 ⟨r, mem_numbered.2 ⟨j, hj, ?_⟩, rfl⟩
    rw [List.getElem?_take_of_lt (by omega)]
    exact hget

end Dense

/-- Rows under distinct indices, renumbered in their order. -/
theorem renumbered {s : List (Int × α)} (hnd : (indices s).Nodup) (n : Int) :
    s.map (fun r => (target ((numbered n (indices s)).map Prod.swap) r.1, r.2)) =
      numbered n (s.map (·.2)) := by
  induction s generalizing n with
  | nil => rfl
  | cons r s ih =>
    unfold indices at hnd
    rw [List.map_cons, List.nodup_cons] at hnd
    have htail : s.map (fun r' => (target ((numbered n (indices (r :: s))).map Prod.swap) r'.1, r'.2)) =
        s.map fun r' => (target ((numbered (n + 1) (indices s)).map Prod.swap) r'.1, r'.2) := by
      refine List.map_congr_left fun r' hr' => ?_
      have hne : r.1 ≠ r'.1 := fun heq => hnd.1 (List.mem_map.2 ⟨r', hr', heq.symm⟩)
      simp [indices, numbered, target_cons, hne]
    rw [List.map_cons, htail, ih hnd.2]
    simp [indices, numbered, target_cons]

/-- **The two-step renumbering leaves the rows dense, in the order of `s`**: all rows are moved up by an
offset, and then one after the other to its place. -/
theorem Dense.of_renumbering {rows mid rows' s : List (Int × α)} (hs : rows.Perm s)
    (hnd : (indices s).Nodup) {d : Int} (hmid : shift? d (fun _ => true) rows = some mid)
    (h : ((numbered 0 (s.map (·.1 + d))).map Prod.swap).foldlM move? mid = some rows') :
    Dense rows' (s.map (·.2)) := by
  have hrows : (indices rows).Nodup := (hs.map Prod.fst).nodup_iff.2 hnd
  have hmid : mid = rows.map fun r => (r.1 + d, r.2) := by simpa using shift?_eq hrows hmid
  have hperm : mid.Perm (s.map fun r => (r.1 + d, r.2)) := hmid ▸ hs.map _
  have hidx : indices (s.map fun r => (r.1 + d, r.2)) = s.map (·.1 + d) := by
    rw [indices, List.map_map]
    rfl
  have hup : (s.map (·.1 + d)).Nodup := by
    have hinj : Function.Injective fun i : Int => i + d := fun a b hab => by simpa using hab
    have := hnd.map hinj
    rwa [indices, List.map_map] at this
  have hfst : ((numbered 0 (s.map (·.1 + d))).map Prod.swap).map (·.1) = s.map (·.1 + d) := by
    rw [List.map_map]
    exact numbered_values 0 _
  have hupIdx : (indices (s.map fun r => (r.1 + d, r.2))).Nodup := by
    rw [hidx]
    exact hup
  have hmoved := moves_eq ?_ (by rw [hfst]; exact hup) (fun p hp => ?_) h
  · have hren := renumbered hupIdx 0
    rw [hidx] at hren
    unfold Dense
    rw [hmoved]
    refine (hperm.map _).trans (.of_eq ?_)
    rw [hren, List.map_map]
    rfl
  · exact (hperm.map Prod.fst).nodup_iff.2 hupIdx
  · have hp : p.1 ∈ s.map (·.1 + d) := by
      rw [← hfst]
      exact List.mem_map_of_mem hp
    rw [← hidx] at hp
    exact (hperm.map Prod.fst).mem_iff.2 hp

/-- With no flag down, all is kept. -/
theorem Dense.all_kept {l : List α} {marked : List (α × Bool)} (hm : marked.map Prod.fst = l)
    (h : ((((numbered 0 l).zip (marked.map (·.2))).filter fun r => !r.2).map (·.1.1)).isEmpty = true) :
    (marked.filter (·.2)).map (·.1) = l := by
  rw [List.isEmpty_iff, List.map_eq_nil_iff, List.filter_eq_nil_iff] at h
  have hflags : ∀ b ∈ marked.map (·.2), b = true := by
    intro b hb
    have hsnd : ((numbered 0 l).zip (marked.map (·.2))).map Prod.snd = marked.map (·.2) :=
      List.map_snd_zip (by simp [← hm])
    rw [← hsnd] at hb
    obtain ⟨r, hr, rfl⟩ := List.mem_map.1 hb
    simpa using h r hr
  rw [List.filter_eq_self.2 fun r hr => hflags r.2 (List.mem_map_of_mem hr)]
  exact hm

/-- **Rows deleted where the flag is down, and the others renumbered.** -/
theorem Dense.of_selection {rows mid rows' : List (Int × α)} {l : List α} (hrows : Dense rows l)
    {marked : List (α × Bool)} (hm : marked.map Prod.fst = l) {d : Int}
    {keep : List ((Int × α) × Bool)} (hkeep : keep = (numbered 0 l).zip (marked.map (·.2)))
    (hmid : shift? d (fun _ => true) (((keep.filter fun r => !r.2).map (·.1.1)).foldl deleteAt rows) =
      some mid)
    (h : ((numbered 0 ((keep.filter (·.2)).map (·.1.1 + d))).map Prod.swap).foldlM move? mid =
      some rows') : Dense rows' ((marked.filter (·.2)).map (·.1)) := by
  have hlen : marked.length = l.length := by simpa using congrArg List.length hm
  have hrow : keep.map (·.1) = numbered 0 l := by
    rw [hkeep]
    exact List.map_fst_zip (by simp [hlen])
  have hvalues : keep.map (fun r => (r.1.2, r.2)) = marked := by
    rw [hkeep]
    have hzip : marked = l.zip (marked.map Prod.snd) := List.zip_of_prod hm rfl
    have hmap : ((numbered 0 l).map Prod.snd).zip (marked.map Prod.snd) =
        ((numbered 0 l).zip (marked.map Prod.snd)).map (Prod.map Prod.snd id) := List.zip_map_left
    rw [show (numbered 0 l).map Prod.snd = l from numbered_values 0 l, ← hzip] at hmap
    exact hmap.symm
  have hkept : (marked.filter (·.2)).map (·.1) = (keep.filter (·.2)).map (·.1.2) := by
    rw [← hvalues, List.filter_map, List.map_map]
    rfl
  have hnd : (keep.map (·.1.1)).Nodup := by
    have := numbered_nodup 0 l
    rw [indices, ← hrow, List.map_map] at this
    exact this
  rw [foldl_deleteAt] at hmid
  generalize htoDelete : (keep.filter fun r => !r.2).map (fun r => r.1.1) = toDelete at hmid
  -- the rows left by the deletion, in the order of the index
  have hsurvivors : (rows.filter (·.1 ∉ toDelete)).Perm ((keep.filter (·.2)).map (·.1)) := by
    refine (hrows.filter _).trans (.of_eq ?_)
    rw [← hrow, List.filter_map]
    congr 1
    refine List.filter_congr fun r hr => ?_
    rw [← htoDelete]
    cases hflag : r.2 with
    | true =>
      simp only [Function.comp_apply, decide_eq_true_eq, List.mem_map, not_exists, not_and]
      intro q hq heq
      obtain ⟨hq, hqflag⟩ := List.mem_filter.1 hq
      obtain rfl := List.inj_on_of_nodup_map hnd hq hr heq
      simp [hflag] at hqflag
    | false =>
      simp only [Function.comp_apply, decide_eq_false_iff_not, not_not]
      exact List.mem_map.2 ⟨r, List.mem_filter.2 ⟨hr, by simp [hflag]⟩, rfl⟩
  rw [hkept]
  have hdense : Dense rows' (((keep.filter (·.2)).map (·.1)).map (·.2)) := by
    refine .of_renumbering hsurvivors ?_ hmid ?_
    · rw [indices, List.map_map]
      exact hnd.sublist (List.filter_sublist.map _)
    · rw [List.map_map]
      exact h
  rw [List.map_map] at hdense
  exact hdense

end Indexed

end KeysCore.Lib
