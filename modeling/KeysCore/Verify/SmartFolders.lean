import KeysCore.Lib.Run
import KeysCore.SmartFolders
import KeysCore.Verify.PredicateJson

/-!
# Smart folders that read back

The text of a predicate reads back when the parser goes as deep as it is nested and each of its nodes
survives: the writer drops what is below a second, makes `null` of a float that is not finite, and leaves
an unknown node as it is (`readPredicate_iff`). A folder with any other predicate is accepted, and is not
read back or breaks the listing (`written_folder_reads_back_iff`).
-/

namespace KeysCore

/-! ## Nesting -/

mutual

/-- How deep the document of a predicate is nested. -/
def Predicate.nesting : Predicate → Nat
  | .and ps | .or ps => nestingAll ps + 2
  | .not p => p.nesting + 1
  | .tagHasAny _ | .tagHasAll _ => 2
  | .unknown raw => raw.depth
  | _ => 1

def nestingAll : List Predicate → Nat
  | [] => 0
  | p :: ps => max p.nesting (nestingAll ps)

end

end KeysCore

namespace KeysCore.Verify

open Lib

section Nesting

variable {U : UuidLib}

theorem depth_tagged (tag name : String) (value : Json) : (tagged tag name value).depth = value.depth + 1 := by
  unfold tagged
  split_ifs <;> simp [Json.depth, Json.depthMembers]

theorem depth_writeStrings (tags : List String) : (writeStrings tags).depth = 1 := by
  have h : Json.depthAll (tags.map Json.string) = 0 := by
    induction tags with
    | nil => rfl
    | cons tag tags ih => simp [Json.depthAll, Json.depth, ih]
  simp [writeStrings, Json.depth, h]

theorem depthAll_encode {ps : List Predicate} (h : ∀ p ∈ ps, (encode U p).depth = p.nesting) :
    Json.depthAll (ps.map (encode U)) = nestingAll ps := by
  induction ps with
  | nil => rfl
  | cons p ps ih =>
    rw [List.map_cons, Json.depthAll, nestingAll, h p List.mem_cons_self,
      ih fun q hq => h q (List.mem_cons_of_mem _ hq)]

theorem depth_writeF64 (bits : SqlReal) : (writeF64 bits).depth = 0 := by
  unfold writeF64
  split <;> rfl

theorem depth_encode (p : Predicate) : (encode U p).depth = p.nesting := by
  induction p using known_induction with
  | hunknown raw => rw [encode, Predicate.nesting]
  | hknown k ih =>
    rw [encode_into]
    cases k with
    | and ps | or ps =>
      have hps : Json.depthAll (ps.map (encode U)) = nestingAll ps := depthAll_encode ih
      simp only [KnownPredicate.map, writeKnown, depth_tagged, KnownPredicate.into, Predicate.nesting,
        Json.depth, hps]
    | not p =>
      simp only [KnownPredicate.map, writeKnown, depth_tagged, KnownPredicate.into, Predicate.nesting]
      rw [ih p (List.mem_singleton_self p)]
    | expired | duplicates => rfl
    | tagHasAny tags | tagHasAll tags =>
      simp only [KnownPredicate.map, writeKnown, depth_tagged, KnownPredicate.into, Predicate.nesting,
        depth_writeStrings]
    | entropyBelow bits =>
      simp only [KnownPredicate.map, writeKnown, depth_tagged, KnownPredicate.into, Predicate.nesting,
        depth_writeF64]
    | _ => exact depth_tagged _ _ _

end Nesting

/-! ## Floats -/

/-- A threshold as it is reread. -/
def KnownPredicate.reread {α : Type} (f : ℚ → ℚ) : KnownPredicate α → KnownPredicate α
  | .entropyBelow (some (some r)) => .entropyBelow (some (some (f r)))
  | known => known

/-- A node that reads back from its text: a duration of whole seconds, a finite threshold that is reread
as it was written, and an object of an unknown type with such floats. -/
def NodeStorable (f : ℚ → ℚ) : Predicate → Prop
  | .modifiedWithin duration => WholeSecs duration
  | .expiringWithin duration => WholeSecs duration
  | .entropyBelow bits => ∃ r : ℚ, bits = (r : SqlReal) ∧ f r = r
  | .unknown raw => isUnknownTypeError raw = true ∧ raw.mapFractions f = raw
  | _ => True

section Floats

variable {U : UuidLib} {f : ℚ → ℚ}

theorem mapFractions_tagged (tag name : String) (value : Json) :
    (tagged tag name value).mapFractions f = tagged tag name (value.mapFractions f) := by
  unfold tagged
  split_ifs <;> simp [Json.mapFractions, Json.mapMembers]

theorem mapFractions_writeStrings (tags : List String) :
    (writeStrings tags).mapFractions f = writeStrings tags := by
  rw [writeStrings, Json.mapFractions, Json.mapAll_eq, List.map_map]
  rfl

theorem mapFractions_writeI64 (i : I64) : (writeI64 i).mapFractions f = writeI64 i := by
  unfold writeI64
  split_ifs <;> rfl

/-- The document of a node, its floats reread. -/
theorem mapFractions_writeKnown (k : KnownPredicate Json) : (writeKnown U k).mapFractions f =
    writeKnown U (KnownPredicate.reread f (KnownPredicate.map (Json.mapFractions f) k)) := by
  cases k with
  | and ps | or ps =>
    simp only [writeKnown, mapFractions_tagged, KnownPredicate.map, KnownPredicate.reread, Json.mapFractions,
      Json.mapAll_eq]
  | tagHasAny tags | tagHasAll tags =>
    simp only [writeKnown, mapFractions_tagged, KnownPredicate.map, KnownPredicate.reread,
      mapFractions_writeStrings]
  | modifiedBefore t =>
    simp only [writeKnown, mapFractions_tagged, KnownPredicate.map, KnownPredicate.reread,
      mapFractions_writeI64]
  | expired | duplicates => rfl
  | entropyBelow bits =>
    rcases bits with _ | _ | r <;> exact mapFractions_tagged _ _ _
  | _ => exact mapFractions_tagged _ _ _

theorem codable_reread {α : Type} {k : KnownPredicate α} (h : KnownPredicate.Codable k) :
    KnownPredicate.Codable (KnownPredicate.reread f k) := by
  cases k with
  | entropyBelow bits =>
    obtain ⟨r, rfl⟩ := h
    exact ⟨f r, rfl⟩
  | _ => exact h

theorem reread_map {α β : Type} {g : α → β} {k : KnownPredicate α} :
    KnownPredicate.reread f (KnownPredicate.map g k) = KnownPredicate.map g (KnownPredicate.reread f k) := by
  cases k with
  | entropyBelow bits => rcases bits with _ | _ | r <;> rfl
  | _ => rfl

theorem nodeStorable_into {k : KnownPredicate Predicate} :
    NodeStorable f k.into ↔ KnownPredicate.Codable k ∧ KnownPredicate.reread f k = k := by
  cases k with
  | entropyBelow bits =>
    constructor
    · rintro ⟨r, rfl, hr⟩
      refine ⟨⟨r, rfl⟩, ?_⟩
      have h : KnownPredicate.reread f (.entropyBelow (r : SqlReal)) =
        (.entropyBelow ((f r : ℚ) : SqlReal) : KnownPredicate Predicate) := rfl
      rw [h, hr]
    · rintro ⟨⟨r, rfl⟩, hr⟩
      refine ⟨r, rfl, ?_⟩
      exact Option.some.inj (Option.some.inj (KnownPredicate.entropyBelow.inj hr))
  | _ => exact (and_iff_left rfl).symm

/-- What a node with its floats reread is traversed to. -/
theorem traverse_reread {α β : Type} {g : β → α} {h : α → Except DecodeError β} {k : KnownPredicate β}
    (hk : (KnownPredicate.reread f (KnownPredicate.map g k)).traverse h = .ok k) :
    KnownPredicate.reread f k = k ∧ ∀ q ∈ KnownPredicate.children k, h (g q) = .ok q := by
  cases k with
  | and ps | or ps =>
    obtain ⟨qs, hqs, hk⟩ := except_bind_ok.1 hk
    cases hk
    refine ⟨rfl, fun q hq => ?_⟩
    have hall := mapM_ok_iff.1 hqs
    rw [List.forall₂_map_left_iff, List.forall₂_same] at hall
    exact hall q hq
  | not p =>
    obtain ⟨q, hq, hk⟩ := except_bind_ok.1 hk
    cases hk
    exact ⟨rfl, List.forall_mem_singleton.2 hq⟩
  | entropyBelow bits =>
    refine ⟨?_, nofun⟩
    rcases bits with _ | _ | r
    · rfl
    · rfl
    · have hbits := KnownPredicate.entropyBelow.inj (Except.ok.inj hk)
      exact congrArg _ hbits
  | _ => exact ⟨rfl, nofun⟩

/-- **One node of a predicate that is written, reread and decoded.** -/
theorem decode_reread_node (hU : UuidLib.Lawful U) {k : KnownPredicate Predicate} :
    decode U ((encode U k.into).mapFractions f) = .ok k.into ↔
      NodeStorable f k.into ∧
        ∀ q ∈ KnownPredicate.children k, decode U ((encode U q).mapFractions f) = .ok q := by
  have hdoc : (encode U k.into).mapFractions f = writeKnown U
      (KnownPredicate.reread f (KnownPredicate.map (fun q => (encode U q).mapFractions f) k)) := by
    rw [encode_into, mapFractions_writeKnown, map_map]
  rw [hdoc, nodeStorable_into]
  constructor
  · intro h
    have hcodable := nodeKept_into.1 (nodeKept_of_decode h)
    have hread := readKnown_writeKnown hU
      (codable_reread (f := f) (codable_map.2 hcodable : KnownPredicate.Codable
        (KnownPredicate.map (fun q => (encode U q).mapFractions f) k)))
    rcases decode_eq_ok.1 h with ⟨k₀, k', hk₀, hk', hinto⟩ | ⟨-, hunknown⟩
    · rw [hread] at hk₀
      obtain rfl := Except.ok.inj hk₀
      obtain rfl := into_inj hinto
      obtain ⟨hfixed, hchildren⟩ := traverse_reread hk'
      exact ⟨⟨hcodable, hfixed⟩, hchildren⟩
    · exact absurd hunknown (into_ne_unknown k _)
  · rintro ⟨⟨hcodable, hfixed⟩, hchildren⟩
    rw [reread_map, hfixed]
    exact decode_eq_ok.2 (.inl ⟨_, k, readKnown_writeKnown hU (codable_map.2 hcodable),
      traverse_map hchildren, rfl⟩)

/-- **The predicates that read back.** -/
theorem decode_reread_iff (hU : UuidLib.Lawful U) {p : Predicate} :
    decode U ((encode U p).mapFractions f) = .ok p ↔
      ∀ path q, predicateAt path p = some q → NodeStorable f q := by
  induction p using known_induction with
  | hunknown raw =>
    rw [encode, decode_eq_unknown]
    unfold predicateAt
    rw [forall_descend_iff]
    constructor
    · rintro ⟨hfixed, htype⟩
      exact ⟨⟨htype, hfixed⟩, fun q hq => absurd hq List.not_mem_nil⟩
    · rintro ⟨⟨htype, hfixed⟩, -⟩
      exact ⟨hfixed, htype⟩
  | hknown k ih =>
    unfold predicateAt at ih ⊢
    rw [decode_reread_node hU, forall_descend_iff, nestedPredicates_into]
    exact and_congr_right fun _ => forall₂_congr ih

end Floats

/-! ## The table -/

section Store

variable {Text : Type} {J : JsonText Text} {U : UuidLib}

/-- A predicate the parser goes through whose nodes all read back. -/
def Storable (J : JsonText Text) (p : Predicate) : Prop :=
  p.nesting ≤ J.limit ∧ ∀ path q, predicateAt path p = some q → NodeStorable J.reread q

/-- **The predicates whose text reads back.** -/
theorem readPredicate_iff (hJ : J.Lawful) (hU : UuidLib.Lawful U) {p : Predicate} :
    readPredicate J U (J.write (encode U p)) = some p ↔ Storable J p := by
  unfold readPredicate Storable
  rw [← depth_encode (U := U), ← decode_reread_iff hU]
  by_cases h : (encode U p).depth ≤ J.limit
  · rw [hJ.parse_write _ h, Option.bind_some, and_iff_right h]
    cases decode U ((encode U p).mapFractions J.reread) <;> simp [Except.toOption]
  · rw [hJ.parse_deep _ (by omega), Option.bind_none]
    simp [h]

/-- A row that reads. -/
def RowReads (J : JsonText Text) (U : UuidLib) (row : SmartFolderRow Text) : Prop :=
  ∃ folder, rowToSmartFolder J U row = .ok folder

theorem rowToSmartFolder_ok {row : SmartFolderRow Text} {folder : SmartFolder}
    (h : rowToSmartFolder J U row = .ok folder) : folder.id = row.id ∧ folder.name = row.name ∧
      readPredicate J U row.predicateJson = some folder.predicate := by
  unfold rowToSmartFolder at h
  split at h
  · cases h
  · rename_i predicate hpredicate
    obtain rfl := Except.ok.inj h
    exact ⟨rfl, rfl, hpredicate⟩

theorem reads_iff {row : SmartFolderRow Text} :
    RowReads J U row ↔ ∃ p, readPredicate J U row.predicateJson = some p := by
  constructor
  · rintro ⟨folder, h⟩
    exact ⟨_, (rowToSmartFolder_ok h).2.2⟩
  · rintro ⟨p, h⟩
    unfold RowReads rowToSmartFolder
    rw [h]
    exact ⟨_, rfl⟩

theorem getOne_eq_some {S : SmartFolderTable Text} {id : Int} {folder : SmartFolder} :
    S.getOne J U id = .ok (some folder) ↔
      ∃ row, S.rows.find? id = some row ∧ rowToSmartFolder J U row = .ok folder := by
  unfold SmartFolderTable.getOne
  cases S.rows.find? id with
  | none => simp
  | some row => simp [except_map_ok]

theorem listAll_mem {S : SmartFolderTable Text} {folders : List SmartFolder}
    (h : S.listAll J U = .ok folders) (folder : SmartFolder) :
    folder ∈ folders ↔ S.getOne J U folder.id = .ok (some folder) := by
  rw [getOne_eq_some]
  constructor
  · intro hfolder
    obtain ⟨row, hrow, hok⟩ := (mem_of_mapM_ok h).2 folder hfolder
    have hmem : row ∈ S.rows.rows := (List.mem_insertionSort _).1 hrow
    exact ⟨row, by rw [(rowToSmartFolder_ok hok).1]; exact Table.find?_of_mem hmem, hok⟩
  · rintro ⟨row, hrow, hok⟩
    obtain ⟨folder', hfolder', hok'⟩ :=
      (mem_of_mapM_ok h).1 row ((List.mem_insertionSort _).2 (Table.find?_mem hrow))
    rw [hok] at hok'
    obtain rfl := Except.ok.inj hok'
    exact hfolder'

/-- A listing is in the order of the ids. -/
theorem listAll_sorted {S : SmartFolderTable Text} {folders : List SmartFolder}
    (h : S.listAll J U = .ok folders) : (folders.map (·.id)).Pairwise (· < ·) := by
  have hids : ∀ (rows : List (SmartFolderRow Text)) (folders : List SmartFolder),
      List.Forall₂ (fun row folder => rowToSmartFolder J U row = .ok folder) rows folders →
        folders.map (·.id) = rows.map (·.id) := by
    intro rows folders h
    induction h with
    | nil => rfl
    | cons hok _ ih => rw [List.map_cons, List.map_cons, ih, (rowToSmartFolder_ok hok).1]
  rw [hids _ _ (mapM_ok_iff.1 h)]
  have hsorted : ((S.rows.rows.insertionSort fun a b => a.id ≤ b.id).map (·.id)).Pairwise (· ≤ ·) := by
    have htotal : Std.Total fun a b : SmartFolderRow Text => a.id ≤ b.id := ⟨fun a b => le_total _ _⟩
    have htrans : IsTrans (SmartFolderRow Text) fun a b => a.id ≤ b.id := ⟨fun _ _ _ => le_trans⟩
    exact List.pairwise_map.2 (List.pairwise_insertionSort _ _)
  have hnodup : ((S.rows.rows.insertionSort fun a b => a.id ≤ b.id).map (·.id)).Nodup :=
    ((List.perm_insertionSort _ _).map _).nodup_iff.2 S.rows.nodup
  exact hsorted.imp₂ (fun _ _ hle hne => lt_of_le_of_ne hle hne) hnodup

/-- A listing succeeds when every row reads. -/
theorem listAll_ok_iff {S : SmartFolderTable Text} :
    (∃ folders, S.listAll J U = .ok folders) ↔ ∀ row ∈ S.rows.rows, RowReads J U row := by
  constructor
  · rintro ⟨folders, h⟩ row hrow
    obtain ⟨folder, -, hok⟩ := (mem_of_mapM_ok h).1 row ((List.mem_insertionSort _).2 hrow)
    exact ⟨folder, hok⟩
  · intro h
    exact mapM_total fun row hrow => h row ((List.mem_insertionSort _).1 hrow)

/-- The row of one folder is written, and no other. -/
structure Written (J : JsonText Text) (U : UuidLib) (S S' : SmartFolderTable Text) (id : Int)
    (name : String) (p : Predicate) : Prop where
  row : ∃ row, S'.rows.find? id = some row ∧ row.name = name ∧
    row.predicateJson = J.write (encode U p) ∧ row.evaluable = p.isEvaluable.toInt
  others : ∀ other, other ≠ id → S'.rows.find? other = S.rows.find? other

theorem create_written {S S' : SmartFolderTable Text} {name : String} {p : Predicate} {now id : Int}
    (h : S.create J U name p now = .ok (S', id)) : Written J U S S' id name p := by
  unfold SmartFolderTable.create at h
  split_ifs at h with hfull
  split at h
  · cases h
  · rename_i rows hrows
    obtain ⟨rfl, rfl⟩ := Prod.mk.inj (Except.ok.inj h)
    have hfind := Table.find?_insert hrows
    refine ⟨⟨_, by rw [hfind, if_pos rfl], rfl, rfl, rfl⟩, fun other hne => ?_⟩
    rw [hfind, if_neg (Ne.symm hne)]

theorem update_written {S S' : SmartFolderTable Text} {name : String} {p : Predicate} {now id : Int}
    (h : S.update J U id name p now = .ok S') : Written J U S S' id name p := by
  unfold SmartFolderTable.update at h
  split_ifs at h with hid
  obtain rfl := Except.ok.inj h
  obtain ⟨row, hrow⟩ := Table.exists_find?.2 hid
  refine ⟨⟨_, by rw [Table.find?_modify, if_pos rfl, hrow, Option.map_some], rfl, rfl, rfl⟩,
    fun other hne => ?_⟩
  rw [Table.find?_modify, if_neg hne]

/-- A folder reads back as it was written: the others are read as before, and the listing succeeds and
has the folders that are read one by one, in the order of their ids. -/
structure ReadsBack (J : JsonText Text) (U : UuidLib) (S S' : SmartFolderTable Text) (id : Int)
    (name : String) (p : Predicate) : Prop where
  getOne : ∃ folder, S'.getOne J U id = .ok (some folder) ∧ folder.name = name ∧ folder.predicate = p
  others : ∀ other, other ≠ id → S'.getOne J U other = S.getOne J U other
  listAll : ∃ folders, S'.listAll J U = .ok folders ∧ (folders.map (·.id)).Pairwise (· < ·) ∧
    ∀ folder, folder ∈ folders ↔ S'.getOne J U folder.id = .ok (some folder)

theorem Written.getOne_others {S S' : SmartFolderTable Text} {id : Int} {name : String} {p : Predicate}
    (h : Written J U S S' id name p) {other : Int} (hne : other ≠ id) :
    S'.getOne J U other = S.getOne J U other := by
  unfold SmartFolderTable.getOne
  rw [h.others other hne]

/-- The rows after a write read when the predicate is storable and the others read. -/
theorem Written.reads (hJ : J.Lawful) (hU : UuidLib.Lawful U) {S S' : SmartFolderTable Text} {id : Int}
    {name : String} {p : Predicate} (h : Written J U S S' id name p) (hp : Storable J p)
    (hothers : ∀ row ∈ S.rows.rows, row.id ≠ id → RowReads J U row) :
    ∀ row ∈ S'.rows.rows, RowReads J U row := by
  intro row hrow
  have hfind := Table.find?_of_mem hrow
  by_cases hid : row.id = id
  · obtain ⟨new, hnew, -, hjson, -⟩ := h.row
    rw [hid, hnew] at hfind
    obtain rfl := Option.some.inj hfind
    exact reads_iff.2 ⟨p, by rw [hjson]; exact (readPredicate_iff hJ hU).2 hp⟩
  · rw [h.others _ hid] at hfind
    exact hothers row (Table.find?_mem hfind) hid

/-- **When a written folder reads back.** -/
theorem Written.readsBack_iff (hJ : J.Lawful) (hU : UuidLib.Lawful U) {S S' : SmartFolderTable Text}
    {id : Int} {name : String} {p : Predicate} (h : Written J U S S' id name p) :
    ReadsBack J U S S' id name p ↔
      Storable J p ∧ ∀ row ∈ S.rows.rows, row.id ≠ id → RowReads J U row := by
  obtain ⟨new, hnew, hname, hjson, -⟩ := h.row
  constructor
  · intro hback
    obtain ⟨folder, hfolder, -, rfl⟩ := hback.getOne
    obtain ⟨row, hrow, hok⟩ := getOne_eq_some.1 hfolder
    rw [hnew] at hrow
    obtain rfl := Option.some.inj hrow
    refine ⟨(readPredicate_iff hJ hU).1 (hjson ▸ (rowToSmartFolder_ok hok).2.2), fun row hrow hne => ?_⟩
    obtain ⟨folders, hfolders, -, -⟩ := hback.listAll
    have hfind := (h.others _ hne).trans (Table.find?_of_mem hrow)
    exact listAll_ok_iff.1 ⟨folders, hfolders⟩ row (Table.find?_mem hfind)
  · rintro ⟨hp, hothers⟩
    have hreads := h.reads hJ hU hp hothers
    obtain ⟨folder, hok⟩ := hreads new (Table.find?_mem hnew)
    obtain ⟨hid, hname', hpredicate⟩ := rowToSmartFolder_ok hok
    rw [hjson, (readPredicate_iff hJ hU).2 hp] at hpredicate
    obtain ⟨folders, hfolders⟩ := listAll_ok_iff.2 hreads
    refine ⟨⟨folder, getOne_eq_some.2 ⟨new, hnew, hok⟩, hname'.trans hname, ?_⟩, fun other hne =>
      h.getOne_others hne, ⟨folders, hfolders, listAll_sorted hfolders, listAll_mem hfolders⟩⟩
    exact (Option.some.inj hpredicate).symm

/-- A folder whose text does not read makes the listing fail. -/
theorem Written.not_listed {S S' : SmartFolderTable Text} {id : Int} {name : String} {p : Predicate}
    (h : Written J U S S' id name p) (hp : readPredicate J U (J.write (encode U p)) = none) :
    ∀ folders, S'.listAll J U ≠ .ok folders := by
  intro folders hfolders
  obtain ⟨new, hnew, -, hjson, -⟩ := h.row
  obtain ⟨q, hq⟩ := reads_iff.1 (listAll_ok_iff.1 ⟨folders, hfolders⟩ new (Table.find?_mem hnew))
  rw [hjson, hp] at hq
  cases hq

/-! ## Runs -/

/-- A call that writes nothing but storable predicates leaves rows that read. -/
theorem run_reads (hJ : J.Lawful) (hU : UuidLib.Lawful U) {S S' : SmartFolderTable Text}
    {call : SmartFolderCall} (hreads : ∀ row ∈ S.rows.rows, RowReads J U row)
    (hp : ∀ p, call.predicate? = some p → Storable J p) (h : S.run J U call = .ok S') :
    ∀ row ∈ S'.rows.rows, RowReads J U row := by
  cases call with
  | create name p now =>
    obtain ⟨⟨T, id⟩, hcreate, rfl⟩ := except_map_ok.1 h
    exact (create_written hcreate).reads hJ hU (hp p rfl) fun row hrow _ => hreads row hrow
  | update id name p now =>
    exact (update_written h).reads hJ hU (hp p rfl) fun row hrow _ => hreads row hrow
  | delete id =>
    simp only [SmartFolderTable.run, SmartFolderTable.delete] at h
    split_ifs at h
    obtain rfl := Except.ok.inj h
    exact fun row hrow => hreads row (Table.mem_delete.1 hrow).1

/-- **Which folders read back.** A folder that `create` or `update` wrote reads back, the others as
before, when its predicate is storable and the rows of the others read. A listing that succeeds still does
after any run of calls that write storable predicates. -/
theorem written_folder_reads_back_iff (hJ : J.Lawful) (hU : UuidLib.Lawful U) :
    (∀ S name p now S' id, S.create J U name p now = .ok (S', id) →
      (ReadsBack J U S S' id name p ↔
        Storable J p ∧ ∀ row ∈ S.rows.rows, row.id ≠ id → RowReads J U row)) ∧
    (∀ S id name p now S', S.update J U id name p now = .ok S' →
      (ReadsBack J U S S' id name p ↔
        Storable J p ∧ ∀ row ∈ S.rows.rows, row.id ≠ id → RowReads J U row)) ∧
    ∀ S S', (∃ folders, S.listAll J U = .ok folders) →
      Lib.Run (SmartFolderTable.run J U) (fun _ call => ∀ p, call.predicate? = some p → Storable J p) S S' →
      ∃ folders, S'.listAll J U = .ok folders := by
  refine ⟨fun S name p now S' id h => (create_written h).readsBack_iff hJ hU,
    fun S id name p now S' h => (update_written h).readsBack_iff hJ hU, fun S S' hlist hrun => ?_⟩
  rw [listAll_ok_iff] at hlist ⊢
  exact hrun.invariant hlist fun _ _ _ hreads hp h => run_reads hJ hU hreads hp h

end Store

/-! ## Folders that do not read back -/

/-- Documents for their texts, with the depth the parser goes to. -/
def jsonDocuments : JsonText Json where
  write := id
  parse j := if j.depth ≤ 127 then some (j.mapFractions id) else none
  limit := 127
  reread := id

theorem jsonDocuments_lawful : jsonDocuments.Lawful where
  parse_write _ h := if_pos h
  parse_deep _ h := if_neg (Nat.not_le.2 h)

def noFolders : SmartFolderTable Json := ⟨.empty, 0⟩

theorem written_folder_reads_back_expired :
    ∃ S', noFolders.create jsonDocuments decimalUuids "Expired" .expired 0 = .ok (S', 1) ∧
      ReadsBack jsonDocuments decimalUuids noFolders S' 1 "Expired" .expired := by
  refine ⟨_, rfl, ((written_folder_reads_back_iff jsonDocuments_lawful decimalUuids_lawful).1 noFolders
    "Expired" .expired 0 _ 1 rfl).2 ⟨⟨by decide, ?_⟩, nofun⟩⟩
  exact forall_descend_iff.2 ⟨trivial, nofun⟩

/-- `create` accepts a threshold that is not finite, and a predicate nested deeper than the parser goes,
and the listing fails; and of a duration it keeps the whole seconds. -/
theorem created_folders_do_not_read_back :
    (∃ S', noFolders.create jsonDocuments decimalUuids "Weak" (.entropyBelow ⊤) 0 = .ok (S', 1) ∧
      ∀ folders, S'.listAll jsonDocuments decimalUuids ≠ .ok folders) ∧
    (∃ S', noFolders.create jsonDocuments decimalUuids "Deep" (Predicate.not^[127] .expired) 0 = .ok (S', 1) ∧
      ∀ folders, S'.listAll jsonDocuments decimalUuids ≠ .ok folders) ∧
    ∃ S' folder, noFolders.create jsonDocuments decimalUuids "Recent" (.modifiedWithin ⟨1500000000⟩) 0 =
        .ok (S', 1) ∧
      S'.getOne jsonDocuments decimalUuids 1 = .ok (some folder) ∧
      folder.predicate = .modifiedWithin ⟨1000000000⟩ := by
  have hdeep : readPredicate jsonDocuments decimalUuids
      (jsonDocuments.write (encode decimalUuids (Predicate.not^[127] .expired))) = none := by
    unfold readPredicate
    rw [jsonDocuments_lawful.parse_deep _ (by rw [depth_encode]; decide +kernel), Option.bind_none]
  obtain ⟨weak, hweak⟩ : ∃ S', noFolders.create jsonDocuments decimalUuids "Weak" (.entropyBelow ⊤) 0 =
    .ok (S', 1) := ⟨_, rfl⟩
  obtain ⟨deep, hdeep'⟩ : ∃ S', noFolders.create jsonDocuments decimalUuids "Deep"
    (Predicate.not^[127] .expired) 0 = .ok (S', 1) := ⟨_, rfl⟩
  exact ⟨⟨weak, hweak, (create_written hweak).not_listed rfl⟩,
    ⟨deep, hdeep', (create_written hdeep').not_listed hdeep⟩, ⟨_, _, rfl, rfl, rfl⟩⟩

end KeysCore.Verify
