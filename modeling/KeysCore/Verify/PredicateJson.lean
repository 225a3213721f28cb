import KeysCore.Lib.Descend
import KeysCore.Lib.Except
import KeysCore.PredicateJson

/-!
# What the tolerant codec keeps

A document and the predicate read from it have the same shape: a node of a known type reads to a known
predicate whose nested predicates are its nested documents read, and an object of another type is kept as
it is (`decode_eq_ok`). By the path to a node, what the codec keeps and refuses follows
(`predicate_codec`).
-/

namespace KeysCore.Verify

open Lib

/-- The text of a uuid parses to the uuid. -/
def UuidLib.Lawful (U : UuidLib) : Prop := ∀ u, U.fromStr (U.display u) = some u

/-- A duration of whole seconds, as many as 64 bits hold. -/
def WholeSecs (d : Duration) : Prop := d.nanos % 1000000000 = 0 ∧ d.nanos / 1000000000 < 2 ^ 64

/-- The fields of a node survive the way to JSON and back. -/
def KnownPredicate.Codable {α : Type} : KnownPredicate α → Prop
  | .modifiedWithin duration => WholeSecs duration
  | .expiringWithin duration => WholeSecs duration
  | .entropyBelow bits => ∃ r : ℚ, bits = (r : SqlReal)
  | _ => True

/-! ## Fields -/

section Fields

variable {U : UuidLib}

theorem readTag_tagged {tag name : String} {value : Json} (h : name ≠ "type") :
    readTag (tagged tag name value) = .ok (tag, .map [(name, value)]) := by
  unfold tagged
  split_ifs <;> simp [readTag, Json.member, h]

theorem field_map (name : String) (value : Json) : (Content.map [(name, value)]).field name = .ok value := by
  simp [Content.field, Json.member]

theorem readStrings_writeStrings (tags : List String) : readStrings (writeStrings tags) = .ok tags := by
  have h : ∀ tags : List String, (tags.map Json.string).mapM readString = .ok tags := by
    intro tags
    induction tags with
    | nil => rfl
    | cons tag tags ih =>
      rw [List.map_cons, List.mapM_cons, ih]
      rfl
  exact h tags

theorem readDuration_writeDuration {d : Duration} (h : WholeSecs d) :
    readDuration (writeDuration d) = .ok d := by
  obtain ⟨hwhole, hlt⟩ := h
  have hsecs : (UInt64.ofNat (d.nanos / 1000000000)).toNat * 1000000000 = d.nanos := by
    rw [UInt64.toNat_ofNat', Nat.mod_eq_of_lt hlt]
    omega
  unfold readDuration writeDuration
  simp only [hsecs]

theorem readI64_writeI64 (i : I64) : readI64 (writeI64 i) = .ok i := by
  obtain ⟨i, hmin, hmax⟩ := i
  unfold writeI64
  by_cases h : 0 ≤ i
  · have hn : ((UInt64.ofNat i.toNat).toNat : Int) = i := by
      have hlt : i.toNat < 2 ^ 64 := by
        unfold maxI64 at hmax
        omega
      rw [UInt64.toNat_ofNat', Nat.mod_eq_of_lt hlt]
      omega
    simp only [h, if_true, readI64, hn]
    rw [dif_pos ⟨hmin, hmax⟩]
  · simp only [h, if_false, readI64]
    rw [dif_pos ⟨hmin, hmax⟩]

theorem readF64_writeF64 (r : ℚ) : readF64 (writeF64 (r : SqlReal)) = .ok (r : SqlReal) := rfl

theorem readBucket_tag (bucket : StrengthBucket) : readBucket (.string bucket.tag) = .ok bucket := by
  cases bucket <;> rfl

theorem readUuid_display (hU : UuidLib.Lawful U) (uuid : Uuid) :
    readUuid U (.string (U.display uuid)) = .ok uuid := by
  simp [readUuid, readString, bind, Except.bind, hU uuid]

/-- A node is read back, its nested documents as they were. -/
theorem readKnown_writeKnown (hU : UuidLib.Lawful U) {k : KnownPredicate Json}
    (hk : KnownPredicate.Codable k) : readKnown U (writeKnown U k) = .ok k := by
  cases k with
  | and ps | or ps =>
    simp [readKnown, writeKnown, readTag_tagged, field_map, readSeq, bind, Except.bind, pure, Except.pure]
  | not p => simp [readKnown, writeKnown, readTag_tagged, field_map, bind, Except.bind, pure, Except.pure]
  | titleContains s | urlContains s | usernameContains s | urlHostEquals s | tagEquals s =>
    simp [readKnown, writeKnown, readTag_tagged, field_map, readString, bind, Except.bind, pure, Except.pure]
  | tagHasAny tags | tagHasAll tags =>
    simp [readKnown, writeKnown, readTag_tagged, field_map, readStrings_writeStrings, bind, Except.bind,
      pure, Except.pure]
  | modifiedWithin d | expiringWithin d =>
    simp [readKnown, writeKnown, readTag_tagged, field_map, readDuration_writeDuration hk, bind,
      Except.bind, pure, Except.pure]
  | modifiedBefore t =>
    simp [readKnown, writeKnown, readTag_tagged, field_map, readI64_writeI64, bind, Except.bind, pure,
      Except.pure]
  | expired | duplicates => rfl
  | strengthBelow bucket =>
    simp [readKnown, writeKnown, readTag_tagged, field_map, readBucket_tag, bind, Except.bind, pure,
      Except.pure]
  | entropyBelow bits =>
    obtain ⟨r, rfl⟩ := hk
    simp [readKnown, writeKnown, readTag_tagged, field_map, readF64_writeF64, bind, Except.bind, pure,
      Except.pure]
  | group uuid =>
    simp [readKnown, writeKnown, readTag_tagged, field_map, readUuid_display hU, bind, Except.bind, pure,
      Except.pure]

/-- The nested predicates of a node. -/
def KnownPredicate.children {α : Type} : KnownPredicate α → List α
  | .and predicates => predicates
  | .or predicates => predicates
  | .not predicate => [predicate]
  | _ => []

/-- A document of a nested predicate: the value of a field, or an item of one. -/
def Nested (content : Content) (c : Json) : Prop :=
  ∃ name value, content.field name = .ok value ∧ (c = value ∨ ∃ items, value = .array items ∧ c ∈ items)

theorem nested_of_seq {content : Content} {name : String} {value : Json} {items : List Json}
    (hfield : content.field name = .ok value) (hitems : readSeq value = .ok items) :
    ∀ c ∈ items, Nested content c := by
  intro c hc
  unfold readSeq at hitems
  split at hitems
  · obtain rfl := Except.ok.inj hitems
    exact ⟨name, _, hfield, .inr ⟨_, rfl, hc⟩⟩
  · cases hitems

theorem readDuration_whole {value : Json} {d : Duration} (h : readDuration value = .ok d) : WholeSecs d := by
  unfold readDuration at h
  split at h
  · rename_i secs
    obtain rfl := Except.ok.inj h
    have hlt := secs.toNat_lt
    refine ⟨Nat.mul_mod_left _ _, ?_⟩
    dsimp only
    rw [Nat.mul_div_cancel _ (by omega)]
    exact hlt
  · cases h
  · cases h

theorem readF64_finite {value : Json} {bits : SqlReal} (h : readF64 value = .ok bits) :
    ∃ r : ℚ, bits = (r : SqlReal) := by
  unfold readF64 at h
  split at h
  · exact ⟨_, (Except.ok.inj h).symm⟩
  · exact ⟨_, (Except.ok.inj h).symm⟩
  · exact ⟨_, (Except.ok.inj h).symm⟩
  · cases h

/-- A node that is read has a known tag, and its fields survive the way to JSON and back. -/
theorem readKnown_ok {j : Json} {k : KnownPredicate Json} (h : readKnown U j = .ok k) :
    ∃ tag content, readTag j = .ok (tag, content) ∧ tag ∈ knownTypeDiscriminators ∧
      KnownPredicate.Codable k ∧ ∀ c ∈ KnownPredicate.children k, Nested content c := by
  obtain ⟨⟨tag, content⟩, htag, h⟩ := except_bind_ok.1 h
  refine ⟨tag, content, htag, ?_⟩
  dsimp only at h
  split at h
  case h_1 | h_2 =>
    obtain ⟨value, hvalue, h⟩ := except_bind_ok.1 h
    obtain ⟨items, hitems, h⟩ := except_bind_ok.1 h
    obtain rfl := Except.ok.inj h
    exact ⟨by decide, trivial, nested_of_seq hvalue hitems⟩
  case h_3 =>
    obtain ⟨value, hvalue, h⟩ := except_bind_ok.1 h
    obtain rfl := Except.ok.inj h
    refine ⟨by decide, trivial, fun c hc => ?_⟩
    obtain rfl := List.mem_singleton.1 hc
    exact ⟨_, _, hvalue, .inl rfl⟩
  case h_11 | h_14 =>
    obtain ⟨value, -, h⟩ := except_bind_ok.1 h
    obtain ⟨duration, hduration, h⟩ := except_bind_ok.1 h
    obtain rfl := Except.ok.inj h
    exact ⟨by decide, readDuration_whole hduration, fun c hc => absurd hc List.not_mem_nil⟩
  case h_16 =>
    obtain ⟨value, -, h⟩ := except_bind_ok.1 h
    obtain ⟨bits, hbits, h⟩ := except_bind_ok.1 h
    obtain rfl := Except.ok.inj h
    exact ⟨by decide, readF64_finite hbits, fun c hc => absurd hc List.not_mem_nil⟩
  case h_13 | h_17 =>
    obtain ⟨-, -, h⟩ := except_bind_ok.1 h
    obtain rfl := Except.ok.inj h
    exact ⟨by decide, trivial, fun c hc => absurd hc List.not_mem_nil⟩
  case h_19 => cases h
  all_goals
    obtain ⟨value, -, h⟩ := except_bind_ok.1 h
    obtain ⟨x, -, h⟩ := except_bind_ok.1 h
    obtain rfl := Except.ok.inj h
    exact ⟨by decide, trivial, fun c hc => absurd hc List.not_mem_nil⟩

theorem depth_lt_of_readTag {j : Json} {tag name : String} {content : Content} {value : Json}
    (htag : readTag j = .ok (tag, content)) (h : content.field name = .ok value) : value.depth < j.depth := by
  unfold readTag at htag
  split at htag
  · rename_i members
    split at htag
    · cases htag
    · obtain ⟨-, rfl⟩ := Prod.mk.inj (Except.ok.inj htag)
      simp only [Content.field] at h
      split at h
      · rename_i v hv
        obtain rfl := Except.ok.inj h
        have hmem := List.mem_of_mem_filter (Json.mem_of_member hv)
        rw [Json.depth]
        exact Nat.lt_succ_of_le (Json.depth_le_depthMembers hmem)
      · cases h
    · cases htag
  · cases htag
  · rename_i t items
    obtain ⟨-, rfl⟩ := Prod.mk.inj (Except.ok.inj htag)
    unfold Content.field at h
    split at h
    · rename_i heq
      cases heq
    · rename_i v heq
      obtain rfl := Content.seq.inj heq
      obtain rfl := Except.ok.inj h
      exact Json.depth_lt_of_item (by simp)
    · cases h
  · cases htag
  · cases htag

/-- Nested documents are less deep. -/
theorem depth_lt_of_children {j c : Json} {k : KnownPredicate Json} (h : readKnown U j = .ok k)
    (hc : c ∈ KnownPredicate.children k) : c.depth < j.depth := by
  obtain ⟨tag, content, htag, -, -, hnested⟩ := readKnown_ok h
  obtain ⟨name, value, hvalue, hcv⟩ := hnested c hc
  have hlt := depth_lt_of_readTag htag hvalue
  rcases hcv with rfl | ⟨items, rfl, hmem⟩
  · exact hlt
  · exact (Json.depth_lt_of_item hmem).trans hlt

theorem member_of_readTag {members : List (String × Json)} {tag : String} {content : Content}
    (h : readTag (.object members) = .ok (tag, content)) :
    Json.member "type" members = some (.string tag) := by
  simp only [readTag] at h
  split at h
  · cases h
  · rename_i hmember
    obtain ⟨rfl, -⟩ := Prod.mk.inj (Except.ok.inj h)
    exact hmember
  · cases h

theorem isUnknownTypeError_iff {j : Json} : isUnknownTypeError j = true ↔ ∃ members tag,
    j = .object members ∧ Json.member "type" members = some (.string tag) ∧
      tag ∉ knownTypeDiscriminators := by
  constructor
  · intro h
    unfold isUnknownTypeError at h
    split at h
    · rename_i members
      split at h
      · rename_i tag htag
        exact ⟨members, tag, rfl, htag, of_decide_eq_true h⟩
      · cases h
    · cases h
  · rintro ⟨members, tag, rfl, htag, h⟩
    simp only [isUnknownTypeError, htag]
    exact decide_eq_true h

/-- An object of an unknown type is no known node. -/
theorem readKnown_unknown {j : Json} (h : isUnknownTypeError j = true) :
    ∀ k, readKnown U j ≠ .ok k := by
  intro k hk
  obtain ⟨members, tag, rfl, htag, hunknown⟩ := isUnknownTypeError_iff.1 h
  obtain ⟨tag', content, hread, hknown, -, -⟩ := readKnown_ok hk
  obtain rfl : tag = tag' := by simpa [htag] using member_of_readTag hread
  exact hunknown hknown

end Fields

/-! ## Nodes -/

section Nodes

variable {α β : Type} {f g : α → Except DecodeError β}

/-- The nested predicates replaced. -/
def KnownPredicate.map (h : α → β) : KnownPredicate α → KnownPredicate β
  | .and predicates => .and (predicates.map h)
  | .or predicates => .or (predicates.map h)
  | .not predicate => .not (h predicate)
  | .titleContains substring => .titleContains substring
  | .urlContains substring => .urlContains substring
  | .usernameContains substring => .usernameContains substring
  | .urlHostEquals host => .urlHostEquals host
  | .tagEquals tag => .tagEquals tag
  | .tagHasAny tags => .tagHasAny tags
  | .tagHasAll tags => .tagHasAll tags
  | .modifiedWithin duration => .modifiedWithin duration
  | .modifiedBefore timestampMs => .modifiedBefore timestampMs
  | .expired => .expired
  | .expiringWithin duration => .expiringWithin duration
  | .strengthBelow bucket => .strengthBelow bucket
  | .entropyBelow bits => .entropyBelow bits
  | .duplicates => .duplicates
  | .group uuid => .group uuid

theorem codable_map {h : α → β} {k : KnownPredicate α} :
    KnownPredicate.Codable (KnownPredicate.map h k) ↔ KnownPredicate.Codable k := by
  cases k <;> exact Iff.rfl

theorem map_map {γ : Type} {h : α → β} {h' : β → γ} {k : KnownPredicate α} :
    KnownPredicate.map h' (KnownPredicate.map h k) = KnownPredicate.map (fun a => h' (h a)) k := by
  cases k <;> simp [KnownPredicate.map]

/-- A node read: the fields are kept, and the nested documents read one by one. -/
theorem traverse_ok {k : KnownPredicate α} {k' : KnownPredicate β} (h : k.traverse f = .ok k') :
    (KnownPredicate.Codable k → KnownPredicate.Codable k') ∧
      List.Forall₂ (fun c q => f c = .ok q) (KnownPredicate.children k) (KnownPredicate.children k') := by
  cases k with
  | and ps | or ps =>
    obtain ⟨qs, hqs, h⟩ := except_bind_ok.1 h
    obtain rfl := Except.ok.inj h
    exact ⟨fun _ => trivial, mapM_ok_iff.1 hqs⟩
  | not p =>
    obtain ⟨q, hq, h⟩ := except_bind_ok.1 h
    obtain rfl := Except.ok.inj h
    exact ⟨fun _ => trivial, .cons hq .nil⟩
  | _ =>
    obtain rfl := Except.ok.inj h
    exact ⟨id, .nil⟩

theorem traverse_congr {k : KnownPredicate α} (h : ∀ c ∈ KnownPredicate.children k, f c = g c) :
    k.traverse f = k.traverse g := by
  cases k with
  | and ps | or ps =>
    have hps : ps.mapM f = ps.mapM g := mapM_congr h
    simp only [KnownPredicate.traverse, hps]
  | not p => simp only [KnownPredicate.traverse, h p (List.mem_singleton_self p)]
  | _ => rfl

theorem traverse_total {k : KnownPredicate α} (h : ∀ c ∈ KnownPredicate.children k, ∃ q, f c = .ok q) :
    ∃ k', k.traverse f = .ok k' := by
  cases k with
  | and ps | or ps =>
    obtain ⟨qs, hqs⟩ : ∃ qs, ps.mapM f = .ok qs := mapM_total h
    exact ⟨_, by rw [KnownPredicate.traverse, hqs]; rfl⟩
  | not p =>
    obtain ⟨q, hq⟩ := h p (List.mem_singleton_self p)
    exact ⟨_, by rw [KnownPredicate.traverse, hq]; rfl⟩
  | _ => exact ⟨_, rfl⟩

theorem traverse_map {h : β → α} {k : KnownPredicate β}
    (hf : ∀ q ∈ KnownPredicate.children k, f (h q) = .ok q) : (KnownPredicate.map h k).traverse f = .ok k := by
  cases k with
  | and ps | or ps =>
    have hps : (ps.map h).mapM f = .ok (ps.map id) := mapM_map_ok hf
    rw [List.map_id] at hps
    simp only [KnownPredicate.map, KnownPredicate.traverse, hps]
    rfl
  | not p =>
    simp only [KnownPredicate.map, KnownPredicate.traverse, hf p (List.mem_singleton_self p)]
    rfl
  | _ => rfl

end Nodes

theorem known_of_asKnown {p : Predicate} {k : KnownPredicate Predicate} (h : p.asKnown = some k) :
    p = k.into := by
  cases p with
  | unknown => cases h
  | _ =>
    obtain rfl := Option.some.inj h
    rfl

theorem asKnown_into (k : KnownPredicate Predicate) : k.into.asKnown = some k := by cases k <;> rfl

theorem into_inj {k k' : KnownPredicate Predicate} (h : k.into = k'.into) : k = k' := by
  have hsome := asKnown_into k
  rw [h, asKnown_into] at hsome
  exact (Option.some.inj hsome).symm

theorem into_ne_unknown (k : KnownPredicate Predicate) (raw : Json) : k.into ≠ .unknown raw := by
  intro h
  have hsome := asKnown_into k
  rw [h] at hsome
  cases hsome

theorem asKnown_eq_none {p : Predicate} (h : p.asKnown = none) : ∃ value, p = .unknown value := by
  cases p with
  | unknown value => exact ⟨value, rfl⟩
  | _ => cases h

mutual

/-- Induction on a predicate: an unknown node, or a known one whose nested predicates have the property. -/
theorem known_induction {P : Predicate → Prop} (hunknown : ∀ value, P (.unknown value))
    (hknown : ∀ k : KnownPredicate Predicate, (∀ q ∈ KnownPredicate.children k, P q) → P k.into) :
    ∀ p, P p
  | .unknown value => hunknown value
  | .and ps => hknown (.and ps) (known_induction_all hunknown hknown ps)
  | .or ps => hknown (.or ps) (known_induction_all hunknown hknown ps)
  | .not p => hknown (.not p) (List.forall_mem_singleton.2 (known_induction hunknown hknown p))
  | .titleContains s => hknown (.titleContains s) nofun
  | .urlContains s => hknown (.urlContains s) nofun
  | .usernameContains s => hknown (.usernameContains s) nofun
  | .urlHostEquals host => hknown (.urlHostEquals host) nofun
  | .tagEquals tag => hknown (.tagEquals tag) nofun
  | .tagHasAny tags => hknown (.tagHasAny tags) nofun
  | .tagHasAll tags => hknown (.tagHasAll tags) nofun
  | .modifiedWithin d => hknown (.modifiedWithin d) nofun
  | .modifiedBefore t => hknown (.modifiedBefore t) nofun
  | .expired => hknown .expired nofun
  | .expiringWithin d => hknown (.expiringWithin d) nofun
  | .strengthBelow bucket => hknown (.strengthBelow bucket) nofun
  | .entropyBelow bits => hknown (.entropyBelow bits) nofun
  | .duplicates => hknown .duplicates nofun
  | .group uuid => hknown (.group uuid) nofun

theorem known_induction_all {P : Predicate → Prop} (hunknown : ∀ value, P (.unknown value))
    (hknown : ∀ k : KnownPredicate Predicate, (∀ q ∈ KnownPredicate.children k, P q) → P k.into) :
    ∀ ps : List Predicate, ∀ q ∈ ps, P q
  | [] => nofun
  | p :: ps =>
    List.forall_mem_cons.2
      ⟨known_induction hunknown hknown p, known_induction_all hunknown hknown ps⟩

end

/-! ## The codec -/

section Codec

variable {U : UuidLib}

theorem encodeAll_eq (ps : List Predicate) : encodeAll U ps = ps.map (encode U) := by
  induction ps with
  | nil => rfl
  | cons p ps ih => rw [encodeAll, ih, List.map_cons]

/-- A known predicate is written as its node, over the documents of the nested ones. -/
theorem encode_into (k : KnownPredicate Predicate) :
    encode U k.into = writeKnown U (KnownPredicate.map (encode U) k) := by
  cases k with
  | and ps | or ps => simp only [KnownPredicate.into, encode, encodeAll_eq, KnownPredicate.map]
  | _ => simp only [KnownPredicate.into, encode, KnownPredicate.map]

theorem decodeWith_congr {f g : Json → Except DecodeError Predicate} {j : Json}
    (h : ∀ c, c.depth < j.depth → f c = g c) : decodeWith U f j = decodeWith U g j := by
  unfold decodeWith
  cases hk : readKnown U j with
  | error e => rfl
  | ok k =>
    have hchildren : ∀ c ∈ KnownPredicate.children k, f c = g c :=
      fun c hc => h c (depth_lt_of_children hk hc)
    simp only [bind, Except.bind, traverse_congr hchildren]

/-- With fuel for the depth of the document, more fuel changes nothing. -/
theorem decodeFuel_eq {m n : Nat} {j : Json} (hm : j.depth < m) (hn : j.depth < n) :
    decodeFuel U m j = decodeFuel U n j := by
  induction m generalizing n j with
  | zero => omega
  | succ m ih =>
    cases n with
    | zero => omega
    | succ n =>
      rw [decodeFuel, decodeFuel]
      exact decodeWith_congr fun c hc => ih (by omega) (by omega)

/-- **The recursion of the decoder.** -/
theorem decode_eq (j : Json) : decode U j = decodeWith U (decode U) j := by
  have h : decode U j = decodeWith U (decodeFuel U j.depth) j := rfl
  rw [h]
  exact decodeWith_congr fun c hc => decodeFuel_eq hc (by omega)

/-- **What the decoder accepts**: a known node whose nested documents it accepts, and an object of an
unknown type, as it is. -/
theorem decode_eq_ok {j : Json} {p : Predicate} : decode U j = .ok p ↔
    (∃ k k', readKnown U j = .ok k ∧ k.traverse (decode U) = .ok k' ∧ p = k'.into) ∨
      isUnknownTypeError j = true ∧ p = .unknown j := by
  rw [decode_eq, decodeWith]
  constructor
  · intro h
    split at h
    · rename_i known hknown
      obtain ⟨k, hk, hk'⟩ := except_bind_ok.1 hknown
      exact .inl ⟨k, known, hk, hk', (Except.ok.inj h).symm⟩
    · split_ifs at h with htype
      exact .inr ⟨htype, (Except.ok.inj h).symm⟩
  · rintro (⟨k, k', hk, hk', rfl⟩ | ⟨htype, rfl⟩)
    · rw [except_bind_ok.2 ⟨k, hk, hk'⟩]
    · cases hread : readKnown U j with
      | ok k => exact absurd hread (readKnown_unknown htype k)
      | error e =>
        simp only [bind, Except.bind]
        rw [if_pos htype]

end Codec

/-! ## Positions -/

/-- The documents of the nested predicates of a document. -/
def nestedDocuments (U : UuidLib) (j : Json) : List Json :=
  match readKnown U j with
  | .ok known => KnownPredicate.children known
  | .error _ => []

/-- The document at a predicate position. -/
def documentAt (U : UuidLib) : List Nat → Json → Option Json := descend (nestedDocuments U)

def nestedPredicates (p : Predicate) : List Predicate :=
  match p.asKnown with
  | some known => KnownPredicate.children known
  | none => []

def predicateAt : List Nat → Predicate → Option Predicate := descend nestedPredicates

/-- A node survives the way to JSON and back. -/
structure NodeKept (p : Predicate) : Prop where
  unknown : ∀ raw, p = .unknown raw → isUnknownTypeError raw = true
  known : ∀ k, p.asKnown = some k → KnownPredicate.Codable k

/-- Every node survives the way to JSON and back. -/
def WholeKept (p : Predicate) : Prop := ∀ path q, predicateAt path p = some q → NodeKept q

section Positions

variable {U : UuidLib}

theorem nestedPredicates_into (k : KnownPredicate Predicate) :
    nestedPredicates k.into = KnownPredicate.children k := by
  unfold nestedPredicates
  rw [asKnown_into]

theorem nestedDocuments_unknown {j : Json} (h : isUnknownTypeError j = true) : nestedDocuments U j = [] := by
  unfold nestedDocuments
  split
  · rename_i known hknown
    exact absurd hknown (readKnown_unknown h known)
  · rfl

theorem children_map {α β : Type} {f : α → β} {k : KnownPredicate α} :
    KnownPredicate.children (KnownPredicate.map f k) = (KnownPredicate.children k).map f := by
  cases k <;> rfl

theorem kept_iff {p : Predicate} : WholeKept p ↔ NodeKept p ∧ ∀ q ∈ nestedPredicates p, WholeKept q :=
  forall_descend_iff

theorem nodeKept_into {k : KnownPredicate Predicate} : NodeKept k.into ↔ KnownPredicate.Codable k := by
  refine ⟨fun h => h.known k (asKnown_into k), fun h => ⟨fun raw hraw => ?_, fun k' hk' => ?_⟩⟩
  · exact absurd hraw (into_ne_unknown k raw)
  · rw [asKnown_into] at hk'
    obtain rfl := Option.some.inj hk'
    exact h

/-- The nested predicates are the nested documents read. -/
theorem decode_nested {j : Json} {p : Predicate} (h : decode U j = .ok p) :
    List.Forall₂ (fun c q => decode U c = .ok q) (nestedDocuments U j) (nestedPredicates p) := by
  rcases decode_eq_ok.1 h with ⟨k, k', hk, hk', rfl⟩ | ⟨htype, rfl⟩
  · rw [nestedPredicates_into]
    unfold nestedDocuments
    rw [hk]
    exact (traverse_ok hk').2
  · rw [nestedDocuments_unknown htype]
    exact .nil

/-- The predicate at a path is the document there, read. -/
theorem documentAt_of_predicateAt {j : Json} {p q : Predicate} {path : List Nat} (h : decode U j = .ok p)
    (hq : predicateAt path p = some q) : ∃ c, documentAt U path j = some c ∧ decode U c = .ok q :=
  descend_rel (fun _ _ => decode_nested) h hq

theorem predicateAt_of_documentAt {j c : Json} {p : Predicate} {path : List Nat} (h : decode U j = .ok p)
    (hc : documentAt U path j = some c) : ∃ q, predicateAt path p = some q ∧ decode U c = .ok q :=
  descend_rel (R := fun p j => decode U j = .ok p) (fun _ _ h => (decode_nested h).flip) h hc

theorem nodeKept_of_decode {j : Json} {p : Predicate} (h : decode U j = .ok p) : NodeKept p := by
  rcases decode_eq_ok.1 h with ⟨k, k', hk, hk', rfl⟩ | ⟨htype, rfl⟩
  · obtain ⟨-, -, -, -, hcodable, -⟩ := readKnown_ok hk
    exact nodeKept_into.2 ((traverse_ok hk').1 hcodable)
  · refine ⟨fun raw hraw => ?_, fun k hk => by cases hk⟩
    obtain rfl := Predicate.unknown.inj hraw
    exact htype

/-- What is read survives. -/
theorem kept_of_decode {j : Json} {p : Predicate} (h : decode U j = .ok p) : WholeKept p := by
  intro path q hq
  obtain ⟨c, -, hc⟩ := documentAt_of_predicateAt h hq
  exact nodeKept_of_decode hc

theorem decode_unknown {raw : Json} (h : isUnknownTypeError raw = true) :
    decode U raw = .ok (.unknown raw) := decode_eq_ok.2 (.inr ⟨h, rfl⟩)

/-- **The predicates that read back as they were written.** -/
theorem decode_encode_iff (hU : UuidLib.Lawful U) {p : Predicate} :
    decode U (encode U p) = .ok p ↔ WholeKept p := by
  refine ⟨kept_of_decode, fun h => ?_⟩
  induction p using known_induction with
  | hunknown raw => exact decode_unknown ((kept_iff.1 h).1.unknown raw rfl)
  | hknown k ih =>
    obtain ⟨hnode, hnested⟩ := kept_iff.1 h
    rw [nestedPredicates_into] at hnested
    rw [encode_into]
    refine decode_eq_ok.2
      (.inl ⟨_, k, readKnown_writeKnown hU (codable_map.2 (nodeKept_into.1 hnode)), ?_, rfl⟩)
    exact traverse_map fun q hq => ih q hq (hnested q hq)

theorem nestedDocuments_encode (hU : UuidLib.Lawful U) {p : Predicate} (h : NodeKept p) :
    nestedDocuments U (encode U p) = (nestedPredicates p).map (encode U) := by
  cases hp : p.asKnown with
  | none =>
    obtain ⟨raw, rfl⟩ := asKnown_eq_none hp
    rw [encode, nestedDocuments_unknown (h.unknown raw rfl)]
    rfl
  | some k =>
    obtain rfl := known_of_asKnown hp
    rw [encode_into, nestedPredicates_into, ← children_map]
    unfold nestedDocuments
    rw [readKnown_writeKnown hU (codable_map.2 (nodeKept_into.1 h))]

/-- The document of a predicate holds at each path the document of the predicate there. -/
theorem documentAt_encode (hU : UuidLib.Lawful U) {p q : Predicate} {path : List Nat} (h : WholeKept p)
    (hq : predicateAt path p = some q) : documentAt U path (encode U p) = some (encode U q) := by
  have hR : ∀ j p, WholeKept p ∧ j = encode U p →
      List.Forall₂ (fun j p => WholeKept p ∧ j = encode U p) (nestedDocuments U j) (nestedPredicates p) := by
    rintro _ p ⟨hkept, rfl⟩
    obtain ⟨hnode, hnested⟩ := kept_iff.1 hkept
    rw [nestedDocuments_encode hU hnode, List.forall₂_map_left_iff, List.forall₂_same]
    exact fun q hq => ⟨hnested q hq, rfl⟩
  obtain ⟨c, hc, -, rfl⟩ := descend_rel hR ⟨h, rfl⟩ hq
  exact hc

theorem decode_eq_unknown {j raw : Json} :
    decode U j = .ok (.unknown raw) ↔ j = raw ∧ isUnknownTypeError raw = true := by
  constructor
  · intro h
    rcases decode_eq_ok.1 h with ⟨k, k', -, -, hinto⟩ | ⟨htype, hraw⟩
    · exact absurd hinto.symm (into_ne_unknown k' raw)
    · obtain rfl := Predicate.unknown.inj hraw
      exact ⟨rfl, htype⟩
  · rintro ⟨rfl, h⟩
    exact decode_unknown h

/-- An object of an unknown type is kept where it stands. -/
theorem predicateAt_unknown_iff {j raw : Json} {p : Predicate} {path : List Nat} (h : decode U j = .ok p) :
    predicateAt path p = some (.unknown raw) ↔
      documentAt U path j = some raw ∧ isUnknownTypeError raw = true := by
  constructor
  · intro hraw
    obtain ⟨c, hc, hdecode⟩ := documentAt_of_predicateAt h hraw
    obtain ⟨rfl, htype⟩ := decode_eq_unknown.1 hdecode
    exact ⟨hc, htype⟩
  · rintro ⟨hraw, htype⟩
    obtain ⟨q, hq, hdecode⟩ := predicateAt_of_documentAt h hraw
    rw [decode_unknown htype] at hdecode
    obtain rfl := Except.ok.inj hdecode
    exact hq

theorem allEvaluable_iff_forall {ps : List Predicate} :
    allEvaluable ps = true ↔ ∀ p ∈ ps, p.isEvaluable = true := by
  induction ps with
  | nil => simp [allEvaluable]
  | cons p ps ih => simp [allEvaluable, ih]

theorem isEvaluable_into (k : KnownPredicate Predicate) :
    k.into.isEvaluable = true ↔ ∀ q ∈ KnownPredicate.children k, q.isEvaluable = true := by
  cases k with
  | and ps | or ps =>
    simp [KnownPredicate.into, KnownPredicate.children, Predicate.isEvaluable,
      allEvaluable_iff_forall]
  | _ => simp [KnownPredicate.into, KnownPredicate.children, Predicate.isEvaluable]

/-- A predicate is evaluable when no node is unknown. -/
theorem isEvaluable_iff_predicateAt {p : Predicate} :
    p.isEvaluable = true ↔ ∀ path q, predicateAt path p = some q → ∀ raw, q ≠ .unknown raw := by
  induction p using known_induction with
  | hunknown raw =>
    exact ⟨fun h => by simp [Predicate.isEvaluable] at h, fun h => absurd rfl (h [] _ rfl raw)⟩
  | hknown k ih =>
    rw [isEvaluable_into]
    unfold predicateAt
    rw [forall_descend_iff, nestedPredicates_into]
    exact ⟨fun h => ⟨into_ne_unknown k, fun q hq => (ih q hq).1 (h q hq)⟩,
      fun h q hq => (ih q hq).2 (h.2 q hq)⟩

/-- **What is refused**: a document is accepted when at each predicate position stands a node that can be
read, or an object of an unknown type. -/
theorem decode_ok_iff {j : Json} : (∃ p, decode U j = .ok p) ↔
    ∀ path n, documentAt U path j = some n →
      (∃ k, readKnown U n = .ok k) ∨ isUnknownTypeError n = true := by
  constructor
  · rintro ⟨p, h⟩ path n hn
    obtain ⟨q, -, hq⟩ := predicateAt_of_documentAt h hn
    rcases decode_eq_ok.1 hq with ⟨k, -, hk, -⟩ | ⟨htype, -⟩
    · exact .inl ⟨k, hk⟩
    · exact .inr htype
  · intro h
    induction hd : j.depth using Nat.strong_induction_on generalizing j with
    | h d ih =>
      obtain ⟨hroot, hnested⟩ := forall_descend_iff.1 h
      rcases hroot with ⟨k, hk⟩ | htype
      · have hnd : nestedDocuments U j = KnownPredicate.children k := by
          unfold nestedDocuments
          rw [hk]
        rw [hnd] at hnested
        obtain ⟨k', hk'⟩ := traverse_total fun c hc =>
          ih c.depth (hd ▸ depth_lt_of_children hk hc) (hnested c hc) rfl
        exact ⟨k'.into, decode_eq_ok.2 (.inl ⟨k, k', hk, hk', rfl⟩)⟩
      · exact ⟨.unknown j, decode_unknown htype⟩

end Positions

/-- An object of a known type that cannot be read, or one whose type is missing or no text. -/
def MalformedNode (U : UuidLib) (n : Json) : Prop :=
  ∃ members, n = .object members ∧
    ((∃ tag, Json.member "type" members = some (.string tag) ∧ tag ∈ knownTypeDiscriminators ∧
        ∀ k, readKnown U n ≠ .ok k) ∨
      ∀ tag, Json.member "type" members ≠ some (.string tag))

/-- A malformed node is neither read nor kept. -/
theorem MalformedNode.refused {U : UuidLib} {n : Json} (h : MalformedNode U n) :
    ¬ ((∃ k, readKnown U n = .ok k) ∨ isUnknownTypeError n = true) := by
  obtain ⟨members, rfl, h⟩ := h
  rintro (⟨k, hk⟩ | htype)
  · rcases h with ⟨-, -, -, hread⟩ | huntyped
    · exact hread k hk
    · obtain ⟨tag, content, hread, -⟩ := readKnown_ok hk
      exact huntyped tag (member_of_readTag hread)
  · obtain ⟨members', tag, hmembers, htag, hunknown⟩ := isUnknownTypeError_iff.1 htype
    obtain rfl := Json.object.inj hmembers
    rcases h with ⟨tag', htag', hknown, -⟩ | huntyped
    · obtain rfl : tag = tag' := by simpa [htag] using htag'
      exact hunknown hknown
    · exact huntyped tag htag

/-- **The tolerant codec.** A document that is accepted is read the same after it was written back. An
object of an unknown type at a predicate position is kept there, through reading and writing, and makes the
predicate no evaluable one; nothing else does. A document with a malformed node at such a position is
refused. -/
theorem predicate_codec {U : UuidLib} (hU : UuidLib.Lawful U) (j : Json) :
    (∀ p, decode U j = .ok p →
      decode U (encode U p) = .ok p ∧
      (∀ path raw, predicateAt path p = some (.unknown raw) ↔
        documentAt U path j = some raw ∧ isUnknownTypeError raw = true) ∧
      (∀ path raw, documentAt U path j = some raw → isUnknownTypeError raw = true →
        documentAt U path (encode U p) = some raw) ∧
      (p.isEvaluable = false ↔
        ∃ path raw, documentAt U path j = some raw ∧ isUnknownTypeError raw = true)) ∧
    ∀ path n, documentAt U path j = some n → MalformedNode U n → ∀ p, decode U j ≠ .ok p := by
  refine ⟨fun p h => ?_, fun path n hn hmalformed p h => ?_⟩
  · have hkept := kept_of_decode h
    refine ⟨(decode_encode_iff hU).2 hkept, fun path raw => predicateAt_unknown_iff h, ?_, ?_⟩
    · intro path raw hraw htype
      have hat := documentAt_encode hU hkept ((predicateAt_unknown_iff h).2 ⟨hraw, htype⟩)
      rwa [encode] at hat
    · rw [← Bool.not_eq_true, isEvaluable_iff_predicateAt]
      push Not
      constructor
      · rintro ⟨path, -, hq, raw, rfl⟩
        exact ⟨path, raw, (predicateAt_unknown_iff h).1 hq⟩
      · rintro ⟨path, raw, hraw⟩
        exact ⟨path, _, (predicateAt_unknown_iff h).2 hraw, raw, rfl⟩
  · exact hmalformed.refused (decode_ok_iff.1 ⟨p, h⟩ path n hn)

/-- Uuids as decimal numerals. -/
def decimalUuids : UuidLib where
  display u := .ofList (Nat.toDigits 10 u.1)
  fromStr s := some (Fin.ofNat (2 ^ 128) (Nat.ofDigitChars 10 s.toList 0))

theorem decimalUuids_lawful : UuidLib.Lawful decimalUuids := by
  intro u
  have hdigits : Nat.ofDigitChars 10 (Nat.toDigits 10 u.1) 0 = u.1 :=
    Nat.ofDigitChars_toDigits (by omega) (by omega)
  simp only [decimalUuids, String.toList_ofList, hdigits]
  exact congrArg some (Fin.ext (Nat.mod_eq_of_lt u.2))

/-- The predicate a later version wrote below a `not`. -/
def notFuzzy : Json :=
  .object [("predicate", .object [("type", .string "fuzzy"), ("like", .string "mail")]),
    ("type", .string "not")]

theorem predicate_codec_not_fuzzy :
    ∃ p, decode decimalUuids notFuzzy = .ok p ∧
      decode decimalUuids (encode decimalUuids p) = .ok p ∧ p.isEvaluable = false := by
  have h := (predicate_codec decimalUuids_lawful notFuzzy).1
    (.not (.unknown (.object [("type", .string "fuzzy"), ("like", .string "mail")]))) rfl
  exact ⟨_, rfl, h.1, h.2.2.2.2 ⟨[0], _, rfl, rfl⟩⟩

end KeysCore.Verify
