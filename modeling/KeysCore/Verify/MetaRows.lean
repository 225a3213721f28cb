import KeysCore.Lib.Columns
import KeysCore.Lib.Except
import KeysCore.MetaRows
import KeysCore.PeerIngest

/-!
# The rows hold the settings

The rows of `setting` against the settings the mirror is modelled with. A row is a column of the
settings, by its kind; writing a column and reading it back give the value, within the range of its type.
So whatever ingests, reconciles and edits of the settings have run, the rows hold exactly the settings
(`setting_rows_hold`): a projection reads the `Meta` they stand for, and every accessor its setting. And
whatever the rows are, reading them fails with the first row that does not decode
(`errorOf_readMetaInto`), which the error names (`readMetaInto_error`).
-/

namespace KeysCore.MetaRows

open Lib

/-! ## Columns -/

/-- The scalars of the settings, those of `write_meta_scalars` in its order. -/
inductive MetaKey where
  | generator
  | databaseName
  | databaseDescription
  | defaultUsername
  | color
  | headerHash
  | databaseNameChanged
  | databaseDescriptionChanged
  | defaultUsernameChanged
  | recycleBinChanged
  | settingsChanged
  | masterKeyChanged
  | masterKeyChangeRec
  | masterKeyChangeForce
  | historyMaxItems
  | historyMaxSize
  | maintenanceHistoryDays
  | memoryProtection
  | unknownXml
  | recycleBinEnabled
deriving DecidableEq

inductive Kind where
  | text
  | instant
  | i64
  | i32
  | u32
  | byte
  | xml
  | flag

abbrev Kind.Val : Kind → Type
  | text => String
  | instant => Option EpochMs
  | i64 => Int
  | i32 => Int
  | u32 => Nat
  | byte => UInt8
  | xml => List UnknownElement
  | flag => Option Bool

namespace MetaKey

/-- The columns `write_meta_scalars` writes. -/
def scalars : List MetaKey :=
  [generator, databaseName, databaseDescription, defaultUsername, color, headerHash,
    databaseNameChanged, databaseDescriptionChanged, defaultUsernameChanged, recycleBinChanged,
    settingsChanged, masterKeyChanged, masterKeyChangeRec, masterKeyChangeForce, historyMaxItems,
    historyMaxSize, maintenanceHistoryDays, memoryProtection, unknownXml]

def name : MetaKey → String
  | generator => keyGenerator
  | databaseName => keyDatabaseName
  | databaseDescription => keyDatabaseDescription
  | defaultUsername => keyDefaultUsername
  | color => keyColor
  | headerHash => keyHeaderHash
  | databaseNameChanged => keyDatabaseNameChanged
  | databaseDescriptionChanged => keyDatabaseDescriptionChanged
  | defaultUsernameChanged => keyDefaultUsernameChanged
  | recycleBinChanged => keyRecycleBinChanged
  | settingsChanged => keySettingsChanged
  | masterKeyChanged => keyMasterKeyChanged
  | masterKeyChangeRec => keyMasterKeyChangeRec
  | masterKeyChangeForce => keyMasterKeyChangeForce
  | historyMaxItems => keyHistoryMaxItems
  | historyMaxSize => keyHistoryMaxSize
  | maintenanceHistoryDays => keyMaintenanceHistoryDays
  | memoryProtection => keyMemoryProtection
  | unknownXml => keyUnknownXml
  | recycleBinEnabled => keyRecycleBinEnabled

def kind : MetaKey → Kind
  | generator | databaseName | databaseDescription | defaultUsername | color | headerHash => .text
  | databaseNameChanged | databaseDescriptionChanged | defaultUsernameChanged | recycleBinChanged
  | settingsChanged | masterKeyChanged => .instant
  | masterKeyChangeRec | masterKeyChangeForce | historyMaxSize => .i64
  | historyMaxItems => .i32
  | maintenanceHistoryDays => .u32
  | memoryProtection => .byte
  | unknownXml => .xml
  | recycleBinEnabled => .flag

abbrev Val (k : MetaKey) : Type := k.kind.Val

/-- A key is found by its name. -/
theorem find?_name (k : MetaKey) :
    (recycleBinEnabled :: scalars).find? (fun j => j.name = k.name) = some k := by
  cases k <;> decide +kernel

theorem name_injective : Function.Injective name := by
  intro j k h
  have hj := find?_name j
  rw [h, find?_name k] at hj
  exact (Option.some.inj hj).symm

theorem mem_scalars {k : MetaKey} (h : k ≠ recycleBinEnabled) : k ∈ scalars := by
  cases k <;> first | decide | exact absurd rfl h

end MetaKey

/-- The scalars of the settings. -/
def scalarsOf (s : Settings) : ∀ k : MetaKey, k.Val
  | .generator => s.generator
  | .databaseName => s.databaseName
  | .databaseDescription => s.databaseDescription
  | .defaultUsername => s.defaultUsername
  | .color => s.color
  | .headerHash => s.headerHash
  | .databaseNameChanged => s.databaseNameChanged
  | .databaseDescriptionChanged => s.databaseDescriptionChanged
  | .defaultUsernameChanged => s.defaultUsernameChanged
  | .recycleBinChanged => s.recycleBinChanged
  | .settingsChanged => s.settingsChanged
  | .masterKeyChanged => s.masterKeyChanged
  | .masterKeyChangeRec => s.masterKeyChangeRec
  | .masterKeyChangeForce => s.masterKeyChangeForce
  | .historyMaxItems => s.historyMaxItems
  | .historyMaxSize => s.historyMaxSize
  | .maintenanceHistoryDays => s.maintenanceHistoryDays
  | .memoryProtection => s.memoryProtection
  | .unknownXml => s.unknownXml
  | .recycleBinEnabled => s.recycleBinEnabled

variable {L : XmlLib}

/-- The row of a value, if it has one. -/
def Kind.encode (L : XmlLib) : ∀ κ : Kind, κ.Val → Option KdfGate.Blob
  | text, value => some (utf8 value)
  | instant, value => value.map fun t => littleEndianInt 8 t.val
  | i64, value => some (littleEndianInt 8 value)
  | i32, value => some (littleEndianInt 4 value)
  | u32, value => some (littleEndian 4 value)
  | byte, value => some [value]
  | xml, value => some (utf8 (serialiseUnknownXml L value))
  | flag, value => value.map fun enabled => [if enabled then 1 else 0]

/-- The unknown elements from the bytes of their row. -/
def xmlOf (L : XmlLib) (key : String) (bytes : KdfGate.Blob) :
    Except SettingError (List UnknownElement) := do
  let json ← textOf key bytes
  (deserialiseUnknownXml L json).mapError .unknownXml

/-- The value of a row, `d` where a row that is missing stands for `d`. -/
def rowOr {α : Type} (decode : String → KdfGate.Blob → Except SettingError α) (key : String) (d : α) :
    Option KdfGate.Blob → Except SettingError α
  | some bytes => decode key bytes
  | none => .ok d

/-- The value of a column, read from its row. -/
def Kind.decode (L : XmlLib) (key : String) :
    ∀ κ : Kind, κ.Val → Option KdfGate.Blob → Except SettingError κ.Val
  | text, d, row => rowOr textOf key d row
  | instant, _, row => rowOr (fun key bytes => (i64Of key bytes).map msToDt) key none row
  | i64, d, row => rowOr i64Of key d row
  | i32, d, row => rowOr i32Of key d row
  | u32, d, row => rowOr u32Of key d row
  | byte, _, some [value] => .ok value
  | byte, d, _ => .ok d
  | xml, d, row => rowOr (xmlOf L) key d row
  | flag, _, some [value] => .ok (some (value ≠ 0))
  | flag, _, _ => .ok none

/-- The columns of the settings. -/
def metaColumns (L : XmlLib) : Columns MetaKey MetaKey.Val KdfGate.Blob SettingError where
  name := MetaKey.name
  encode k := k.kind.encode L
  decode k := k.kind.decode L k.name (scalarsOf {} k)
  name_injective := MetaKey.name_injective

/-! ## Round trips -/

/-- `serde_json` and the base64 engine read the text they wrote of `elements`. -/
structure XmlLib.ReadsBack (L : XmlLib) (elements : List UnknownElement) : Prop where
  json : L.fromJson (L.toJson (elements.map fun e => ⟨e.tag, L.encode64 e.rawXml⟩)) =
    .ok (elements.map fun e => ⟨e.tag, L.encode64 e.rawXml⟩)
  base64 : ∀ e ∈ elements, L.decode64 (L.encode64 e.rawXml) = .ok e.rawXml

/-- A value is one of the type its column has in the source, and a text of elements is read back. -/
def Kind.InRange (L : XmlLib) : ∀ κ : Kind, κ.Val → Prop
  | i64, n => Fits 8 n
  | i32, n => Fits 4 n
  | u32, n => n < 256 ^ 4
  | xml, elements => L.ReadsBack elements
  | _, _ => True

theorem textOf_utf8 (key value : String) : textOf key (utf8 value) = .ok value := by
  unfold textOf utf8
  have h : String.fromUTF8? value.toUTF8 = some value := by
    rw [String.fromUTF8?, dif_pos (by simpa using value.isValidUTF8)]
    rfl
  rw [String.toUTF8_eq_toByteArray] at h
  simp [h]

theorem fixedWidth_ok {α : Type} (type : String) {width : Nat} {read : KdfGate.Blob → α}
    (key : String) {bytes : KdfGate.Blob} {a : α} (hlen : bytes.length = width) (ha : read bytes = a) :
    fixedWidth type width read key bytes = .ok a := by
  rw [fixedWidth, if_pos hlen, ha]

theorem i64Of_littleEndian (key : String) {n : Int} (h : Fits 8 n) :
    i64Of key (littleEndianInt 8 n) = .ok n :=
  fixedWidth_ok "i64" key (by simp) (ofLittleEndianInt_littleEndianInt h)

/-- An instant of chrono in milliseconds is an `i64`. -/
theorem fits_instant (t : EpochMs) : Fits 8 t.val := by
  obtain ⟨hlow, hhigh⟩ := t.inRange
  unfold minSecond maxSecond at *
  unfold Fits
  omega

theorem msToDt_val (t : EpochMs) : msToDt t.val = some t := dif_pos t.inRange

theorem mapM_elements {elements : List UnknownElement}
    (h : ∀ e ∈ elements, L.decode64 (L.encode64 e.rawXml) = .ok e.rawXml) :
    (elements.map fun e => (⟨e.tag, L.encode64 e.rawXml⟩ : UnknownXmlRecord)).mapM (·.element L) =
      .ok elements := by
  induction elements with
  | nil => rfl
  | cons e elements ih =>
    have he : UnknownXmlRecord.element L ⟨e.tag, L.encode64 e.rawXml⟩ = .ok e := by
      simp [UnknownXmlRecord.element, h e List.mem_cons_self]
    rw [List.map_cons, List.mapM_cons, he, ih fun e he => h e (List.mem_cons_of_mem _ he)]
    rfl

theorem deserialise_serialise {elements : List UnknownElement} (h : L.ReadsBack elements) :
    deserialiseUnknownXml L (serialiseUnknownXml L elements) = .ok elements := by
  simp only [deserialiseUnknownXml, serialiseUnknownXml, h.json]
  exact mapM_elements h.base64

/-- **What a column writes it reads back**, within the range of its type. -/
theorem Kind.decode_encode (key : String) (κ : Kind) (d a : κ.Val) (h : κ.InRange L a) :
    κ.decode L key d (κ.encode L a) = .ok a := by
  cases κ with
  | text => exact textOf_utf8 key a
  | instant =>
    cases a with
    | none => rfl
    | some t =>
      show (i64Of key (littleEndianInt 8 t.val)).map msToDt = .ok (some t)
      rw [i64Of_littleEndian key (fits_instant t)]
      exact congrArg Except.ok (msToDt_val t)
  | i64 => exact i64Of_littleEndian key h
  | i32 => exact fixedWidth_ok "i32" key (length_littleEndianInt 4 a) (ofLittleEndianInt_littleEndianInt h)
  | u32 =>
    have hread : ofLittleEndian (littleEndian 4 a) = a := by
      rw [ofLittleEndian_littleEndian]
      exact Nat.mod_eq_of_lt h
    exact fixedWidth_ok "u32" key (length_littleEndian 4 a) hread
  | byte => rfl
  | xml =>
    show xmlOf L key (utf8 (serialiseUnknownXml L a)) = .ok a
    have h : deserialiseUnknownXml L (serialiseUnknownXml L a) = .ok a := deserialise_serialise h
    simp [xmlOf, textOf_utf8, bind, Except.bind, h, Except.mapError]
  | flag =>
    cases a with
    | none => rfl
    | some enabled => cases enabled <;> rfl

theorem returns {k : MetaKey} {a : k.Val} (h : k.kind.InRange L a) :
    (metaColumns L).Returns k a :=
  Kind.decode_encode k.name k.kind _ a h

/-! ## Reads -/

section Reads

variable {rows : Rows} {s : Settings}

/-- A column of a row's value is what the row gives, or the default. -/
theorem getRow_of_rowOr {α : Type} {decode : String → KdfGate.Blob → Except SettingError α} {key : String}
    {d v : α} (h : rowOr decode key d (rows key) = .ok v) :
    ∃ o, getRow decode rows key = .ok o ∧ o.getD d = v := by
  unfold getRow
  cases hrow : rows key with
  | none =>
    rw [hrow] at h
    exact ⟨none, rfl, Except.ok.inj h⟩
  | some bytes =>
    rw [hrow] at h
    have h : decode key bytes = .ok v := h
    exact ⟨some v, by simp [h, Except.map], rfl⟩

theorem getOptionalTimestamp_of {key : String} {v : Option EpochMs}
    (h : rowOr (fun key bytes => (i64Of key bytes).map msToDt) key none (rows key) = .ok v) :
    getOptionalTimestamp rows key = .ok v := by
  unfold getOptionalTimestamp getI64 getRow
  cases hrow : rows key with
  | none =>
    rw [hrow] at h
    exact h
  | some bytes =>
    rw [hrow] at h
    obtain ⟨n, hn, hv⟩ := except_map_ok.1 h
    simp [hn, Except.map, hv]

theorem getUnknownXml_of {key : String} {d v : List UnknownElement}
    (h : rowOr (xmlOf L) key d (rows key) = .ok v) :
    ∃ o, getText rows key = .ok o ∧ getUnknownXml L d o = .ok v := by
  unfold getText getRow
  cases hrow : rows key with
  | none =>
    rw [hrow] at h
    exact ⟨none, rfl, h⟩
  | some bytes =>
    rw [hrow] at h
    obtain ⟨json, hjson, hv⟩ := except_bind_ok.1 h
    exact ⟨some json, by simp [hjson, Except.map], hv⟩

/-- The memory protection of the rows, however wide its row is. -/
theorem getMemoryProtection_of {v : UInt8}
    (h : Kind.byte.decode L keyMemoryProtection 0 (rows keyMemoryProtection) = .ok v) :
    getMemoryProtection rows {} = unpackMemoryProtection v := by
  unfold getMemoryProtection
  match rows keyMemoryProtection, h with
  | some [b], h =>
    obtain rfl : b = v := Except.ok.inj h
    rfl
  | none, h | some [], h | some (_ :: _ :: _), h =>
    obtain rfl : (0 : UInt8) = v := Except.ok.inj h
    rfl

variable {v : ∀ k : MetaKey, k.Val}

/-- **A table that holds the settings reads as the `Meta` they stand for**, but for the recycle bin and
the lists, which are not among these rows. -/
theorem readMetaInto_of_holds (h : (metaColumns L).Holds rows v) : readMetaInto L rows {} = .ok {
    generator := v .generator
    databaseName := v .databaseName
    databaseDescription := v .databaseDescription
    defaultUsername := v .defaultUsername
    color := v .color
    headerHash := v .headerHash
    databaseNameChanged := (v .databaseNameChanged).map EpochMs.toDateTime
    databaseDescriptionChanged := (v .databaseDescriptionChanged).map EpochMs.toDateTime
    defaultUsernameChanged := (v .defaultUsernameChanged).map EpochMs.toDateTime
    recycleBinChanged := (v .recycleBinChanged).map EpochMs.toDateTime
    settingsChanged := (v .settingsChanged).map EpochMs.toDateTime
    masterKeyChanged := (v .masterKeyChanged).map EpochMs.toDateTime
    masterKeyChangeRec := v .masterKeyChangeRec
    masterKeyChangeForce := v .masterKeyChangeForce
    historyMaxItems := v .historyMaxItems
    historyMaxSize := v .historyMaxSize
    maintenanceHistoryDays := v .maintenanceHistoryDays
    memoryProtection := unpackMemoryProtection (v .memoryProtection)
    unknownXml := v .unknownXml } := by
  obtain ⟨o₁, h₁, e₁⟩ : ∃ o, getText rows keyGenerator = .ok o ∧ o.getD "" = v .generator :=
    getRow_of_rowOr (h .generator)
  obtain ⟨o₂, h₂, e₂⟩ : ∃ o, getText rows keyDatabaseName = .ok o ∧ o.getD "" = v .databaseName :=
    getRow_of_rowOr (h .databaseName)
  obtain ⟨o₃, h₃, e₃⟩ : ∃ o, getText rows keyDatabaseDescription = .ok o ∧
      o.getD "" = v .databaseDescription :=
    getRow_of_rowOr (h .databaseDescription)
  obtain ⟨o₄, h₄, e₄⟩ : ∃ o, getText rows keyDefaultUsername = .ok o ∧ o.getD "" = v .defaultUsername :=
    getRow_of_rowOr (h .defaultUsername)
  obtain ⟨o₅, h₅, e₅⟩ : ∃ o, getText rows keyColor = .ok o ∧ o.getD "" = v .color :=
    getRow_of_rowOr (h .color)
  obtain ⟨o₆, h₆, e₆⟩ : ∃ o, getText rows keyHeaderHash = .ok o ∧ o.getD "" = v .headerHash :=
    getRow_of_rowOr (h .headerHash)
  obtain ⟨o₇, h₇, e₇⟩ : ∃ o, getI64 rows keyMasterKeyChangeRec = .ok o ∧
      o.getD (-1) = v .masterKeyChangeRec :=
    getRow_of_rowOr (h .masterKeyChangeRec)
  obtain ⟨o₈, h₈, e₈⟩ : ∃ o, getI64 rows keyMasterKeyChangeForce = .ok o ∧
      o.getD (-1) = v .masterKeyChangeForce :=
    getRow_of_rowOr (h .masterKeyChangeForce)
  obtain ⟨o₉, h₉, e₉⟩ : ∃ o, getI32 rows keyHistoryMaxItems = .ok o ∧ o.getD 10 = v .historyMaxItems :=
    getRow_of_rowOr (h .historyMaxItems)
  obtain ⟨o₁₀, h₁₀, e₁₀⟩ : ∃ o, getI64 rows keyHistoryMaxSize = .ok o ∧
      o.getD 6291456 = v .historyMaxSize :=
    getRow_of_rowOr (h .historyMaxSize)
  obtain ⟨o₁₁, h₁₁, e₁₁⟩ : ∃ o, getU32 rows keyMaintenanceHistoryDays = .ok o ∧
      o.getD 365 = v .maintenanceHistoryDays :=
    getRow_of_rowOr (h .maintenanceHistoryDays)
  have h₁₂ : getOptionalTimestamp rows keyDatabaseNameChanged = .ok (v .databaseNameChanged) :=
    getOptionalTimestamp_of (h .databaseNameChanged)
  have h₁₃ : getOptionalTimestamp rows keyDatabaseDescriptionChanged =
      .ok (v .databaseDescriptionChanged) :=
    getOptionalTimestamp_of (h .databaseDescriptionChanged)
  have h₁₄ : getOptionalTimestamp rows keyDefaultUsernameChanged = .ok (v .defaultUsernameChanged) :=
    getOptionalTimestamp_of (h .defaultUsernameChanged)
  have h₁₅ : getOptionalTimestamp rows keyRecycleBinChanged = .ok (v .recycleBinChanged) :=
    getOptionalTimestamp_of (h .recycleBinChanged)
  have h₁₆ : getOptionalTimestamp rows keySettingsChanged = .ok (v .settingsChanged) :=
    getOptionalTimestamp_of (h .settingsChanged)
  have h₁₇ : getOptionalTimestamp rows keyMasterKeyChanged = .ok (v .masterKeyChanged) :=
    getOptionalTimestamp_of (h .masterKeyChanged)
  obtain ⟨json, hjson, hxml⟩ := getUnknownXml_of (h .unknownXml)
  have hjson : getText rows keyUnknownXml = .ok json := hjson
  have hxml : getUnknownXml L [] json = .ok (v .unknownXml) := hxml
  have hprotection : getMemoryProtection rows {} = unpackMemoryProtection (v .memoryProtection) :=
    getMemoryProtection_of (h .memoryProtection)
  simp only [readMetaInto, h₁, h₂, h₃, h₄, h₅, h₆, h₇, h₈, h₉, h₁₀, h₁₁, h₁₂, h₁₃, h₁₄, h₁₅, h₁₆,
    h₁₇, hjson, hxml, hprotection, bind, Except.bind]
  rw [← e₁, ← e₂, ← e₃, ← e₄, ← e₅, ← e₆, ← e₇, ← e₈, ← e₉, ← e₁₀, ← e₁₁]
  rfl

/-! ## Rows that do not decode -/

/-- The error of a computation that failed. -/
def errorOf {ε α : Type} : Except ε α → Option ε
  | .ok _ => none
  | .error e => some e

theorem errorOf_eq_some {ε α : Type} {x : Except ε α} {e : ε} : errorOf x = some e ↔ x = .error e := by
  cases x <;> simp [errorOf]

/-- A computation in two parts fails with the first error. -/
theorem errorOf_bind {ε α β : Type} {x : Except ε α} {f : α → Except ε β} {first rest : Option ε}
    (hx : errorOf x = first) (hf : ∀ a, x = .ok a → errorOf (f a) = rest) :
    errorOf (x >>= f) = first.or rest := by
  subst hx
  cases x with
  | ok a => exact hf a rfl
  | error e => rfl

theorem errorOf_bind_pure {ε α β : Type} (x : Except ε α) (f : α → β) :
    errorOf (x >>= fun a => pure (f a)) = errorOf x := by
  cases x <;> rfl

theorem findSome?_cons_or {α β : Type} (f : α → Option β) (a : α) (l : List α) :
    (a :: l).findSome? f = (f a).or (l.findSome? f) := by
  rw [List.findSome?_cons]
  cases f a <;> rfl

theorem errorOf_getRow {α : Type} {decode : String → KdfGate.Blob → Except SettingError α} (key : String)
    (d : α) : errorOf (getRow decode rows key) = errorOf (rowOr decode key d (rows key)) := by
  unfold getRow
  cases rows key with
  | none => rfl
  | some bytes => cases h : decode key bytes <;> simp [rowOr, h, Except.map, errorOf]

theorem errorOf_getOptionalTimestamp (key : String) : errorOf (getOptionalTimestamp rows key) =
    errorOf (rowOr (fun key bytes => (i64Of key bytes).map msToDt) key none (rows key)) := by
  unfold getOptionalTimestamp getI64 getRow
  cases rows key with
  | none => rfl
  | some bytes => cases h : i64Of key bytes <;> simp [rowOr, h, Except.map, errorOf]

theorem errorOf_getUnknownXml {key : String} {d : List UnknownElement} :
    errorOf (getText rows key >>= getUnknownXml L d) = errorOf (rowOr (xmlOf L) key d (rows key)) := by
  unfold getText getRow
  cases rows key with
  | none => rfl
  | some bytes =>
    cases h : textOf key bytes <;>
      simp [rowOr, xmlOf, h, Except.map, bind, Except.bind, getUnknownXml]

/-- A row of another width than a byte is no error. -/
theorem errorOf_byte (key : String) (d : UInt8) (row : Option KdfGate.Blob) :
    errorOf (Kind.byte.decode L key d row) = none := by
  match row with
  | some [b] => rfl
  | none => rfl
  | some [] => rfl
  | some (_ :: _ :: _) => rfl

/-- **The read fails with the first row that does not decode**, whatever the rows are. -/
theorem errorOf_readMetaInto (rows : Rows) : errorOf (readMetaInto L rows {}) =
    MetaKey.scalars.findSome? fun k => errorOf ((metaColumns L).decode k (rows k.name)) := by
  simp only [MetaKey.scalars, findSome?_cons_or, List.findSome?_nil, Option.or_none]
  unfold readMetaInto
  iterate 6 refine errorOf_bind (errorOf_getRow _ _) fun _ _ => ?_
  iterate 6 refine errorOf_bind (errorOf_getOptionalTimestamp _) fun _ _ => ?_
  iterate 5 refine errorOf_bind (errorOf_getRow _ _) fun _ _ => ?_
  have hbyte : errorOf ((metaColumns L).decode .memoryProtection (rows keyMemoryProtection)) = none :=
    errorOf_byte _ _ _
  have hxml : errorOf (getText rows keyUnknownXml >>= getUnknownXml L []) =
      errorOf ((metaColumns L).decode .unknownXml (rows keyUnknownXml)) := errorOf_getUnknownXml
  rw [← bind_assoc]
  refine ((errorOf_bind_pure _ _).trans hxml).trans ?_
  exact (congrArg (Option.or · _) hbyte).symm

theorem rowOr_error {α : Type} {decode : String → KdfGate.Blob → Except SettingError α} {key : String}
    {d : α} {row : Option KdfGate.Blob} {e : SettingError} (h : rowOr decode key d row = .error e) :
    ∃ bytes, row = some bytes ∧ decode key bytes = .error e := by
  cases row with
  | none => cases h
  | some bytes => exact ⟨bytes, rfl, h⟩

theorem textOf_error {key : String} {bytes : KdfGate.Blob} {e : SettingError}
    (h : textOf key bytes = .error e) : e.key = key := by
  unfold textOf at h
  split at h <;> cases h
  rfl

theorem fixedWidth_error {α : Type} {type : String} {width : Nat} {read : KdfGate.Blob → α} {key : String}
    {bytes : KdfGate.Blob} {e : SettingError} (h : fixedWidth type width read key bytes = .error e) :
    e.key = key := by
  unfold fixedWidth at h
  split at h <;> cases h
  rfl

theorem xmlOf_error {bytes : KdfGate.Blob} {e : SettingError}
    (h : xmlOf L keyUnknownXml bytes = .error e) : e.key = keyUnknownXml := by
  unfold xmlOf at h
  cases htext : textOf keyUnknownXml bytes with
  | error e' =>
    rw [htext] at h
    cases h
    exact textOf_error htext
  | ok json =>
    rw [htext] at h
    cases hxml : deserialiseUnknownXml L json with
    | error cause =>
      simp only [bind, Except.bind, hxml, Except.mapError] at h
      cases h
      rfl
    | ok elements =>
      simp only [bind, Except.bind, hxml, Except.mapError] at h
      cases h

/-- What does not decode is a row, and the error names it. -/
theorem Kind.decode_error {κ : Kind} {key : String} {d : κ.Val} {row : Option KdfGate.Blob}
    {e : SettingError} (hkey : κ = .xml → key = keyUnknownXml) (h : κ.decode L key d row = .error e) :
    row.isSome ∧ e.key = key := by
  cases κ with
  | text =>
    obtain ⟨bytes, rfl, h⟩ := rowOr_error h
    exact ⟨rfl, textOf_error h⟩
  | instant =>
    have hrow : rowOr (fun key bytes => (i64Of key bytes).map msToDt) key none row = .error e := h
    obtain ⟨bytes, rfl, hbytes⟩ := rowOr_error hrow
    cases hn : i64Of key bytes with
    | ok n =>
      rw [hn] at hbytes
      cases hbytes
    | error e' =>
      rw [hn] at hbytes
      obtain rfl : e' = e := Except.error.inj hbytes
      exact ⟨rfl, fixedWidth_error hn⟩
  | i64 | i32 | u32 =>
    obtain ⟨bytes, rfl, h⟩ := rowOr_error h
    exact ⟨rfl, fixedWidth_error h⟩
  | byte =>
    have := errorOf_byte (L := L) key d row
    rw [h] at this
    cases this
  | xml =>
    obtain rfl := hkey rfl
    obtain ⟨bytes, rfl, h⟩ := rowOr_error h
    exact ⟨rfl, xmlOf_error h⟩
  | flag =>
    match row, h with
    | some [b], h => cases h
    | none, h => cases h
    | some [], h => cases h
    | some (_ :: _ :: _), h => cases h

/-- A read that fails names a row that is there and does not decode. -/
theorem readMetaInto_error {e : SettingError} (h : readMetaInto L rows {} = .error e) :
    ∃ k ∈ MetaKey.scalars, (metaColumns L).decode k (rows k.name) = .error e ∧
      (rows k.name).isSome ∧ e.key = k.name := by
  have hfirst := errorOf_readMetaInto (L := L) rows
  rw [h] at hfirst
  obtain ⟨k, hk, herror⟩ := List.exists_of_findSome?_eq_some hfirst.symm
  have hdecode := errorOf_eq_some.1 herror
  have hxml : k.kind = .xml → k.name = keyUnknownXml := by
    cases k <;> simp [MetaKey.kind, MetaKey.name]
  exact ⟨k, hk, hdecode, Kind.decode_error hxml hdecode⟩

theorem projectMeta_error {icons : List CustomIcon} {data : List CustomDataItem} {bin : Option Uuid}
    {e : SettingError} (h : projectMeta L rows icons data bin = .error e) :
    ∃ k ∈ MetaKey.scalars, (metaColumns L).decode k (rows k.name) = .error e ∧
      (rows k.name).isSome ∧ e.key = k.name := by
  unfold projectMeta at h
  cases hread : readMetaInto L rows {} with
  | error e' =>
    rw [hread] at h
    obtain rfl : e' = e := Except.error.inj h
    exact readMetaInto_error hread
  | ok v =>
    rw [hread] at h
    cases h

end Reads

/-! ## Writes -/

section Writes

variable {rows : Rows}

theorem setOptionalTimestamp_eq (key : String) (t : Option EpochMs) (rows : Rows) :
    setOptionalTimestamp key t rows =
      Function.update rows key (t.map fun t => littleEndianInt 8 t.val) := by
  cases t <;> rfl

/-- `write_meta_scalars` writes the columns in turn. -/
theorem writeMetaScalars_eq (v : Meta) (icons : Table CustomIconRow.uuid) (data : Table CustomDataRow.key) :
    writeMetaScalars L v rows =
      (metaColumns L).writeAll (scalarsOf (v.toSettings icons data)) MetaKey.scalars rows := by
  simp only [writeMetaScalars, setOptionalTimestamp_eq]
  rfl

/-- `write_meta_scalars` writes each of its columns, whatever the rows were. -/
theorem writeMetaScalars_name (v : Meta) (icons : Table CustomIconRow.uuid)
    (data : Table CustomDataRow.key) {k : MetaKey} (hk : k ≠ .recycleBinEnabled) :
    writeMetaScalars L v rows k.name = (metaColumns L).encode k (scalarsOf (v.toSettings icons data) k) := by
  rw [writeMetaScalars_eq v icons data]
  exact Columns.writeAll_name (MetaKey.mem_scalars hk) rows

theorem writeMetaScalars_other (v : Meta) {key : String} (h : ∀ k : MetaKey, key ≠ k.name) :
    writeMetaScalars L v rows key = rows key := by
  rw [writeMetaScalars_eq v .empty .empty]
  exact Columns.writeAll_other fun k _ => h k

/-- The rows of the outer header. -/
def envelopeKeys : List String :=
  [KdfGate.keyKdbxCipherOid, KdfGate.keyKdbxKdfParameters, KdfGate.keyKdbxTransformRounds]

theorem envelope_ne_name {key : String} (h : key ∈ envelopeKeys) (k : MetaKey) : key ≠ k.name := by
  revert key
  cases k <;> decide

theorem writeKdbxOuterHeaderFacts_other (header : KdfGate.OuterHeader) {key : String}
    (h : key ∉ envelopeKeys) : writeKdbxOuterHeaderFacts header rows key = rows key := by
  simp only [envelopeKeys, List.mem_cons, List.not_mem_nil, or_false, not_or] at h
  obtain ⟨hcipher, hparams, hrounds⟩ := h
  unfold writeKdbxOuterHeaderFacts
  cases header.versionFields <;>
    simp [setBlob, deleteRow, Function.update_of_ne hcipher, Function.update_of_ne hparams,
      Function.update_of_ne hrounds]

/-- The rows of the header depend on no other row. -/
theorem writeKdbxOuterHeaderFacts_congr (header : KdfGate.OuterHeader) {rows' : Rows}
    (h : ∀ key ∈ envelopeKeys, rows key = rows' key) {key : String} (hkey : key ∈ envelopeKeys) :
    writeKdbxOuterHeaderFacts header rows key = writeKdbxOuterHeaderFacts header rows' key := by
  unfold writeKdbxOuterHeaderFacts
  cases header.versionFields <;>
    simp [setBlob, deleteRow, Function.update_apply, h key hkey]

theorem clearMetaTables_envelope {key : String} (h : key ∈ envelopeKeys) :
    KdfGate.clearMetaTables rows key = rows key := by
  refine if_neg fun ⟨_, hkept⟩ => hkept ?_
  exact List.mem_cons_of_mem _ h

end Writes

/-! ## Runs -/

/-- The writers of `setting`. -/
inductive SettingsOp where
  /-- An ingest, of a vault or of a file with its header. -/
  | ingest (v : Meta) (header : Option KdfGate.OuterHeader)
  /-- A pull whose merged `Meta` is another one. -/
  | reconcile (v : Meta)
  | setRecycleBin (enabled : Bool) (now : EpochMs)
  | setHistoryMaxItems (n : Int)
  | setHistoryMaxSize (n : Int)
  | refreshFacts (header : KdfGate.OuterHeader)
  /-- A row that is not the settings': the fingerprint key, a signature, a sequence number. -/
  | otherRow (key : String) (value : Option KdfGate.Blob)
  /-- A change of the mirror outside these rows. -/
  | content (f : Mirror → Mirror)

/-- The integers of a `Meta` are of their types, and its unknown elements are read back. -/
structure InRange (L : XmlLib) (v : Meta) : Prop where
  masterKeyChangeRec : Fits 8 v.masterKeyChangeRec
  masterKeyChangeForce : Fits 8 v.masterKeyChangeForce
  historyMaxItems : Fits 4 v.historyMaxItems
  historyMaxSize : Fits 8 v.historyMaxSize
  maintenanceHistoryDays : v.maintenanceHistoryDays < 256 ^ 4
  unknownXml : L.ReadsBack v.unknownXml

namespace SettingsOp

/-- The arguments are of their types, and what is said not to be a setting is not. -/
def Typed (L : XmlLib) : SettingsOp → Prop
  | ingest v _ | reconcile v => InRange L v
  | setHistoryMaxItems n => Fits 4 n
  | setHistoryMaxSize n => Fits 8 n
  | otherRow key _ => (∀ k : MetaKey, key ≠ k.name) ∧ key ∉ envelopeKeys
  | content f => ∀ m, scalarsOf (f m).settings = scalarsOf m.settings
  | _ => True

/-- The rows an operation leaves. -/
def rows (L : XmlLib) : SettingsOp → Rows → Rows
  | ingest v header, rows =>
    let rows := writeMetaScalars L v (KdfGate.clearMetaTables rows)
    let rows := match header with
      | some header => writeKdbxOuterHeaderFacts header rows
      | none => rows
    writeRecycleBinEnabled v.recycleBinEnabled rows
  | reconcile v, rows => writeRecycleBinEnabled v.recycleBinEnabled (writeMetaScalars L v rows)
  | setRecycleBin enabled now, rows => writeRecycleBinChanged now (writeRecycleBinEnabled enabled rows)
  | setHistoryMaxItems n, rows => writeHistoryMaxItems n rows
  | setHistoryMaxSize n, rows => writeHistoryMaxSize n rows
  | refreshFacts header, rows => writeKdbxOuterHeaderFacts header rows
  | otherRow key value, rows => Function.update rows key value
  | content _, rows => rows

/-- The mirror an operation leaves. -/
def run : SettingsOp → Mirror → Mirror
  | ingest v _, m => m.writeSettings (fun s => v.toSettings s.customIcons s.customData) (metaScalarRows + 1)
  | reconcile v, m => (m.writeMetaScalars v).writeRecycleBinEnabled v.recycleBinEnabled
  | setRecycleBin enabled now, m => (m.writeRecycleBinEnabled enabled).writeRecycleBinChanged now
  | setHistoryMaxItems n, m => m.setHistoryMaxItems n
  | setHistoryMaxSize n, m => m.setHistoryMaxSize n
  | refreshFacts _, m | otherRow _ _, m => m
  | content f, m => f m

/-- The header an operation records. -/
def header : SettingsOp → Option KdfGate.OuterHeader
  | ingest _ header => header
  | refreshFacts header => some header
  | _ => none

end SettingsOp

section Run

variable {rows : Rows} {m m' : Mirror}

/-- An ingest leaves the settings `SettingsOp.run` says. -/
theorem writeMeta_scalars {vault : Vault} (header : Option KdfGate.OuterHeader)
    (h : m.writeMeta vault = .ok m') : scalarsOf m'.settings =
      scalarsOf ((SettingsOp.ingest vault.metadata header).run m).settings := by
  unfold Mirror.writeMeta at h
  obtain ⟨icons, -, h⟩ := except_bind_ok.1 h
  obtain ⟨data, -, h⟩ := except_bind_ok.1 h
  obtain ⟨tombstones, -, h⟩ := except_bind_ok.1 h
  cases h
  funext k
  cases k <;> rfl

/-- So does a change of the recycle bin. -/
theorem setRecycleBin_scalars {enabled : Bool} {g : Option Uuid} {now : EpochMs}
    (h : m.setRecycleBin enabled g now = .ok m') :
    scalarsOf m'.settings = scalarsOf ((SettingsOp.setRecycleBin enabled now).run m).settings := by
  unfold Mirror.setRecycleBin at h
  cases g with
  | none => cases h; rfl
  | some u =>
    dsimp only at h
    split at h <;> cases h
    rfl

theorem InRange.returns {v : Meta} (h : InRange L v) (icons : Table CustomIconRow.uuid)
    (data : Table CustomDataRow.key) (k : MetaKey) :
    (metaColumns L).Returns k (scalarsOf (v.toSettings icons data) k) := by
  apply MetaRows.returns
  cases k with
  | masterKeyChangeRec => exact h.masterKeyChangeRec
  | masterKeyChangeForce => exact h.masterKeyChangeForce
  | historyMaxItems => exact h.historyMaxItems
  | historyMaxSize => exact h.historyMaxSize
  | maintenanceHistoryDays => exact h.maintenanceHistoryDays
  | unknownXml => exact h.unknownXml
  | _ => trivial

/-- A `Meta` written whole and the flag of its recycle bin, whatever became of the header's rows
between. -/
theorem holds_writeMeta {v : Meta} (h : InRange L v) (rows : Rows) {rows' : Rows}
    (hrows : ∀ k : MetaKey, k ≠ .recycleBinEnabled → rows' k.name = writeMetaScalars L v rows k.name)
    (icons : Table CustomIconRow.uuid) (data : Table CustomDataRow.key) :
    (metaColumns L).Holds (writeRecycleBinEnabled v.recycleBinEnabled rows')
      (scalarsOf (v.toSettings icons data)) := by
  apply Columns.holds_of_encode _ (h.returns icons data)
  intro k
  by_cases hk : k = .recycleBinEnabled
  · subst hk
    exact Columns.write_name (C := metaColumns L) (k := .recycleBinEnabled) (a := some v.recycleBinEnabled)
      rows'
  · have hne : k.name ≠ keyRecycleBinEnabled := fun e => hk (MetaKey.name_injective e)
    refine (Function.update_of_ne hne ..).trans ?_
    exact (hrows k hk).trans (writeMetaScalars_name v icons data hk)

/-- One column written is that setting changed. -/
theorem holds_writeOne {s t : Settings} {k : MetaKey} {a : k.Val}
    (h : (metaColumns L).Holds rows (scalarsOf s)) (ha : k.kind.InRange L a)
    (ht : ∀ j, scalarsOf t j = Function.update (scalarsOf s) k a j) :
    (metaColumns L).Holds ((metaColumns L).write k a rows) (scalarsOf t) := by
  rw [show scalarsOf t = Function.update (scalarsOf s) k a from funext ht]
  exact h.write (returns ha)

/-- **A write keeps the rows in step with the settings.** -/
theorem SettingsOp.holds {op : SettingsOp} (hop : op.Typed L)
    (h : (metaColumns L).Holds rows (scalarsOf m.settings)) :
    (metaColumns L).Holds (op.rows L rows) (scalarsOf (op.run m).settings) := by
  cases op with
  | ingest v header =>
    refine holds_writeMeta hop (KdfGate.clearMetaTables rows) (fun k _ => ?_) _ _
    cases header with
    | none => rfl
    | some header =>
      exact writeKdbxOuterHeaderFacts_other header fun he => envelope_ne_name he k rfl
  | reconcile v => exact holds_writeMeta hop rows (fun k _ => rfl) _ _
  | setRecycleBin enabled now =>
    have henabled := holds_writeOne (k := .recycleBinEnabled) (a := some enabled) h trivial
      (t := { m.settings with recycleBinEnabled := some enabled }) fun j => by cases j <;> rfl
    exact holds_writeOne (k := .recycleBinChanged) (a := some now) henabled trivial
      fun j => by cases j <;> rfl
  | setHistoryMaxItems n =>
    exact holds_writeOne (k := .historyMaxItems) (a := n) h hop fun j => by cases j <;> rfl
  | setHistoryMaxSize n =>
    exact holds_writeOne (k := .historyMaxSize) (a := n) h hop fun j => by cases j <;> rfl
  | refreshFacts header =>
    exact h.other fun k => writeKdbxOuterHeaderFacts_other header fun he => envelope_ne_name he k rfl
  | otherRow key value =>
    exact h.other fun k => Function.update_of_ne (fun e => hop.1 k e.symm) ..
  | content f =>
    show (metaColumns L).Holds rows (scalarsOf (f m).settings)
    rw [show scalarsOf (f m).settings = scalarsOf m.settings from hop m]
    exact h

/-- The header's rows are those of the headers recorded: no write of a `Meta` touches them, and clearing
one keeps them. -/
theorem SettingsOp.envelope {op : SettingsOp} (hop : op.Typed L) {rows' : Rows}
    (h : ∀ key ∈ envelopeKeys, rows key = rows' key) {key : String} (hkey : key ∈ envelopeKeys) :
    op.rows L rows key = (match op.header with
      | some header => writeKdbxOuterHeaderFacts header rows'
      | none => rows') key := by
  have hscalars : ∀ (v : Meta) (before : Rows), writeMetaScalars L v before key = before key :=
    fun v before => writeMetaScalars_other v (envelope_ne_name hkey)
  have hset : ∀ (k : MetaKey) (value : Option KdfGate.Blob) (before : Rows),
      Function.update before k.name value key = before key :=
    fun k value before => Function.update_of_ne (envelope_ne_name hkey k) ..
  cases op with
  | ingest v header =>
    refine (hset .recycleBinEnabled _ _).trans ?_
    cases header with
    | none => exact (hscalars v _).trans ((clearMetaTables_envelope hkey).trans (h key hkey))
    | some header =>
      refine writeKdbxOuterHeaderFacts_congr header (fun key' hkey' => ?_) hkey
      rw [writeMetaScalars_other v (envelope_ne_name hkey'), clearMetaTables_envelope hkey']
      exact h key' hkey'
  | reconcile v => exact (hset .recycleBinEnabled _ _).trans ((hscalars v rows).trans (h key hkey))
  | setRecycleBin enabled now =>
    exact (hset .recycleBinChanged _ _).trans ((hset .recycleBinEnabled _ _).trans (h key hkey))
  | setHistoryMaxItems n => exact (hset .historyMaxItems _ _).trans (h key hkey)
  | setHistoryMaxSize n => exact (hset .historyMaxSize _ _).trans (h key hkey)
  | refreshFacts header => exact writeKdbxOuterHeaderFacts_congr header h hkey
  | otherRow name value =>
    have hne : key ≠ name := fun e => hop.2 (e ▸ hkey)
    exact (Function.update_of_ne hne ..).trans (h key hkey)
  | content f => exact h key hkey

/-- The rows after some operations, from `rows` on. -/
def rowsAfter (L : XmlLib) (ops : List SettingsOp) (rows : Rows) : Rows :=
  ops.foldl (fun rows op => op.rows L rows) rows

/-- The mirror after them. -/
def mirrorAfter (ops : List SettingsOp) (m : Mirror) : Mirror := ops.foldl (fun m op => op.run m) m

theorem holds_after {ops : List SettingsOp} (hops : ∀ op ∈ ops, op.Typed L)
    (h : (metaColumns L).Holds rows (scalarsOf m.settings)) :
    (metaColumns L).Holds (rowsAfter L ops rows) (scalarsOf (mirrorAfter ops m).settings) := by
  induction ops generalizing rows m with
  | nil => exact h
  | cons op ops ih =>
    have hop := SettingsOp.holds (hops op List.mem_cons_self) h
    exact ih (fun o ho => hops o (List.mem_cons_of_mem _ ho)) hop

theorem envelope_after {ops : List SettingsOp} (hops : ∀ op ∈ ops, op.Typed L) {rows' : Rows}
    (h : ∀ key ∈ envelopeKeys, rows key = rows' key) {key : String} (hkey : key ∈ envelopeKeys) :
    rowsAfter L ops rows key =
      (ops.filterMap (·.header)).foldl (fun rows header => writeKdbxOuterHeaderFacts header rows) rows' key := by
  induction ops generalizing rows rows' with
  | nil => exact h key hkey
  | cons op ops ih =>
    have hrest := fun o ho => hops o (List.mem_cons_of_mem _ ho)
    have hop : ∀ key ∈ envelopeKeys, op.rows L rows key = (match op.header with
        | some header => writeKdbxOuterHeaderFacts header rows'
        | none => rows') key :=
      fun key hkey => SettingsOp.envelope (hops op List.mem_cons_self) h hkey
    refine (ih hrest hop).trans ?_
    cases hheader : op.header with
    | none => rw [List.filterMap_cons_none hheader]
    | some header => rw [List.filterMap_cons_some hheader, List.foldl_cons]

/-- Rows without a setting hold the settings of a new mirror. -/
theorem holds_fresh (h : ∀ k : MetaKey, rows k.name = none) :
    (metaColumns L).Holds rows (scalarsOf {}) := by
  intro k
  have hrow : rows ((metaColumns L).name k) = none := h k
  rw [hrow]
  cases k <;> rfl

/-! ## Accessors -/

theorem loadRecycleBinEnabled_of_holds {v : ∀ k : MetaKey, k.Val} (h : (metaColumns L).Holds rows v) :
    loadRecycleBinEnabled rows = v .recycleBinEnabled := by
  have hflag : Kind.flag.decode L keyRecycleBinEnabled none (rows keyRecycleBinEnabled) =
      .ok (v .recycleBinEnabled) := h .recycleBinEnabled
  unfold loadRecycleBinEnabled
  match rows keyRecycleBinEnabled, hflag with
  | some [b], hflag => exact Except.ok.inj hflag
  | none, hflag | some [], hflag | some (_ :: _ :: _), hflag => exact Except.ok.inj hflag

end Run

end KeysCore.MetaRows

namespace KeysCore.Verify

open Lib MetaRows

/-- **The rows hold the settings.** Whatever ingests, pulls, refreshed headers and edits of the settings
have run, in any order with any other changes of the mirror and of other rows, a projection reads from the
rows the `Meta` the settings stand for, the accessors read the settings, and the rows of the outer header
are those of the headers recorded. From any other rows a projection fails only with an error that names a
row which is there and does not decode. -/
theorem setting_rows_hold {L : XmlLib} {ops : List SettingsOp} (hops : ∀ op ∈ ops, op.Typed L) {rows : Rows}
    {m : Mirror} (h : (metaColumns L).Holds rows (scalarsOf m.settings)) :
    (∀ bin, projectMeta L (rowsAfter L ops rows) ((mirrorAfter ops m).readMeta bin).customIcons
      ((mirrorAfter ops m).readMeta bin).customData bin = .ok ((mirrorAfter ops m).readMeta bin)) ∧
    readRecycleBinEnabled (rowsAfter L ops rows) (mirrorAfter ops m).recycleBinUuid =
      (mirrorAfter ops m).readRecycleBinEnabled ∧
    readHistoryMaxItems (rowsAfter L ops rows) = .ok (mirrorAfter ops m).settings.historyMaxItems ∧
    readHistoryMaxSize (rowsAfter L ops rows) = .ok (mirrorAfter ops m).settings.historyMaxSize ∧
    (∀ key ∈ envelopeKeys, rowsAfter L ops rows key = (ops.filterMap (·.header)).foldl
      (fun facts header => writeKdbxOuterHeaderFacts header facts) rows key) ∧
    ∀ stored icons data bin e, projectMeta L stored icons data bin = .error e →
      ∃ k ∈ MetaKey.scalars, (metaColumns L).decode k (stored k.name) = .error e ∧
        (stored k.name).isSome ∧ e.key = k.name := by
  have hafter := holds_after hops h
  have hflag : loadRecycleBinEnabled (rowsAfter L ops rows) = (mirrorAfter ops m).settings.recycleBinEnabled :=
    loadRecycleBinEnabled_of_holds hafter
  refine ⟨fun bin => ?_, ?_, ?_, ?_, fun key hkey => envelope_after hops (fun _ _ => rfl) hkey,
    fun stored icons data bin e he => projectMeta_error he⟩
  · unfold projectMeta
    rw [readMetaInto_of_holds hafter, hflag]
    rfl
  · unfold readRecycleBinEnabled Mirror.readRecycleBinEnabled
    rw [hflag]
    cases (mirrorAfter ops m).settings.recycleBinEnabled <;> rfl
  · obtain ⟨o, ho, hv⟩ : ∃ o, getI32 (rowsAfter L ops rows) keyHistoryMaxItems = .ok o ∧
        o.getD 10 = (mirrorAfter ops m).settings.historyMaxItems := getRow_of_rowOr (hafter .historyMaxItems)
    rw [readHistoryMaxItems, ho]
    exact congrArg Except.ok hv
  · obtain ⟨o, ho, hv⟩ : ∃ o, getI64 (rowsAfter L ops rows) keyHistoryMaxSize = .ok o ∧
        o.getD 6291456 = (mirrorAfter ops m).settings.historyMaxSize :=
      getRow_of_rowOr (hafter .historyMaxSize)
    rw [readHistoryMaxSize, ho]
    exact congrArg Except.ok hv

/-- A library as it is on an empty list. -/
def emptyXml : XmlLib where
  toJson _ := "[]"
  fromJson _ := .ok []
  encode64 _ := ""
  decode64 _ := .ok []

/-- A new mirror. -/
def unfilledMirror : Mirror where
  groups := .empty
  fkParent _ hg := absurd hg List.not_mem_nil
  fkGroup _ he := absurd he List.not_mem_nil

/-- An ingest from a file, then the cap on the history lowered, with a fingerprint key stored between. -/
def cappedOps : List SettingsOp :=
  [.ingest { databaseName := "Home" } (some ⟨[7], .v4 [1]⟩), .otherRow "fingerprint_key" (some [9]),
    .setHistoryMaxItems 3]

theorem cappedOps_typed : ∀ op ∈ cappedOps, op.Typed emptyXml := by
  have hmeta : InRange emptyXml { databaseName := "Home" } :=
    ⟨by decide, by decide, by decide, by decide, by decide, ⟨rfl, by simp⟩⟩
  have hkey : SettingsOp.Typed emptyXml (.otherRow "fingerprint_key" (some [9])) :=
    ⟨fun k => by cases k <;> decide, by decide⟩
  have hcap : SettingsOp.Typed emptyXml (.setHistoryMaxItems 3) := by
    show Fits 4 3
    decide
  simp only [cappedOps, List.forall_mem_cons]
  exact ⟨hmeta, hkey, hcap, by simp⟩

theorem setting_rows_hold_capped :
    readHistoryMaxItems (rowsAfter emptyXml cappedOps fun _ => none) = .ok 3 ∧
      rowsAfter emptyXml cappedOps (fun _ => none) KdfGate.keyKdbxCipherOid = some [7] := by
  have hfresh : (metaColumns emptyXml).Holds (fun _ => none) (scalarsOf unfilledMirror.settings) :=
    holds_fresh fun _ => rfl
  have h := setting_rows_hold cappedOps_typed hfresh
  obtain ⟨-, -, hitems, -, hfacts, -⟩ := h
  exact ⟨hitems, (hfacts _ (by decide)).trans (by decide)⟩

end KeysCore.Verify
