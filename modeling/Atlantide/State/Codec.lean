import Atlantide.State.Journal

/-! # How state is stored

One JSON document holds a whole state, one holds a journal entry, and a row of columns holds a node.
What JSON and gzip do is left to two parameters. Every reader takes what its writer made, and fields
that older files lack get their defaults. -/

namespace Atlantide

abbrev Bytes := List UInt8

/-- JSON as the codec uses it: `compact` and `loads` with sorted keys, `dump` and `validate` by the
validator of the row types. -/
structure Json where
  compact : Value → Bytes
  loads : Bytes → Option Value
  dump : Value → Bytes
  validate : Bytes → Option Value

/-- The readers read back what the writers make of the value. -/
structure Json.Inverse (json : Json) (value : Value) : Prop where
  loads_compact : json.loads (json.compact value) = some value
  loads_dump : json.loads (json.dump value) = some value
  validate_dump : json.validate (json.dump value) = some value

/-- An object's text starts with a brace. -/
def Json.Braced (json : Json) : Prop :=
  ∀ fields, (json.compact (.dict fields)).head? = some 0x7b

structure Gzip where
  compress : Bytes → Bytes
  decompress : Bytes → Option Bytes

def gzipMagic : Bytes := [0x1f, 0x8b]

structure Gzip.Lawful (gzip : Gzip) : Prop where
  decompress_compress : ∀ raw, gzip.decompress (gzip.compress raw) = some raw
  magic : ∀ raw, (gzip.compress raw).take 2 = gzipMagic

inductive CodecError
  | gzip
  | corruptState
  | corruptEntry
  | newerFormat (version : Int)
  | otherFormat (version : Option Value)
  | journalFormat (format : Option Value)
  | entryVersion (version : Option Value)
  | missingColumn (column : String)
  | corruptRow
  deriving DecidableEq

/-! ## Plain JSON and back -/

namespace Value

def ofDict {V : Type} (image : V → Value) (entries : Dict String V) : Value :=
  .dict (entries.toList.map fun entry => (entry.1, image entry.2))

def ofStrings (items : List String) : Value := .list (items.map .str)

def asString : Value → Option String
  | .str text => some text
  | _ => none

def asInt : Value → Option Int
  | .int number => some number
  | _ => none

def asNat : Value → Option Nat
  | .int (.ofNat number) => some number
  | _ => none

def asDict {V : Type} (read : Value → Option V) : Value → Option (Dict String V)
  | .dict fields =>
    (fields.mapM fun field => (read field.2).map (field.1, ·)).map (Std.ExtTreeMap.ofList · compare)
  | _ => none

def asStrings : Value → Option (List String)
  | .list items => items.mapM asString
  | _ => none

/-- Python's `==` with an integer, where `True` is `1` and a float may be whole. -/
def equalsInt (number : Int) : Value → Bool
  | .int other => other = number
  | .bool other => (if other then 1 else 0) = number
  | .float repr => repr = toString number ++ ".0"
  | _ => false

theorem mapM_map_some {α β γ : Type} {image : α → β} {read : β → Option γ} {back : α → γ}
    (hread : ∀ value, read (image value) = some (back value)) (values : List α) :
    (values.map image).mapM read = some (values.map back) := by
  induction values with
  | nil => rfl
  | cons value values ih =>
    rw [List.map_cons, List.mapM_cons, hread, ih]
    rfl

theorem asDict_ofDict {V : Type} {image : V → Value} {read : Value → Option V}
    (hread : ∀ value, read (image value) = some value) (entries : Dict String V) :
    asDict read (ofDict image entries) = some entries := by
  have hentries : (entries.toList.map fun entry => (entry.1, image entry.2)).mapM
      (fun field => (read field.2).map (field.1, ·)) = some (entries.toList.map id) :=
    mapM_map_some (fun entry => by rw [hread]; rfl) _
  rw [ofDict, asDict, hentries, List.map_id, Option.map_some, ofList_toList]

theorem asDict_values (values : Dict String Value) :
    asDict some (ofDict (fun value => value) values) = some values :=
  asDict_ofDict (fun _ => rfl) values

theorem asDict_strings (texts : Dict String String) :
    asDict asString (ofDict .str texts) = some texts :=
  @asDict_ofDict _ Value.str asString (fun _ => rfl) texts

theorem asDict_ints (numbers : Dict String Int) : asDict asInt (ofDict .int numbers) = some numbers :=
  @asDict_ofDict _ Value.int asInt (fun _ => rfl) numbers

theorem asStrings_ofStrings (items : List String) : asStrings (ofStrings items) = some items := by
  have hitems : (items.map Value.str).mapM asString = some (items.map id) :=
    @mapM_map_some _ _ _ Value.str asString id (fun _ => rfl) items
  rw [ofStrings, asStrings, hitems, List.map_id]

end Value

/-! ## Nodes -/

def NodeStatus.text : NodeStatus → String
  | created => "created"
  | creating => "creating"

def NodeStatus.ofText : String → Option NodeStatus
  | "created" => some created
  | "creating" => some creating
  | _ => none

/-- A field's value as `read` takes it, or its default where the object lacks it. -/
def optionalField {V : Type} (fields : List (String × Value)) (key : String) (default : V)
    (read : Value → Option V) : Option V :=
  match fields.lookup key with
  | none => some default
  | some value => read value

namespace StateNode

def toValue (node : StateNode) : Value :=
  .dict [("dependencies", .ofStrings node.dependencies), ("depends_on", .ofStrings node.dependsOn),
    ("id", .str node.id), ("input_hash", .str node.inputHash), ("outputs", .ofDict (fun value => value) node.outputs),
    ("prevent_destroy", .bool node.preventDestroy), ("properties", .ofDict (fun value => value) node.properties),
    ("provider", .str node.provider), ("provider_version", .str node.providerVersion),
    ("ref_digests", .ofDict .str node.refDigests),
    ("secret_digests", .ofDict .str node.secretDigests), ("status", .str node.status.text),
    ("type", .str node.type)]

/-- What the validator makes of a stored node; `lax` is what it makes of a truth value of another
type. -/
def ofValue (lax : Value → Option Bool) : Value → Option StateNode
  | .dict fields => do
    let id ← (← fields.lookup "id").asString
    let type ← (← fields.lookup "type").asString
    let provider ← (← fields.lookup "provider").asString
    let providerVersion ← (← fields.lookup "provider_version").asString
    let inputHash ← (← fields.lookup "input_hash").asString
    let outputs ← optionalField fields "outputs" ∅ (Value.asDict some)
    let properties ← optionalField fields "properties" ∅ (Value.asDict some)
    let dependencies ← optionalField fields "dependencies" [] Value.asStrings
    let preventDestroy ← optionalField fields "prevent_destroy" false fun
      | .bool value => some value
      | other => lax other
    let status ← optionalField fields "status" .created fun value =>
      value.asString.bind NodeStatus.ofText
    let secretDigests ← optionalField fields "secret_digests" ∅ (Value.asDict Value.asString)
    let refDigests ← optionalField fields "ref_digests" ∅ (Value.asDict Value.asString)
    let dependsOn ← optionalField fields "depends_on" [] Value.asStrings
    pure { id, type, provider, providerVersion, inputHash, outputs, properties, dependencies,
           preventDestroy, status, secretDigests, refDigests, dependsOn }
  | _ => none

theorem ofValue_toValue (lax : Value → Option Bool) (node : StateNode) :
    ofValue lax node.toValue = some node := by
  have hstatus : NodeStatus.ofText node.status.text = some node.status := by
    cases node.status <;> rfl
  simp [ofValue, toValue, optionalField, List.lookup_cons, Value.asString, hstatus, Value.asDict_values,
    Value.asDict_strings, Value.asStrings_ofStrings]

end StateNode

/-! ## Documents -/

def snapshotVersion : Int := 3

def journalFormat : Int := 1

def entryVersion : Int := 1

/-- A whole state as one value, with its journal's epoch by name. -/
structure StoredDocument where
  serial : Int := 0
  nodes : Dict String StateNode := ∅
  outputs : Dict String Value := ∅
  version : Int := snapshotVersion
  fences : Dict String Int := ∅
  maxFence : Int := 0
  wm : Dict String Int := ∅
  owm : Dict String Int := ∅
  gen : Int := 0
  epoch : String := ""

namespace Gzip

variable (gzip : Gzip)

/-- Compresses what is at least `compressOver` bytes long. -/
def compressed (compressOver : Nat) (raw : Bytes) : Bytes :=
  if raw.length < compressOver then raw else gzip.compress raw

def decompressed (raw : Bytes) : Except CodecError Bytes :=
  if raw.take 2 ≠ gzipMagic then .ok raw
  else match gzip.decompress raw with
    | some found => .ok found
    | none => .error .gzip

/-- Text in braces comes back from either side of the threshold. -/
theorem decompressed_compressed {gzip : Gzip} (hgzip : gzip.Lawful) (compressOver : Nat)
    {raw : Bytes} (hbrace : raw.head? = some 0x7b) :
    gzip.decompressed (gzip.compressed compressOver raw) = .ok raw := by
  unfold compressed decompressed
  split
  next =>
    rw [if_pos]
    intro hmagic
    match raw, hbrace with
    | first :: rest, hbrace =>
      rw [List.head?_cons, Option.some.injEq] at hbrace
      subst hbrace
      exact absurd (List.cons.inj hmagic).1 (by decide)
  next =>
    rw [if_neg (by rw [hgzip.magic]; exact fun hne => hne rfl), hgzip.decompress_compress]

end Gzip

namespace StoredDocument

variable (json : Json)

def nodesValue (doc : StoredDocument) : Value := .ofDict StateNode.toValue doc.nodes

def outputsValue (doc : StoredDocument) : Value := .ofDict (fun value => value) doc.outputs

def fields (doc : StoredDocument) (nodes outputs : Value) : List (String × Value) :=
  [("fences", .ofDict .int doc.fences), ("gen", .int doc.gen),
    ("journal", .dict [("epoch", .str doc.epoch), ("format", .int journalFormat)]),
    ("max_fence", .int doc.maxFence), ("nodes", nodes), ("outputs", outputs),
    ("owm", .ofDict .int doc.owm), ("serial", .int doc.serial), ("version", .int doc.version),
    ("wm", .ofDict .int doc.wm)]

def dumps (doc : StoredDocument) : Option Bytes := do
  let nodes ← json.loads (json.dump doc.nodesValue)
  let outputs ← json.loads (json.dump doc.outputsValue)
  pure (json.compact (.dict (doc.fields nodes outputs)))

/-- The document an object of this format holds. -/
def ofFields (lax : Value → Option Bool) (fields journal : List (String × Value)) :
    Option StoredDocument := do
  let serial ← (← fields.lookup "serial").asInt
  let nodes ← optionalField fields "nodes" ∅ (Value.asDict (StateNode.ofValue lax))
  let outputs ← optionalField fields "outputs" ∅ (Value.asDict some)
  let fences ← optionalField fields "fences" ∅ (Value.asDict Value.asInt)
  let maxFence ← optionalField fields "max_fence" 0 Value.asInt
  let wm ← optionalField fields "wm" ∅ (Value.asDict Value.asInt)
  let owm ← optionalField fields "owm" ∅ (Value.asDict Value.asInt)
  let gen ← optionalField fields "gen" 0 Value.asInt
  let epoch ← optionalField journal "epoch" "" Value.asString
  pure { serial, nodes, outputs, fences, maxFence, wm, owm, gen, epoch }

/-- Reads a document, of this build's format only. -/
def loads (lax : Value → Option Bool) (raw : Bytes) : Except CodecError StoredDocument :=
  match json.loads raw with
  | some (.dict fields) =>
    match fields.lookup "version" with
    | some (.bool version) => .error (.otherFormat (some (.bool version)))
    | version =>
      if (version.bind Value.asInt).any (snapshotVersion < ·) then
        .error (.newerFormat ((version.bind Value.asInt).getD 0))
      else if version.any (Value.equalsInt snapshotVersion) then
        match (fields.lookup "journal").getD (.dict []) with
        | .dict journal =>
          if (journal.lookup "format").all (Value.equalsInt journalFormat) then
            match ofFields lax fields journal with
            | some doc => .ok doc
            | none => .error .corruptState
          else .error (.journalFormat (journal.lookup "format"))
        | _ => .error .corruptState
      else .error (.otherFormat version)
  | _ => .error .corruptState

variable (gzip : Gzip)

/-- Compressed from `compressOver` bytes on. -/
def encode (compressOver : Nat) (doc : StoredDocument) : Option Bytes :=
  (doc.dumps json).map (gzip.compressed compressOver)

def decode (lax : Value → Option Bool) (raw : Bytes) : Except CodecError StoredDocument :=
  gzip.decompressed raw >>= loads json lax

/-- The values JSON carries for the document. -/
def values (doc : StoredDocument) : List Value :=
  [doc.nodesValue, doc.outputsValue, .dict (doc.fields doc.nodesValue doc.outputsValue)]

variable {json : Json} {gzip : Gzip} {doc : StoredDocument}

theorem dumps_eq (hjson : ∀ value ∈ doc.values, json.Inverse value) :
    doc.dumps json = some (json.compact (.dict (doc.fields doc.nodesValue doc.outputsValue))) := by
  have hnodes := (hjson doc.nodesValue (by simp [values])).loads_dump
  have houtputs := (hjson doc.outputsValue (by simp [values])).loads_dump
  rw [dumps, hnodes, houtputs]
  rfl

theorem ofFields_fields (lax : Value → Option Bool) (hversion : doc.version = snapshotVersion) :
    ofFields lax (doc.fields doc.nodesValue doc.outputsValue)
      [("epoch", .str doc.epoch), ("format", .int journalFormat)] = some doc := by
  have hnodes : Value.asDict (StateNode.ofValue lax) doc.nodesValue = some doc.nodes :=
    Value.asDict_ofDict (StateNode.ofValue_toValue lax) _
  have houtputs : Value.asDict some doc.outputsValue = some doc.outputs := Value.asDict_values _
  simp [ofFields, fields, optionalField, List.lookup_cons, Value.asInt, Value.asString, hnodes, houtputs,
    Value.asDict_ints, ← hversion]

theorem loads_compact (lax : Value → Option Bool) (hversion : doc.version = snapshotVersion)
    (hjson : ∀ value ∈ doc.values, json.Inverse value) :
    loads json lax (json.compact (.dict (doc.fields doc.nodesValue doc.outputsValue))) = .ok doc := by
  have hpayload := (hjson (.dict (doc.fields doc.nodesValue doc.outputsValue))
    (by simp [values])).loads_compact
  have hfound : (doc.fields doc.nodesValue doc.outputsValue).lookup "version" =
      some (.int doc.version) := by simp [fields, List.lookup_cons]
  have hjournal : (doc.fields doc.nodesValue doc.outputsValue).lookup "journal" =
      some (.dict [("epoch", .str doc.epoch), ("format", .int journalFormat)]) := by
    simp [fields, List.lookup_cons]
  have hformat : ([("epoch", Value.str doc.epoch), ("format", .int journalFormat)]).lookup "format" =
      some (.int journalFormat) := by simp [List.lookup_cons]
  simp only [loads, hpayload, hfound, hjournal, hformat, hversion, Option.bind_some, Value.asInt,
    Option.any_some, Option.all_some, Option.getD_some, Value.equalsInt, Int.lt_irrefl, decide_false,
    decide_true, if_true, Bool.false_eq_true, if_false, ofFields_fields lax hversion]

/-- A document of another format is refused. -/
theorem loads_other (lax : Value → Option Bool) (hversion : doc.version ≠ snapshotVersion)
    (hjson : ∀ value ∈ doc.values, json.Inverse value) :
    ∃ error, loads json lax (json.compact (.dict (doc.fields doc.nodesValue doc.outputsValue))) =
      .error error := by
  have hpayload := (hjson (.dict (doc.fields doc.nodesValue doc.outputsValue))
    (by simp [values])).loads_compact
  have hfound : (doc.fields doc.nodesValue doc.outputsValue).lookup "version" =
      some (.int doc.version) := by simp [fields, List.lookup_cons]
  simp only [loads, hpayload, hfound, Option.bind_some, Value.asInt, Option.any_some,
    Option.getD_some, Value.equalsInt, hversion, decide_false, Bool.false_eq_true, if_false]
  split
  · exact ⟨_, rfl⟩
  · exact ⟨_, rfl⟩

/-- **A document comes back as it was.** -/
theorem decode_encode (lax : Value → Option Bool) (compressOver : Nat) (hbraced : json.Braced)
    (hgzip : gzip.Lawful) (hversion : doc.version = snapshotVersion)
    (hjson : ∀ value ∈ doc.values, json.Inverse value) :
    ∃ raw, doc.encode json gzip compressOver = some raw ∧ decode json gzip lax raw = .ok doc := by
  refine ⟨_, by rw [encode, dumps_eq hjson, Option.map_some], ?_⟩
  rw [decode, Gzip.decompressed_compressed hgzip compressOver (hbraced _)]
  exact loads_compact lax hversion hjson

end StoredDocument

/-! ## Journal entries -/

def EntryKind.ofSegment : String → Option EntryKind
  | "log" => some node
  | "out" => some output
  | _ => none

def EntryOp.text : EntryOp → String
  | put => "put"
  | delete => "delete"

def EntryOp.ofText : String → Option EntryOp
  | "put" => some put
  | "delete" => some delete
  | _ => none

/-- What `read` makes of a field that may be absent or null. -/
def nullableField {V : Type} (fields : List (String × Value)) (key : String)
    (read : Value → Option V) : Option (Option V) :=
  match fields.lookup key with
  | none | some .null => some none
  | some value => (read value).map some

namespace JournalEntry

variable (json : Json)

def recordValue (entry : JournalEntry) : Value := entry.record.elim .null StateNode.toValue

def outputsValue (entry : JournalEntry) : Value :=
  entry.outputs.elim .null (.ofDict fun value => value)

def fields (entry : JournalEntry) (record outputs : Value) : List (String × Value) :=
  [("fence", .int entry.fence), ("kind", .str entry.kind.segment), ("name", .str entry.name),
    ("op", .str entry.op.text), ("outputs", outputs), ("owner", .str entry.owner),
    ("record", record), ("seq", .int entry.seq), ("v", .int entryVersion)]

/-- `None`, or what the validator's text of it parses to. -/
def dumped {V : Type} (image : V → Value) : Option V → Option Value
  | none => some .null
  | some value => json.loads (json.dump (image value))

def encode (gzip : Gzip) (compressOver : Nat) (entry : JournalEntry) : Option Bytes := do
  let record ← dumped json StateNode.toValue entry.record
  let outputs ← dumped json (.ofDict fun value => value) entry.outputs
  pure (gzip.compressed compressOver (json.compact (.dict (entry.fields record outputs))))

def ofFields (lax : Value → Option Bool) (fields : List (String × Value)) : Option JournalEntry := do
  let kind ← (← (← fields.lookup "kind").asString) |> EntryKind.ofSegment
  let op ← (← (← fields.lookup "op").asString) |> EntryOp.ofText
  let name ← (← fields.lookup "name").asString
  let seq ← (← fields.lookup "seq").asNat
  let fence ← (← fields.lookup "fence").asNat
  let owner ← optionalField fields "owner" "" Value.asString
  let record ← nullableField fields "record" (StateNode.ofValue lax)
  let outputs ← nullableField fields "outputs" (Value.asDict some)
  pure { kind, name, seq, fence, op, owner, record, outputs }

def decode (gzip : Gzip) (lax : Value → Option Bool) (raw : Bytes) :
    Except CodecError JournalEntry :=
  gzip.decompressed raw >>= fun text =>
    match json.loads text with
    | some (.dict fields) =>
      if (fields.lookup "v").any (Value.equalsInt entryVersion) then
        match ofFields lax fields with
        | some entry => .ok entry
        | none => .error .corruptEntry
      else .error (.entryVersion (fields.lookup "v"))
    | _ => .error .corruptEntry

/-- The values JSON carries for the entry. -/
def values (entry : JournalEntry) : List Value :=
  [entry.recordValue, entry.outputsValue,
    .dict (entry.fields entry.recordValue entry.outputsValue)]

variable {json : Json} {gzip : Gzip} {entry : JournalEntry}

theorem ofFields_fields (lax : Value → Option Bool) :
    ofFields lax (entry.fields entry.recordValue entry.outputsValue) = some entry := by
  obtain ⟨kind, name, seq, fence, op, owner, record, outputs⟩ := entry
  have hkind : EntryKind.ofSegment kind.segment = some kind := by cases kind <;> rfl
  have hop : EntryOp.ofText op.text = some op := by cases op <;> rfl
  have hrecord : ∀ fields : List (String × Value),
      fields.lookup "record" = some (record.elim .null StateNode.toValue) →
        nullableField fields "record" (StateNode.ofValue lax) = some record := by
    intro fields hfound
    cases record with
    | none => rw [nullableField, hfound]; rfl
    | some node =>
      have hnode := StateNode.ofValue_toValue lax node
      rw [nullableField, hfound]
      change (StateNode.ofValue lax node.toValue).map some = _
      rw [hnode, Option.map_some]
  have houtputs : ∀ fields : List (String × Value),
      fields.lookup "outputs" = some (outputs.elim .null (.ofDict fun value => value)) →
        nullableField fields "outputs" (Value.asDict some) = some outputs := by
    intro fields hfound
    cases outputs with
    | none => rw [nullableField, hfound]; rfl
    | some values =>
      have hvalues := Value.asDict_values values
      rw [nullableField, hfound]
      change (Value.asDict some (Value.ofDict (fun value => value) values)).map some = _
      rw [hvalues, Option.map_some]
  unfold ofFields
  rw [hrecord _ (by simp [JournalEntry.fields, recordValue, List.lookup_cons]),
    houtputs _ (by simp [JournalEntry.fields, outputsValue, List.lookup_cons])]
  simp [JournalEntry.fields, optionalField, List.lookup_cons, Value.asString, Value.asNat, hkind, hop]

theorem encode_eq (compressOver : Nat) (hjson : ∀ value ∈ entry.values, json.Inverse value) :
    entry.encode json gzip compressOver = some (gzip.compressed compressOver
      (json.compact (.dict (entry.fields entry.recordValue entry.outputsValue)))) := by
  have hrecord : dumped json StateNode.toValue entry.record = some entry.recordValue := by
    have hinverse := (hjson entry.recordValue (by simp [values])).loads_dump
    unfold recordValue at hinverse ⊢
    cases hfound : entry.record with
    | none => rfl
    | some node =>
      rw [hfound] at hinverse
      exact hinverse
  have houtputs : dumped json (.ofDict fun value => value) entry.outputs =
      some entry.outputsValue := by
    have hinverse := (hjson entry.outputsValue (by simp [values])).loads_dump
    unfold outputsValue at hinverse ⊢
    cases hfound : entry.outputs with
    | none => rfl
    | some found =>
      rw [hfound] at hinverse
      exact hinverse
  rw [encode, hrecord, houtputs]
  rfl

/-- **An entry comes back as it was.** -/
theorem decode_encode (lax : Value → Option Bool) (compressOver : Nat) (hbraced : json.Braced)
    (hgzip : gzip.Lawful) (hjson : ∀ value ∈ entry.values, json.Inverse value) :
    ∃ raw, entry.encode json gzip compressOver = some raw ∧ decode json gzip lax raw = .ok entry := by
  refine ⟨_, encode_eq compressOver hjson, ?_⟩
  have hpayload := (hjson (.dict (entry.fields entry.recordValue entry.outputsValue))
    (by simp [values])).loads_compact
  have hversion : (entry.fields entry.recordValue entry.outputsValue).lookup "v" =
      some (.int entryVersion) := by simp [JournalEntry.fields, List.lookup_cons]
  rw [decode, Gzip.decompressed_compressed hgzip compressOver (hbraced _)]
  change (match json.loads _ with | some (.dict fields) => _ | _ => _) = _
  rw [hpayload]
  dsimp only
  rw [hversion, ofFields_fields]
  rfl

end JournalEntry

/-! ## Rows -/

/-- A column's value. JSON text is kept apart from other text. -/
inductive Cell
  | null
  | bool (value : Bool)
  | int (value : Int)
  | text (value : String)
  | json (value : Bytes)
  deriving DecidableEq

/-- Python's truth of a column's value. -/
def Cell.truthy : Cell → Bool
  | null => false
  | bool value => value
  | int value => value ≠ 0
  | text value => value ≠ ""
  | json value => value ≠ []

/-- What the databases keep of a value: sqlite has no booleans. -/
inductive Database
  | sqlite
  | postgres

def Database.kept : Database → Cell → Cell
  | sqlite, .bool value => .int (if value then 1 else 0)
  | _, cell => cell

/-- A row, by column name; `none` for a column it lacks. -/
abbrev Row := String → Option Cell

def nodeColumnNames : List String :=
  ["id", "type", "provider", "provider_version", "input_hash", "outputs_json", "properties_json",
    "deps_json", "prevent_destroy", "status", "secret_digests_json", "ref_digests_json",
    "depends_on_json"]

/-- The row that the listed values make. -/
def rowOf (database : Database) (cells : List Cell) : Row := fun column =>
  (nodeColumnNames.zip (cells.map database.kept)).lookup column

namespace StateNode

variable (json : Json)

def columns (node : StateNode) : List Cell :=
  [.text node.id, .text node.type, .text node.provider, .text node.providerVersion,
    .text node.inputHash, .json (json.dump (.ofDict (fun value => value) node.outputs)),
    .json (json.dump (.ofDict (fun value => value) node.properties)),
    .json (json.dump (.ofStrings node.dependencies)), .bool node.preventDestroy,
    .text node.status.text, .json (json.dump (.ofDict .str node.secretDigests)),
    .json (json.dump (.ofDict .str node.refDigests)), .json (json.dump (.ofStrings node.dependsOn))]

def textColumn (row : Row) (column : String) : Except CodecError String :=
  match row column with
  | none => .error (.missingColumn column)
  | some (.text value) => .ok value
  | some _ => .error .corruptRow

def jsonColumn {V : Type} (row : Row) (column : String) (read : Value → Option V) :
    Except CodecError V :=
  match row column with
  | none => .error (.missingColumn column)
  | some (.json raw) =>
    match (json.validate raw).bind read with
    | some value => .ok value
    | none => .error .corruptRow
  | some _ => .error .corruptRow

/-- A column that older rows lack. -/
def optionalColumn {V : Type} (row : Row) (column : String) (empty : V) (read : Value → Option V) :
    Except CodecError V :=
  match row column with
  | none | some .null => .ok empty
  | some _ => jsonColumn json row column read

def flagColumn (row : Row) (column : String) : Except CodecError Bool :=
  match row column with
  | some cell => .ok cell.truthy
  | none => .error (.missingColumn column)

def statusColumn (row : Row) : Except CodecError NodeStatus := do
  match NodeStatus.ofText (← textColumn row "status") with
  | some status => .ok status
  | none => .error .corruptRow

def ofRow (row : Row) : Except CodecError StateNode := do
  let id ← textColumn row "id"
  let type ← textColumn row "type"
  let provider ← textColumn row "provider"
  let providerVersion ← textColumn row "provider_version"
  let inputHash ← textColumn row "input_hash"
  let outputs ← jsonColumn json row "outputs_json" (Value.asDict some)
  let properties ← jsonColumn json row "properties_json" (Value.asDict some)
  let dependencies ← jsonColumn json row "deps_json" Value.asStrings
  let preventDestroy ← flagColumn row "prevent_destroy"
  let status ← statusColumn row
  let secretDigests ← jsonColumn json row "secret_digests_json" (Value.asDict Value.asString)
  let refDigests ← jsonColumn json row "ref_digests_json" (Value.asDict Value.asString)
  let dependsOn ← optionalColumn json row "depends_on_json" [] Value.asStrings
  pure { id, type, provider, providerVersion, inputHash, outputs, properties, dependencies,
         preventDestroy, status, secretDigests, refDigests, dependsOn }

/-- The values JSON carries for the row. -/
def columnValues (node : StateNode) : List Value :=
  [.ofDict (fun value => value) node.outputs, .ofDict (fun value => value) node.properties,
    .ofStrings node.dependencies, .ofDict .str node.secretDigests, .ofDict .str node.refDigests,
    .ofStrings node.dependsOn]

variable {json : Json} {node : StateNode}

theorem jsonColumn_eq {V : Type} {row : Row} {column : String} {value : Value}
    {read : Value → Option V} {found : V} (hcell : row column = some (.json (json.dump value)))
    (hinverse : json.Inverse value) (hread : read value = some found) :
    jsonColumn json row column read = .ok found := by
  rw [jsonColumn, hcell]
  dsimp only
  rw [hinverse.validate_dump, Option.bind_some, hread]

/-- **A row comes back as the node it was made of.** -/
theorem ofRow_columns (database : Database)
    (hjson : ∀ value ∈ node.columnValues, json.Inverse value) :
    ofRow json (rowOf database (node.columns json)) = .ok node := by
  have htext : ∀ column value, rowOf database (node.columns json) column = some (.text value) →
      textColumn (rowOf database (node.columns json)) column = .ok value := by
    intro column value hfound
    rw [textColumn, hfound]
  have hid := htext "id" node.id (by cases database <;> rfl)
  have htype := htext "type" node.type (by cases database <;> rfl)
  have hprovider := htext "provider" node.provider (by cases database <;> rfl)
  have hversion := htext "provider_version" node.providerVersion (by cases database <;> rfl)
  have hhash := htext "input_hash" node.inputHash (by cases database <;> rfl)
  have hstatus : statusColumn (rowOf database (node.columns json)) = .ok node.status := by
    rw [statusColumn, htext "status" node.status.text (by cases database <;> rfl)]
    cases node.status <;> rfl
  have hflag : flagColumn (rowOf database (node.columns json)) "prevent_destroy" =
      .ok node.preventDestroy := by
    cases database
    · change Except.ok (Cell.int (if node.preventDestroy then 1 else 0)).truthy = _
      cases node.preventDestroy <;> rfl
    · rfl
  simp only [columnValues, List.forall_mem_cons] at hjson
  obtain ⟨houtputs, hproperties, hdeps, hsecret, href, hordering, -⟩ := hjson
  have hcolumn : ∀ {V : Type} (column : String) (value : Value) (read : Value → Option V) (found : V),
      rowOf database (node.columns json) column = some (.json (json.dump value)) →
        json.Inverse value → read value = some found →
          jsonColumn json (rowOf database (node.columns json)) column read = .ok found :=
    fun _ _ _ _ => jsonColumn_eq
  have houtputs' := hcolumn "outputs_json" _ _ _ (by cases database <;> rfl) houtputs
    (Value.asDict_values _)
  have hproperties' := hcolumn "properties_json" _ _ _ (by cases database <;> rfl) hproperties
    (Value.asDict_values _)
  have hdeps' := hcolumn "deps_json" _ _ _ (by cases database <;> rfl) hdeps
    (Value.asStrings_ofStrings _)
  have hsecret' := hcolumn "secret_digests_json" _ _ _ (by cases database <;> rfl) hsecret
    (Value.asDict_strings _)
  have href' := hcolumn "ref_digests_json" _ _ _ (by cases database <;> rfl) href
    (Value.asDict_strings _)
  have hordering' : optionalColumn json (rowOf database (node.columns json)) "depends_on_json" []
      Value.asStrings = .ok node.dependsOn := by
    have hfound : rowOf database (node.columns json) "depends_on_json" =
        some (.json (json.dump (.ofStrings node.dependsOn))) := by cases database <;> rfl
    rw [optionalColumn, hfound]
    exact hcolumn "depends_on_json" _ _ _ hfound hordering (Value.asStrings_ofStrings _)
  rw [ofRow, hid, htype, hprovider, hversion, hhash, houtputs', hproperties', hdeps', hflag, hstatus,
    hsecret', href', hordering']
  rfl

end StateNode

end Atlantide
