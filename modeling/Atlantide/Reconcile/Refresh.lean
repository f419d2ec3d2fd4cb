import Atlantide.Core.Same
import Atlantide.Reconcile.Lenient

/-! # Refreshing a row from a live read

A provider reads a resource back as a table of values. What the read says of an input is compared
with the input's resolved value, and recorded in the row where the row held that value as it was;
everything else it says is an output. -/

namespace Atlantide

open Fallible

/-- A table as it is compared and stored. -/
def canonicalTable (table : Dict String Input) : Dict String Value :=
  table.map fun _ value => value.canonicalize

/-- `table.get(key)`. -/
def got (table : Dict String Value) (key : String) : Value := (table[key]?).getD .null

/-- Whether two tables are equal, value by value. -/
def sameTable (left right : Dict String Value) : Bool :=
  (left.keys ++ right.keys).all fun key =>
    match left[key]?, right[key]? with
    | some first, some second => first.same second
    | none, none => true
    | _, _ => false

/-- Whether two rows are equal. -/
def StateNode.same (left right : StateNode) : Bool :=
  sameTable left.properties right.properties && sameTable left.outputs right.outputs &&
    { left with properties := ∅, outputs := ∅ } = { right with properties := ∅, outputs := ∅ }

/-- Seals the sensitive texts of the outputs for persistence. -/
def ResourceType.sealOutputs (cls : ResourceType) (secrets : SecretsRegistry)
    (outputs : Dict String Value) : Dict String Value :=
  if cls.sensitive.isEmpty then outputs
  else
    outputs.map fun name value =>
      match value with
      | .str text => if name ∈ cls.sensitive then secrets.sealText text else value
      | _ => value

/-- The row's input properties as values, keyed as they are stored. -/
def resolvedProperties (node : StateNode) (res : Rebuilt) : Dict String Input :=
  node.properties.map fun name stored => (res.inputs[name]?).getD (.ofValue stored)

/-! ## What drifted -/

inductive Drift
  | inSync
  | drifted
  | missing
  deriving DecidableEq

structure NodeDrift where
  nodeId : String
  kind : Drift
  /-- What is stored and what is live, of every value that changed. -/
  changed : Dict String (Value × Value) := ∅
  unobserved : List String := []
  observed : List String := []

/-- What is stored and what is live, of every value the read reports otherwise than inputs overlaid
by outputs have it. -/
def observedDrift (resolved : Dict String Input) (outputs : Dict String Value)
    (live : Dict String Input) : Dict String (Value × Value) :=
  let baseline := canonicalTable (resolved ∪ outputs.map fun _ value => .ofValue value)
  (canonicalTable live).filterMap fun key value =>
    if (got baseline key).same value then none else some (got baseline key, value)

def redacted : Value := .str "(sensitive)"

/-- What a read says of a row. -/
def classifyDrift (node : StateNode) (resolved : Dict String Input)
    (live : Option (Dict String Input)) (sensitive : List String) (secrets : SecretsRegistry) :
    Except Fault NodeDrift :=
  match live with
  | none => .ok { nodeId := node.id, kind := .missing }
  | some live => do
    let outputs ← unsealOutputs secrets node.outputs
    let changed := (observedDrift resolved outputs live).map fun key pair =>
      if key ∈ sensitive then (redacted, redacted) else pair
    .ok
      { nodeId := node.id, kind := if changed.isEmpty then .inSync else .drifted, changed
        unobserved := resolved.keys.filter (· ∉ live)
        observed := resolved.keys.filter (· ∈ live) }

/-! ## What is folded in -/

structure Folding where
  properties : Dict String Value
  outputs : Dict String Value
  driftedInputs : Bool := false

/-- One key of the read folded in. -/
def Folding.key (comparable : Dict String Value) (folding : Folding) (key : String) (value : Value) :
    Folding :=
  match folding.properties[key]? with
  | none => { folding with outputs := folding.outputs.insert key value }
  | some stored =>
    if (got comparable key).same value then folding
    else
      { folding with
        driftedInputs := true
        -- A literal is safe to record.
        properties :=
          if stored.same (got comparable key) then folding.properties.insert key value
          else folding.properties }

def foldRead (node : StateNode) (stored : Dict String Value) (resolved live : Dict String Input) :
    Folding :=
  (canonicalTable live).foldl (Folding.key (canonicalTable resolved)) ⟨node.properties, stored, false⟩

/-- The row with the live read folded in: inputs into its properties, the rest into its outputs. -/
def folded (node : StateNode) (resolved live : Dict String Input) (cls : Option ResourceType)
    (secrets : SecretsRegistry) : Except Fault StateNode := do
  let stored ← unsealOutputs secrets node.outputs
  let folding := foldRead node stored resolved live
  let outputs :=
    if sameTable folding.outputs stored then node.outputs
    else
      match cls with
      | none => folding.outputs
      | some cls => cls.sealOutputs secrets folding.outputs
  let row :=
    { node with
      properties := folding.properties, outputs
      inputHash := if folding.driftedInputs then noInputHash else node.inputHash }
  .ok (if row.same node then node else row)

/-! ## The tables -/

@[simp] theorem getElem?_canonicalTable (table : Dict String Input) (key : String) :
    (canonicalTable table)[key]? = (table[key]?).map Input.canonicalize :=
  Std.ExtTreeMap.getElem?_map

theorem sameTable_iff {left right : Dict String Value} : sameTable left right = true ↔
    ∀ key : String, Option.Rel (fun first second => first.same second = true) left[key]?
      right[key]? := by
  rw [sameTable, List.all_eq_true]
  constructor
  · intro hall key
    by_cases hmem : key ∈ left.keys ++ right.keys
    · have hkey := hall key hmem
      split at hkey
      next first second hfirst hsecond =>
        rw [hfirst, hsecond]
        exact .some hkey
      next hfirst hsecond =>
        rw [hfirst, hsecond]
        exact .none
      next => cases hkey
    · rw [List.mem_append, Std.ExtTreeMap.mem_keys, Std.ExtTreeMap.mem_keys, not_or] at hmem
      rw [Std.ExtTreeMap.getElem?_eq_none hmem.1, Std.ExtTreeMap.getElem?_eq_none hmem.2]
      exact .none
  · intro hall key _
    have hkey := hall key
    generalize left[key]? = first, right[key]? = second at hkey
    cases hkey with
    | some hsame => exact hsame
    | none => rfl

theorem sameTable_self (table : Dict String Value) : sameTable table table = true := by
  refine sameTable_iff.mpr fun key => ?_
  cases table[key]? with
  | none => exact .none
  | some value => exact .some value.same_self

theorem unsealOutputs_eq (secrets : SecretsRegistry) (outputs : Dict String Value) :
    unsealOutputs secrets outputs = Fold.traverse secrets.unsealValue outputs := rfl

/-! ## The folding, key by key -/

section

variable {node : StateNode} {stored : Dict String Value} {resolved live : Dict String Input}

/-- What is held under a key once the read has said the value of it. -/
def landed (comparable : Dict String Value) (key : String) (value : Value) :
    Option Value → Option Value → Option Value × Option Value
  | none, _ => (none, some value)
  | some held, output =>
    (some (if (got comparable key).same value then held
      else if held.same (got comparable key) then value else held), output)

/-- What a folding holds under a key. -/
def Folding.under (folding : Folding) (key : String) : Option Value × Option Value :=
  (folding.properties[key]?, folding.outputs[key]?)

theorem Folding.key_other (folding : Folding) (comparable : Dict String Value) {key here : String}
    (value : Value) (hother : key ≠ here) :
    (folding.key comparable key value).under here = folding.under here := by
  have hinsert (table : Dict String Value) : (table.insert key value)[here]? = table[here]? := by
    rw [Std.ExtTreeMap.getElem?_insert, if_neg fun heq => hother (Std.LawfulEqCmp.eq_of_compare heq)]
  unfold Folding.key under
  split
  · exact Prod.ext rfl (hinsert _)
  · split
    · rfl
    · refine Prod.ext ?_ rfl
      dsimp only
      split
      · exact hinsert _
      · rfl

theorem Folding.key_here (folding : Folding) (comparable : Dict String Value) (key : String)
    (value : Value) : (folding.key comparable key value).under key =
      landed comparable key value folding.properties[key]? folding.outputs[key]? := by
  unfold Folding.key under
  cases hheld : folding.properties[key]? with
  | none => exact Prod.ext hheld (Std.ExtTreeMap.getElem?_insert_self ..)
  | some held =>
    dsimp only [landed]
    by_cases hread : (got comparable key).same value = true
    · rw [if_pos hread, if_pos hread]
      exact Prod.ext hheld rfl
    · rw [if_neg hread, if_neg hread]
      refine Prod.ext ?_ rfl
      dsimp only
      split
      · exact Std.ExtTreeMap.getElem?_insert_self ..
      · exact hheld

/-- What a read leaves under a key. -/
theorem foldRead_under (node : StateNode) (stored : Dict String Value)
    (resolved live : Dict String Input) (key : String) : (foldRead node stored resolved live).under key =
    match live[key]? with
    | some found => landed (canonicalTable resolved) key found.canonicalize node.properties[key]?
        stored[key]?
    | none => (node.properties[key]?, stored[key]?) := by
  unfold foldRead
  cases hlive : live[key]? with
  | none =>
    refine Fold.observe_of_forall (Folding.under · key) (fun folding other value hvalue => ?_) _
    refine folding.key_other _ value ?_
    rintro rfl
    rw [getElem?_canonicalTable, hlive] at hvalue
    cases hvalue
  | some found =>
    have hvalue : (canonicalTable live)[key]? = some found.canonicalize := by
      rw [getElem?_canonicalTable, hlive]
      rfl
    refine Fold.observe_at (Folding.under · key) hvalue (fun folding hsame => ?_)
      fun folding other value _ hne => folding.key_other _ value hne
    obtain ⟨hproperty, houtput⟩ := Prod.mk.inj hsame
    dsimp only
    rw [Folding.key_here, hproperty, houtput]

theorem Folding.key_isSome {comparable : Dict String Value} {folding : Folding} {key : String}
    {value : Value} (here : String) :
    ((folding.key comparable key value).properties[here]?).isSome =
      (folding.properties[here]?).isSome := by
  by_cases hsame : key = here
  · subst hsame
    have hunder := (Prod.mk.inj (folding.key_here comparable key value)).1
    rw [hunder]
    cases folding.properties[key]? <;> rfl
  · have hunder := (Prod.mk.inj (folding.key_other comparable value hsame)).1
    rw [hunder]

theorem Folding.key_drifted {comparable : Dict String Value} {folding : Folding} {key : String}
    {value : Value} : (folding.key comparable key value).driftedInputs =
      (folding.driftedInputs ||
        (folding.properties[key]?).isSome && !(got comparable key).same value) := by
  unfold Folding.key
  cases folding.properties[key]? with
  | none => simp
  | some held => cases (got comparable key).same value <;> simp

theorem driftedInputs_foldl {comparable : Dict String Value} {entries : List (String × Value)}
    {folding : Folding}
    (hkeys : ∀ key : String, (folding.properties[key]?).isSome = (node.properties[key]?).isSome) :
    (entries.foldl (fun folding entry => folding.key comparable entry.1 entry.2)
        folding).driftedInputs = true ↔
      folding.driftedInputs = true ∨ ∃ entry ∈ entries,
        (node.properties[entry.1]?).isSome = true ∧ (got comparable entry.1).same entry.2 = false := by
  induction entries generalizing folding with
  | nil => simp
  | cons entry entries ih =>
    rw [List.foldl_cons, ih fun key => (Folding.key_isSome key).trans (hkeys key),
      Folding.key_drifted, hkeys]
    simp [or_assoc]

/-- The read has another value for an input. -/
def Drifts (node : StateNode) (resolved live : Dict String Input) (key : String) : Prop :=
  ∃ held found, node.properties[key]? = some held ∧ live[key]? = some found ∧
    (got (canonicalTable resolved) key).same found.canonicalize = false

theorem foldRead_drifted : (foldRead node stored resolved live).driftedInputs = true ↔
    ∃ key, Drifts node resolved live key := by
  unfold foldRead
  rw [Std.ExtTreeMap.foldl_eq_foldl_toList, driftedInputs_foldl fun _ => rfl]
  constructor
  · rintro (hnever | ⟨⟨key, value⟩, hmem, hheld, hread⟩)
    · cases hnever
    · obtain ⟨held, hheld⟩ := Option.isSome_iff_exists.mp hheld
      have hvalue := Std.ExtTreeMap.mem_toList_iff_getElem?_eq_some.mp hmem
      rw [getElem?_canonicalTable] at hvalue
      obtain ⟨found, hfound, rfl⟩ := Option.map_eq_some_iff.mp hvalue
      exact ⟨key, held, found, hheld, hfound, hread⟩
  · rintro ⟨key, held, found, hheld, hfound, hread⟩
    refine .inr ⟨(key, found.canonicalize), ?_, by rw [hheld]; rfl, hread⟩
    rw [Std.ExtTreeMap.mem_toList_iff_getElem?_eq_some, getElem?_canonicalTable, hfound]
    rfl

end

/-! ## What the row keeps -/

section

variable {node row : StateNode} {resolved live : Dict String Input} {cls : Option ResourceType}
  {secrets : SecretsRegistry}

/-- The row a folding makes, before it is compared with the one there was. -/
def foldedRow (node : StateNode) (stored : Dict String Value) (resolved live : Dict String Input)
    (cls : Option ResourceType) (secrets : SecretsRegistry) : StateNode :=
  let folding := foldRead node stored resolved live
  { node with
    properties := folding.properties
    outputs :=
      if sameTable folding.outputs stored then node.outputs
      else
        match cls with
        | none => folding.outputs
        | some cls => cls.sealOutputs secrets folding.outputs
    inputHash := if folding.driftedInputs then noInputHash else node.inputHash }

theorem folded_eq_ok (hfolded : folded node resolved live cls secrets = .ok row) :
    ∃ stored, unsealOutputs secrets node.outputs = .ok stored ∧
      row = if (foldedRow node stored resolved live cls secrets).same node then node
        else foldedRow node stored resolved live cls secrets := by
  obtain ⟨stored, hstored, hrow⟩ := bind_eq_ok hfolded
  exact ⟨stored, hstored, (Except.ok.inj hrow).symm⟩

/-- A property is held as it is resolved, and the read has another value for it. -/
def Recorded (node : StateNode) (resolved live : Dict String Input) (key : String) : Prop :=
  Drifts node resolved live key ∧
    ∃ held, node.properties[key]? = some held ∧ held.same (got (canonicalTable resolved) key) = true

/-- A recorded property has another value afterwards. -/
theorem Recorded.property {key : String} (hrecorded : Recorded node resolved live key)
    (stored : Dict String Value) (cls : Option ResourceType) (secrets : SecretsRegistry) : ∃ held value,
      node.properties[key]? = some held ∧ held.same value = false ∧
        (foldedRow node stored resolved live cls secrets).properties[key]? = some value := by
  obtain ⟨⟨held, found, hheld, hfound, hread⟩, held', hheld', hliteral⟩ := hrecorded
  rw [hheld] at hheld'
  cases hheld'
  refine ⟨held, found.canonicalize, hheld, ?_, ?_⟩
  · by_contra hsame
    have hback := Value.same_trans (Value.same_symm hliteral) ((Bool.not_eq_false _).mp hsame)
    rw [hread] at hback
    cases hback
  · have hunder := (Prod.mk.inj (foldRead_under node stored resolved live key)).1
    rw [hfound, hheld] at hunder
    simp only [landed, hread, hliteral, Bool.false_eq_true, if_false, if_true] at hunder
    exact hunder

/-- Every other property is as it was. -/
theorem property_of_not_recorded {stored : Dict String Value} {key : String}
    (hkept : ¬Recorded node resolved live key) :
    (foldedRow node stored resolved live cls secrets).properties[key]? = node.properties[key]? := by
  have hunder := (Prod.mk.inj (foldRead_under node stored resolved live key)).1
  have hrow : (foldedRow node stored resolved live cls secrets).properties =
      (foldRead node stored resolved live).properties := rfl
  rw [hrow]
  cases hfound : live[key]? with
  | none =>
    rw [hfound] at hunder
    exact hunder
  | some found =>
    cases hheld : node.properties[key]? with
    | none =>
      rw [hfound, hheld] at hunder
      exact hunder
    | some held =>
      rw [hfound, hheld] at hunder
      refine hunder.trans (congrArg some ?_)
      split
      next => rfl
      next hread =>
        refine if_neg fun hliteral => hkept ⟨⟨held, found, hheld, hfound, ?_⟩, held, hheld, hliteral⟩
        exact (Bool.not_eq_true _).mp hread

theorem foldedRow_not_same {stored : Dict String Value} {key : String}
    (hrecorded : Recorded node resolved live key) :
    (foldedRow node stored resolved live cls secrets).same node = false := by
  obtain ⟨held, value, hheld, hdiffers, hvalue⟩ := hrecorded.property stored cls secrets
  by_contra hsame
  rw [Bool.not_eq_false, StateNode.same, Bool.and_eq_true, Bool.and_eq_true] at hsame
  have hkey := sameTable_iff.mp hsame.1.1 key
  rw [hvalue, hheld] at hkey
  cases hkey with
  | some hsame =>
    rw [Value.same_symm hsame] at hdiffers
    cases hdiffers

/-- A folding leaves a property exactly if it does not record another value for it. -/
theorem folded_property (hfolded : folded node resolved live cls secrets = .ok row) {key : String} :
    row.properties[key]? = node.properties[key]? ↔ ¬Recorded node resolved live key := by
  obtain ⟨stored, -, hrow⟩ := folded_eq_ok hfolded
  by_cases hrecorded : Recorded node resolved live key
  · rw [foldedRow_not_same hrecorded, if_neg Bool.false_ne_true] at hrow
    obtain ⟨held, value, hheld, hdiffers, hvalue⟩ := hrecorded.property stored cls secrets
    refine iff_of_false (fun hsame => ?_) (not_not.mpr hrecorded)
    rw [hrow, hvalue, hheld] at hsame
    cases hsame
    rw [Value.same_self] at hdiffers
    cases hdiffers
  · refine iff_of_true ?_ hrecorded
    rw [hrow]
    split
    · rfl
    · exact property_of_not_recorded hrecorded

/-- Every property a handle's marker stands in is as it was. -/
def KeepsMarkers (node row : StateNode) : Prop :=
  ∀ (key : String) (held : Value), node.properties[key]? = some held →
    (Input.ofValue held).any Input.isMarker = true → row.properties[key]? = some held

/-- A sensitive output that is a text is one because sealing leaves it a text. -/
def SealsOutputs (cls : Option ResourceType) (secrets : SecretsRegistry) (row : StateNode) : Prop :=
  ∀ found, cls = some found → ∀ name ∈ found.sensitive, ∀ text : String,
    row.outputs[name]? = some (.str text) → ∃ plain, secrets.sealText plain = .str text

/-- The read says of no output what is not stored. -/
def LeavesOutputs (node : StateNode) (stored : Dict String Value) (live : Dict String Input) : Prop :=
  ∀ (key : String) (found : Input), node.properties[key]? = none → live[key]? = some found →
    ∃ held, stored[key]? = some held ∧ found.canonicalize.same held = true

theorem sameTable_foldRead (resolved : Dict String Input) {stored : Dict String Value} :
    sameTable (foldRead node stored resolved live).outputs stored = true ↔
      LeavesOutputs node stored live := by
  rw [sameTable_iff]
  have hself (key : String) : Option.Rel (fun first second : Value => first.same second = true)
      stored[key]? stored[key]? := by
    cases stored[key]? with
    | none => exact .none
    | some value => exact .some value.same_self
  have hunder (key : String) := (Prod.mk.inj (foldRead_under node stored resolved live key)).2
  constructor
  · intro hsame key found hnone hfound
    have hkey := hsame key
    have houtput := hunder key
    rw [hfound, hnone] at houtput
    rw [houtput] at hkey
    cases hstored : stored[key]? with
    | none =>
      rw [hstored] at hkey
      cases hkey
    | some held =>
      rw [hstored] at hkey
      cases hkey with
      | some hsame => exact ⟨held, rfl, hsame⟩
  · intro hleaves key
    rw [hunder key]
    cases hfound : live[key]? with
    | none => exact hself key
    | some found =>
      cases hheld : node.properties[key]? with
      | some held => exact hself key
      | none =>
        obtain ⟨output, houtput, hsame⟩ := hleaves key found hheld hfound
        rw [houtput]
        exact .some hsame

theorem ResourceType.seals {cls : ResourceType} (outputs : Dict String Value) {name text : String}
    (hname : name ∈ cls.sensitive)
    (htext : (cls.sealOutputs secrets outputs)[name]? = some (.str text)) :
    ∃ plain, secrets.sealText plain = .str text := by
  unfold ResourceType.sealOutputs at htext
  rw [if_neg (by rw [List.isEmpty_iff]; exact List.ne_nil_of_mem hname),
    Std.ExtTreeMap.getElem?_map] at htext
  obtain ⟨value, -, hvalue⟩ := Option.map_eq_some_iff.mp htext
  split at hvalue
  next plain =>
    rw [if_pos hname] at hvalue
    exact ⟨plain, hvalue⟩
  next hplain => exact absurd hvalue (hplain text)

/-- What a folding writes is sealed, unless it leaves outputs that are not. -/
theorem folded_seals {stored : Dict String Value}
    (hstored : unsealOutputs secrets node.outputs = .ok stored)
    (hfolded : folded node resolved live cls secrets = .ok row) :
    SealsOutputs cls secrets row ↔
      (LeavesOutputs node stored live → SealsOutputs cls secrets node) := by
  obtain ⟨stored', hstored', hrow⟩ := folded_eq_ok hfolded
  rw [hstored] at hstored'
  cases hstored'
  rw [← sameTable_foldRead resolved]
  cases hsame : sameTable (foldRead node stored resolved live).outputs stored with
  | true =>
    have houtputs : row.outputs = node.outputs := by
      rw [hrow]
      split
      · rfl
      · exact if_pos hsame
    simp only [forall_const, SealsOutputs, houtputs]
  | false =>
    refine iff_of_true (fun found hcls name hname text htext => ?_) nofun
    subst hcls
    have hsealed : (foldedRow node stored resolved live (some found) secrets).outputs =
        found.sealOutputs secrets (foldRead node stored resolved live).outputs := by
      unfold foldedRow
      dsimp only
      rw [hsame, if_neg Bool.false_ne_true]
    refine ResourceType.seals (foldRead node stored resolved live).outputs hname ?_
    rw [← hsealed]
    rw [hrow] at htext
    split at htext
    next hrows =>
      rw [StateNode.same, Bool.and_eq_true, Bool.and_eq_true] at hrows
      have hkey := sameTable_iff.mp hrows.1.2 name
      rw [htext] at hkey
      cases hvalue : (foldedRow node stored resolved live (some found) secrets).outputs[name]? with
      | none =>
        rw [hvalue] at hkey
        cases hkey
      | some value =>
        rw [hvalue] at hkey
        cases hkey with
        | some hsame => rw [Value.same_str hsame]
    next => exact htext

theorem keepsMarkers_iff (hfolded : folded node resolved live cls secrets = .ok row) :
    KeepsMarkers node row ↔ ∀ (key : String) (held : Value), node.properties[key]? = some held →
      (Input.ofValue held).any Input.isMarker = true → ¬Recorded node resolved live key := by
  refine forall_congr' fun key => forall₃_congr fun held hheld hmarker => ?_
  rw [← hheld]
  exact folded_property hfolded

end

/-! ## Properties that rebuilding leaves as they are -/

theorem append_partition {sep : Char} {text before after : String}
    (hsplit : partition sep text = (before, some after)) :
    before ++ String.singleton sep ++ after = text := by
  unfold partition at hsplit
  dsimp only at hsplit
  have hwhole := List.takeWhile_append_dropWhile (p := (· ≠ sep)) (l := text.toList)
  cases hafter : text.toList.dropWhile (· ≠ sep) with
  | nil =>
    rw [hafter] at hsplit
    cases hsplit
  | cons c rest =>
    rw [hafter] at hsplit hwhole
    obtain ⟨rfl, hrest⟩ := Prod.mk.inj hsplit
    cases hrest
    have hhead := List.head?_dropWhile_not (· ≠ sep) text.toList
    rw [hafter, List.head?_cons] at hhead
    have hsep : c = sep := by simpa using hhead
    apply String.toList_injective
    simp only [String.toList_append, String.toList_ofList, String.toList_singleton]
    rw [← hsep, List.append_assoc, List.singleton_append, hsep]
    rw [hsep] at hwhole
    exact hwhole

namespace Value

theorem singleKeyMarker_eq_some {value payload : Value} {key : String}
    (hmarker : value.singleKeyMarker key = some payload) : value = .dict [(key, payload)] := by
  match value with
  | .dict [(name, found)] =>
    rw [singleKeyMarker] at hmarker
    split at hmarker
    next hname =>
      cases hmarker
      rw [hname]
    next => cases hmarker
  | .dict [] | .dict (_ :: _ :: _) => cases hmarker
  | .null | .bool _ | .int _ | .float _ | .str _ | .list _ => cases hmarker

/-- A reference's marker is the canonical form of the reference. -/
theorem refFromMarker_eq_some {value : Value} {found : Ref}
    (hmarker : value.refFromMarker = some found) : (Input.ref found).canonicalize = value := by
  unfold refFromMarker at hmarker
  split at hmarker
  next target htarget =>
    split at hmarker
    next nodeId attr hsplit =>
      cases hmarker
      rw [singleKeyMarker_eq_some htarget, Input.canonicalize, ← append_partition hsplit]
      rfl
    next => cases hmarker
  next => cases hmarker

theorem stackOutputFromMarker_eq_some {value : Value} {key : String}
    (hmarker : value.stackOutputFromMarker = some key) :
    value = .dict [(stackOutputKey, .str key)] := by
  unfold stackOutputFromMarker at hmarker
  split at hmarker
  next found hfound =>
    cases hmarker
    exact singleKeyMarker_eq_some hfound
  next => cases hmarker

end Value

/-- Whether rebuilding has something to put in the place of the marker. -/
def replacesMarker (env : HandleEnv) (value : Value) : Bool :=
  value.isTransformMarker || (value.refFromMarker).any (fun found => (env.outputs.find? found).isSome) ||
    (value.stackOutputFromMarker).any fun key => (env.stackOutputs[key]?).isSome

/-- No handle in the property has a value: it is no secret, no transform is in it, and none of the
outputs it names is there. -/
def Pending (env : HandleEnv) (held : Value) : Prop :=
  held.secretRefFromMarker = none ∧ held.any (replacesMarker env) = false

section

variable {env : HandleEnv}

theorem any_eq_false_iff {p : Value → Bool} {value : Value} : value.any p = false ↔
    p value = false ∧ ∀ child ∈ value.children, child.any p = false := by
  rw [Value.any_eq, Bool.or_eq_false_iff, List.any_eq_false]
  simp

theorem substituteStack_pending {value : Value} (hpending : value.any (replacesMarker env) = false) :
    (substituteStack env.stackOutputs value).1 = value := by
  induction value using Value.ind with
  | step value ih =>
    obtain ⟨hhere, hchildren⟩ := any_eq_false_iff.mp hpending
    cases value with
    | list items =>
      have hitems : (substituteStackItems env.stackOutputs items).1 = items := by
        have hall : ∀ item ∈ items, (substituteStack env.stackOutputs item).1 = item :=
          fun item hmem => ih item hmem (hchildren item hmem)
        clear ih hhere hchildren hpending
        induction items with
        | nil => rfl
        | cons item items ih =>
          rw [substituteStackItems]
          exact congrArg₂ List.cons (hall item (List.mem_cons_self ..))
            (ih fun other hmem => hall other (List.mem_cons_of_mem _ hmem))
      rw [substituteStack]
      exact congrArg Value.list hitems
    | dict fields =>
      rw [substituteStack]
      split
      next key hkey =>
        have hnone : env.stackOutputs[key]? = none := by
          rw [replacesMarker, hkey] at hhere
          have habsent : (env.stackOutputs[key]?).isSome = false := (Bool.or_eq_false_iff.mp hhere).2
          exact Option.isNone_iff_eq_none.mp (Option.isSome_eq_false_iff.mp habsent)
        rw [hnone]
      next hplain =>
        have hfields : (substituteStackFields env.stackOutputs fields).1 = fields := by
          have hall : ∀ child ∈ fields.map Prod.snd,
              (substituteStack env.stackOutputs child).1 = child :=
            fun child hmem => ih child hmem (hchildren child hmem)
          clear ih hhere hchildren hpending hplain
          induction fields with
          | nil => rfl
          | cons entry fields ih =>
            obtain ⟨name, child⟩ := entry
            rw [List.map_cons, List.forall_mem_cons] at hall
            rw [substituteStackFields]
            exact congrArg₂ List.cons (Prod.ext rfl hall.1) (ih hall.2)
        exact congrArg Value.dict hfields
    | _ => rfl

theorem canonicalize_images {sources : List Value} {images : List Input}
    (hall : List.Forall₂ (fun source image =>
      Input.resolve env.rendering env.outputs false (.ofValue source) = .ok image) sources images)
    (hsame : ∀ source ∈ sources, ∀ image,
      Input.resolve env.rendering env.outputs false (.ofValue source) = .ok image →
        image.canonicalize = source) : images.map Input.canonicalize = sources := by
  induction hall with
  | nil => rfl
  | cons hhead _ ih =>
    rw [List.forall_mem_cons] at hsame
    rw [List.map_cons, hsame.1 _ hhead, ih hsame.2]

/-- What nothing is put into comes back as it was. -/
theorem resolve_pending {value : Value} (hpending : value.any (replacesMarker env) = false)
    {image : Input}
    (hok : Input.resolve env.rendering env.outputs false (.ofValue value) = .ok image) :
    image.canonicalize = value := by
  induction value using Value.ind generalizing image with
  | step value ih =>
    obtain ⟨hhere, hchildren⟩ := any_eq_false_iff.mp hpending
    have hchild : ∀ child ∈ value.children, ∀ image,
        Input.resolve env.rendering env.outputs false (.ofValue child) = .ok image →
          image.canonicalize = child :=
      fun child hmem image => ih child hmem (hchildren child hmem)
    rw [replacesMarker, Bool.or_eq_false_iff, Bool.or_eq_false_iff] at hhere
    obtain ⟨⟨htransform, href⟩, -⟩ := hhere
    cases value with
    | list items =>
      rw [Input.ofValue, Input.ofItems_eq, Input.resolve] at hok
      obtain ⟨images, hresolved, rfl⟩ := map_eq_ok hok
      have hall := Input.resolveItems_eq_ok.mp hresolved
      rw [List.forall₂_map_left_iff] at hall
      rw [Input.canonicalize, Input.canonicalizeItems_eq, canonicalize_images hall hchild]
    | dict fields =>
      cases hfound : (Value.dict fields).refFromMarker with
      | some found =>
        rw [hfound] at href
        have habsent : (env.outputs.find? found).isSome = false := href
        have hnone := Option.isNone_iff_eq_none.mp (Option.isSome_eq_false_iff.mp habsent)
        have htarget : (Input.ofValue (.dict fields)).target? = some found :=
          (Input.refFromMarker_ofValue (.dict fields)).trans hfound
        rw [Input.resolve_target htarget, Input.lookup_missing hnone] at hok
        cases hok
        exact Value.refFromMarker_eq_some hfound
      | none =>
        have hnone : (Input.dict (Input.ofFields fields)).refFromMarker = none :=
          (Input.refFromMarker_ofValue (.dict fields)).trans hfound
        have hplain : (Input.dict (Input.ofFields fields)).isTransformMarker = false :=
          (Input.isTransformMarker_ofValue (.dict fields)).trans htransform
        rw [Input.ofValue, Input.resolve_dict hnone hplain, Input.ofFields_eq] at hok
        obtain ⟨images, hresolved, rfl⟩ := map_eq_ok hok
        have hall := Input.resolveFields_eq_ok.mp hresolved
        rw [List.forall₂_map_left_iff] at hall
        rw [Input.canonicalize, Input.canonicalizeFields_eq]
        have hfields : images.map (fun entry => (entry.1, entry.2.canonicalize)) = fields := by
          clear hresolved hok href htransform hfound hnone hplain hpending ih hchildren
          induction hall with
          | nil => rfl
          | cons hhead _ ih =>
            rw [Value.children, List.map_cons, List.forall_mem_cons] at hchild
            rw [List.map_cons, ih hchild.2]
            exact congrArg (· :: _) (Prod.ext hhead.1 (hchild.1 _ hhead.2))
        rw [hfields]
    | _ =>
      cases hok
      rfl

/-- A pending property is taken for a literal: rebuilt, it reads as it is stored. -/
theorem pending_field {held : Value} {value opened image : Input} (hpending : Pending env held)
    (hvalue : rebuildValue env held = .ok value)
    (hopened : Input.resolveSecretRef env.secrets value = .ok opened)
    (himage : Input.resolveStackRef env.rendering env.stackOutputs false opened = .ok image) :
    image.canonicalize = held := by
  obtain ⟨hsecret, hnone⟩ := hpending
  cases hstack : held.stackOutputFromMarker with
  | none =>
    have hsource : restoredSource env held = .ofValue held := by
      unfold restoredSource
      split
      · rw [substituteStack_pending hnone]
      · rfl
    rcases rebuildValue_cases hvalue with ⟨ref, href, -⟩ | ⟨stack, name, rfl⟩ | hdeferred
    · rw [hsecret] at href
      cases href
    · rw [rebuildValue_composed hsecret hstack] at hvalue
      have hlive := Input.resolve_isDeferred (Input.any_isDeferred_ofValue _) hvalue
      cases hlive
    · have hplain : value.isSecretRef = false := by
        have hhere := (Input.any_eq_false_iff.mp hdeferred).1
        rw [Input.isDeferred, Bool.or_eq_false_iff, Bool.or_eq_false_iff] at hhere
        exact hhere.1.1
      obtain rfl := Input.resolveSecretRef_eq hplain hopened
      rw [Input.resolveStackRef, isStackOutputRef_of_isDeferred hdeferred] at himage
      cases himage
      rw [rebuildValue_composed hsecret hstack, hsource] at hvalue
      exact resolve_pending hnone hvalue
  | some key =>
    rw [rebuildValue, hsecret, hstack] at hvalue
    dsimp only at hvalue
    split at hvalue
    next stack name hsplit =>
      cases hvalue
      cases hopened
      have habsent : env.stackOutputs[key]? = none := by
        have hhere := (any_eq_false_iff.mp hnone).1
        rw [replacesMarker, hstack] at hhere
        have habsent : (env.stackOutputs[key]?).isSome = false := (Bool.or_eq_false_iff.mp hhere).2
        exact Option.isNone_iff_eq_none.mp (Option.isSome_eq_false_iff.mp habsent)
      have hkey : stack ++ ":" ++ name = key := append_partition hsplit
      rw [Input.resolveStackRef, if_neg (by rw [Input.any_eq]; simp [Input.isStackOutputRef]),
        Input.substitute, hkey, habsent] at himage
      cases himage
      rw [Input.canonicalize, hkey, Value.stackOutputFromMarker_eq_some hstack]
    next => cases hvalue

/-- A pending property the class takes as it is resolves to what is stored. -/
theorem resolved_pending {classes : ResourceClasses} {unsealValue : Value → Except Fault Value}
    {node : StateNode} {res : Rebuilt} {key : String} {held : Value}
    (hrebuilt : rebuildRow classes unsealValue env node = .ok res)
    (hheld : node.properties[key]? = some held) (hpending : Pending env held)
    (htaken : ∀ cls given fields, classes.types node.type = some cls →
      rebuiltFields unsealValue env cls node = .ok given →
      classes.validate node.type given = .ok fields → fields[key]? = given[key]?) :
    got (canonicalTable (resolvedProperties node res)) key = held := by
  rw [got, getElem?_canonicalTable, resolvedProperties, Std.ExtTreeMap.getElem?_map, hheld]
  cases hinput : res.inputs[key]? with
  | none => exact Input.canonicalize_ofValue held
  | some image =>
    change image.canonicalize = held
    unfold rebuildRow at hrebuilt
    cases hcls : classes.types node.type with
    | none =>
      rw [hcls] at hrebuilt
      cases hrebuilt
    | some cls =>
      rw [hcls] at hrebuilt
      obtain ⟨given, hgiven, hrebuilt⟩ := bind_eq_ok hrebuilt
      obtain ⟨fields, hfields, hrebuilt⟩ := bind_eq_ok hrebuilt
      obtain ⟨opened, hopened, hrebuilt⟩ := bind_eq_ok hrebuilt
      obtain ⟨inputs, hinputs, hrebuilt⟩ := bind_eq_ok hrebuilt
      cases hrebuilt
      obtain ⟨value, hvalue, hat⟩ := (rebuiltFields_eq_ok hgiven).1 key held hheld
      have hfield := htaken cls given fields hcls hgiven hfields
      rw [hat] at hfield
      cases hopen : opened[key]? with
      | none =>
        rw [(Fold.traverse_eq_ok.mp hinputs).2 key hopen] at hinput
        cases hinput
      | some handle =>
        obtain ⟨found, hfound, hat⟩ := (Fold.traverse_eq_ok.mp hinputs).1 key handle hopen
        rw [hinput] at hat
        cases hat
        cases hgate : (fields.filter fun name _ => isInput cls name)[key]? with
        | none =>
          rw [(Fold.traverse_eq_ok.mp hopened).2 key hgate] at hopen
          cases hopen
        | some source =>
          obtain ⟨other, hother, hat⟩ := (Fold.traverse_eq_ok.mp hopened).1 key source hgate
          rw [hopen] at hat
          cases hat
          rw [getElem?_inputs] at hgate
          split at hgate
          · rw [hfield] at hgate
            cases hgate
            exact pending_field hpending hvalue hother hfound
          · cases hgate

end

section

variable {node row : StateNode} {resolved live : Dict String Input} {cls : Option ResourceType}
  {secrets : SecretsRegistry} {stored : Dict String Value}

end

/-! ## A function and its variables -/

namespace Refreshed

def secrets : SecretsRegistry where
  resolve _ := .ok "opened"
  digest _ text := .ok text
  sealText text := .dict [("$sealed", .str text)]
  unsealValue
    | .dict [("$sealed", .str text)] => .ok (.str text)
    | value => .ok value

def secretMarker : Value :=
  .dict [("$secret_ref", .dict [("name", .str "app/token"), ("provider", .null)])]

def function : ResourceType where
  provider := "aws"
  fields := [("environment", .mutable), ("token", .mutable), ("key", .computed)]
  sensitive := ["key"]

def row (properties : Dict String Value) : StateNode where
  id := "prod:aws.LambdaFunction:app"
  type := "aws.LambdaFunction"
  provider := "aws"
  providerVersion := "1"
  inputHash := "h1"
  properties
  outputs := (∅ : Dict String Value).insert "key" (.dict [("$sealed", .str "k1")])

/-- A secret for the whole field, and one among the variables. -/
def whole : StateNode := row ((∅ : Dict String Value).insert "token" secretMarker)

def nested : StateNode :=
  row ((∅ : Dict String Value).insert "environment" (.dict [("TOKEN", secretMarker)]))

end Refreshed

end Atlantide
