import Atlantide.Reconcile.Refresh

/-! # Refreshing a row twice

The report of a read compares it with the inputs overlaid by the outputs, the folding compares it
with the inputs alone. They differ on a key that stands among both: the folding records it among the
inputs only, so the report goes on comparing it with the output. -/

namespace Atlantide

open Fallible

/-- One row of a refresh that writes: the folded row, and the report. -/
def refreshRow (classes : ResourceClasses) (secrets : SecretsRegistry) (env : HandleEnv)
    (node : StateNode) (live : Dict String Input) : Except Fault (StateNode × NodeDrift) := do
  let res ← rebuildRow classes secrets.unsealValue env node
  let resolved := resolvedProperties node res
  let cls := classes.types node.type
  let row ← folded node resolved live cls secrets
  let sensitive := (cls.map (·.sensitive)).getD []
  .ok (row, ← classifyDrift node resolved (some live) sensitive secrets)

/-- What sealing promises: it can be undone, once, and equal values open to equal ones. -/
structure SecretsRegistry.Lawful (secrets : SecretsRegistry) : Prop where
  opens : ∀ text, secrets.unsealValue (secrets.sealText text) = .ok (.str text)
  settled : ∀ value opened, secrets.unsealValue value = .ok opened →
    secrets.unsealValue opened = .ok opened
  respects : ∀ first second opened, first.same second = true →
    secrets.unsealValue first = .ok opened →
      ∃ other, secrets.unsealValue second = .ok other ∧ opened.same other = true

/-- The read of the input alone clears the row's hash. -/
def Clears (node : StateNode) (stored : Dict String Value) (resolved live : Dict String Input)
    (key : String) : Prop :=
  (foldRead node stored resolved (live.filter fun other _ => other = key)).driftedInputs = true

section

variable {classes : ResourceClasses} {secrets : SecretsRegistry} {env : HandleEnv}
  {node row : StateNode} {resolved live : Dict String Input} {stored : Dict String Value}
  {cls : Option ResourceType} {sensitive : List String}

theorem clears_iff {key : String} :
    Clears node stored resolved live key ↔ Drifts node resolved live key := by
  unfold Clears
  rw [foldRead_drifted]
  have hat (other : String) : (live.filter fun name _ => name = key)[other]? =
      if other = key then live[other]? else none := by
    rw [Std.ExtTreeMap.getElem?_filter']
    cases live[other]? <;> by_cases hother : other = key <;> simp [hother]
  constructor
  · rintro ⟨other, held, found, hheld, hfound, hread⟩
    rw [hat] at hfound
    split at hfound
    next hother =>
      subst hother
      exact ⟨held, found, hheld, hfound, hread⟩
    next => cases hfound
  · rintro ⟨held, found, hheld, hfound, hread⟩
    exact ⟨key, held, found, hheld, by rw [hat, if_pos rfl, hfound], hread⟩

/-- What the report compares a key with: the output, or else the input. -/
def baseline (resolved : Dict String Input) (outputs : Dict String Value) (key : String) : Value :=
  ((outputs[key]?).or (canonicalTable resolved)[key]?).getD .null

theorem classifyDrift_changed {drift : NodeDrift}
    (hstored : unsealOutputs secrets node.outputs = .ok stored)
    (hdrift : classifyDrift node resolved (some live) sensitive secrets = .ok drift) (key : String) :
    drift.changed[key]? = none ↔ ∀ found, live[key]? = some found →
      (baseline resolved stored key).same found.canonicalize = true := by
  unfold classifyDrift at hdrift
  rw [hstored] at hdrift
  cases hdrift
  dsimp only
  have hbaseline : got (canonicalTable (resolved ∪ stored.map fun _ value => Input.ofValue value))
      key = baseline resolved stored key := by
    rw [got, baseline, getElem?_canonicalTable, getElem?_canonicalTable, Std.ExtTreeMap.getElem?_union,
      Std.ExtTreeMap.getElem?_map]
    cases stored[key]? with
    | none => rfl
    | some value =>
      change (some (Input.ofValue value).canonicalize).getD .null = value
      exact Input.canonicalize_ofValue value
  rw [Std.ExtTreeMap.getElem?_map, Option.map_eq_none_iff, observedDrift,
    Std.ExtTreeMap.getElem?_filterMap', getElem?_canonicalTable]
  cases live[key]? with
  | none => simp
  | some found =>
    dsimp only [Option.map, Option.bind]
    rw [hbaseline]
    constructor
    · rintro hnone other ⟨⟩
      by_contra hdiffers
      rw [if_neg hdiffers] at hnone
      cases hnone
    · intro hsame
      rw [if_pos (hsame found rfl)]

/-! ## Outputs sealed and opened again -/

theorem unsealOutputs_at (hstored : unsealOutputs secrets node.outputs = .ok stored) (key : String) :
    Option.Rel (fun held opened => secrets.unsealValue held = .ok opened) node.outputs[key]?
      stored[key]? := by
  rw [unsealOutputs_eq] at hstored
  obtain ⟨hat, hout⟩ := Fold.traverse_eq_ok.mp hstored
  cases hheld : node.outputs[key]? with
  | none =>
    rw [hout key hheld]
    exact .none
  | some held =>
    obtain ⟨opened, hopened, hvalue⟩ := hat key held hheld
    rw [hvalue]
    exact .some hopened

/-- A table each value of which opens to the other's opens to the other. -/
theorem unsealOutputs_of_rel {sealed opened : Dict String Value}
    (hrel : ∀ key : String, Option.Rel (fun held value => secrets.unsealValue held = .ok value)
      sealed[key]? opened[key]?) : unsealOutputs secrets sealed = .ok opened := by
  rw [unsealOutputs_eq]
  refine Fold.traverse_eq_ok.mpr ⟨fun key held hheld => ?_, fun key hnone => ?_⟩
  · have hkey := hrel key
    rw [hheld] at hkey
    cases hvalue : opened[key]? with
    | none =>
      rw [hvalue] at hkey
      cases hkey
    | some value =>
      rw [hvalue] at hkey
      cases hkey with
      | some hopens => exact ⟨value, hopens, rfl⟩
  · have hkey := hrel key
    rw [hnone] at hkey
    cases hvalue : opened[key]? with
    | none => rfl
    | some value =>
      rw [hvalue] at hkey
      cases hkey

/-- Outputs as they are written for a class. -/
def sealedFor (cls : Option ResourceType) (secrets : SecretsRegistry) (outputs : Dict String Value) :
    Dict String Value :=
  (cls.map (·.sealOutputs secrets outputs)).getD outputs

theorem foldedRow_outputs : (foldedRow node stored resolved live cls secrets).outputs =
    if sameTable (foldRead node stored resolved live).outputs stored then node.outputs
    else sealedFor cls secrets (foldRead node stored resolved live).outputs := by
  cases cls <;> rfl

/-- Sealing is undone by opening, where what is not sealed opens to itself. -/
theorem sealed_rel (hlawful : secrets.Lawful) {outputs : Dict String Value}
    (hself : ∀ (key : String) (value : Value), outputs[key]? = some value →
      secrets.unsealValue value = .ok value) (cls : Option ResourceType) (key : String) :
    Option.Rel (fun held opened => secrets.unsealValue held = .ok opened)
      (sealedFor cls secrets outputs)[key]? outputs[key]? := by
  have hkept : Option.Rel (fun held opened => secrets.unsealValue held = .ok opened)
      outputs[key]? outputs[key]? := by
    cases hvalue : outputs[key]? with
    | none => exact .none
    | some value => exact .some (hself key value hvalue)
  cases cls with
  | none => exact hkept
  | some cls =>
    change Option.Rel _ (cls.sealOutputs secrets outputs)[key]? _
    unfold ResourceType.sealOutputs
    split
    · exact hkept
    · rw [Std.ExtTreeMap.getElem?_map]
      cases hvalue : outputs[key]? with
      | none => exact .none
      | some value =>
        rw [hvalue] at hkept
        cases hkept with
        | some hopens =>
          refine .some ?_
          dsimp only
          split
          next text =>
            split
            · exact hlawful.opens text
            · exact hopens
          next => exact hopens

theorem sameTable_symm {first second : Dict String Value} (hsame : sameTable first second = true) :
    sameTable second first = true := by
  refine sameTable_iff.mpr fun key => ?_
  have hkey := sameTable_iff.mp hsame key
  generalize first[key]? = left, second[key]? = right at hkey ⊢
  cases hkey with
  | none => exact .none
  | some hvalues => exact .some (Value.same_symm hvalues)

/-- **The folded row's outputs open to what was folded.** -/
theorem folded_opens (hlawful : secrets.Lawful)
    (hstored : unsealOutputs secrets node.outputs = .ok stored)
    (hreported : ∀ (key : String) (found : Input), node.properties[key]? = none →
      live[key]? = some found → secrets.unsealValue found.canonicalize = .ok found.canonicalize)
    (hfolded : folded node resolved live cls secrets = .ok row) :
    ∃ opened, unsealOutputs secrets row.outputs = .ok opened ∧
      sameTable opened (foldRead node stored resolved live).outputs = true := by
  obtain ⟨stored', hstored', hrow⟩ := folded_eq_ok hfolded
  rw [hstored] at hstored'
  cases hstored'
  cases hsame : sameTable (foldRead node stored resolved live).outputs stored with
  | true =>
    have houtputs : row.outputs = node.outputs := by
      rw [hrow]
      split
      · rfl
      · exact if_pos hsame
    rw [houtputs]
    exact ⟨stored, hstored, sameTable_symm hsame⟩
  | false =>
    have hself : ∀ (key : String) (value : Value),
        (foldRead node stored resolved live).outputs[key]? = some value →
          secrets.unsealValue value = .ok value := by
      intro key value hvalue
      have hkept : ∀ value, stored[key]? = some value → secrets.unsealValue value = .ok value := by
        intro value hvalue
        have hkey := unsealOutputs_at hstored key
        rw [hvalue] at hkey
        cases hheld : node.outputs[key]? with
        | none =>
          rw [hheld] at hkey
          cases hkey
        | some held =>
          rw [hheld] at hkey
          cases hkey with
          | some hopened => exact hlawful.settled held value hopened
      have hunder := (Prod.mk.inj (foldRead_under node stored resolved live key)).2
      rw [hunder] at hvalue
      cases hfound : live[key]? with
      | none =>
        rw [hfound] at hvalue
        exact hkept value hvalue
      | some found =>
        rw [hfound] at hvalue
        cases hheld : node.properties[key]? with
        | none =>
          rw [hheld] at hvalue
          cases hvalue
          exact hreported key found hheld hfound
        | some held =>
          rw [hheld] at hvalue
          exact hkept value hvalue
    have hrel := sealed_rel hlawful hself cls
    have hsealed : (foldedRow node stored resolved live cls secrets).outputs =
        sealedFor cls secrets (foldRead node stored resolved live).outputs := by
      rw [foldedRow_outputs, hsame, if_neg Bool.false_ne_true]
    rw [hrow]
    split
    next hrows =>
      refine ⟨stored, hstored, sameTable_iff.mpr fun key => ?_⟩
      rw [StateNode.same, Bool.and_eq_true, Bool.and_eq_true, hsealed] at hrows
      have hheld := sameTable_iff.mp hrows.1.2 key
      have hopens := hrel key
      have hkept := unsealOutputs_at hstored key
      generalize (sealedFor cls secrets (foldRead node stored resolved live).outputs)[key]? =
        sealed at hheld hopens
      generalize (foldRead node stored resolved live).outputs[key]? = value at hopens ⊢
      generalize node.outputs[key]? = held at hheld hkept
      generalize stored[key]? = kept at hkept ⊢
      cases hopens with
      | none =>
        cases hheld
        cases hkept
        exact .none
      | some hopens =>
        cases hheld with
        | some hheld =>
          cases hkept with
          | some hkept =>
            obtain ⟨other, hother, hsame⟩ := hlawful.respects _ _ _ hheld hopens
            rw [hkept] at hother
            cases hother
            exact .some (Value.same_symm hsame)
    next =>
      refine ⟨_, unsealOutputs_of_rel fun key => ?_, sameTable_self _⟩
      rw [hsealed]
      exact hrel key

/-! ## The row a folding leaves -/

theorem sameTable_of_eq {first second : Dict String Value}
    (heq : ∀ key : String, first[key]? = second[key]?) : sameTable first second = true := by
  rw [Std.ExtTreeMap.ext_getElem? heq]
  exact sameTable_self second

theorem StateNode.same_rest {first second : StateNode} (hsame : first.same second = true) :
    { first with properties := ∅, outputs := ∅ } = { second with properties := ∅, outputs := ∅ } := by
  rw [StateNode.same, Bool.and_eq_true, Bool.and_eq_true] at hsame
  exact of_decide_eq_true hsame.2

theorem folded_type (hfolded : folded node resolved live cls secrets = .ok row) :
    row.type = node.type := by
  obtain ⟨stored, -, hrow⟩ := folded_eq_ok hfolded
  rw [hrow]
  split <;> rfl

/-- A folded row's hash is cleared exactly if an input drifts, or was. -/
theorem folded_inputHash (hfolded : folded node resolved live cls secrets = .ok row)
    (hdrifts : ∃ key, Drifts node resolved live key) : row.inputHash = noInputHash := by
  obtain ⟨stored, -, hrow⟩ := folded_eq_ok hfolded
  have hcleared : (foldedRow node stored resolved live cls secrets).inputHash = noInputHash :=
    if_pos (foldRead_drifted.mpr hdrifts)
  rw [hrow]
  split
  next hsame =>
    have hhash := congrArg StateNode.inputHash (StateNode.same_rest hsame)
    exact hhash.symm.trans hcleared
  next => exact hcleared

/-- What a recorded property is afterwards. -/
theorem folded_recorded (hfolded : folded node resolved live cls secrets = .ok row) {key : String}
    (hrecorded : Recorded node resolved live key) : ∃ found, live[key]? = some found ∧
      row.properties[key]? = some found.canonicalize := by
  obtain ⟨stored, -, hrow⟩ := folded_eq_ok hfolded
  rw [foldedRow_not_same hrecorded, if_neg Bool.false_ne_true] at hrow
  obtain ⟨⟨held, found, hheld, hfound, hread⟩, held', hheld', hliteral⟩ := hrecorded
  rw [hheld] at hheld'
  cases hheld'
  refine ⟨found, hfound, ?_⟩
  have hunder := (Prod.mk.inj (foldRead_under node stored resolved live key)).1
  rw [hfound, hheld] at hunder
  simp only [landed, hread, hliteral, Bool.false_eq_true, if_false, if_true] at hunder
  rw [hrow]
  exact hunder

theorem folded_property_none (hfolded : folded node resolved live cls secrets = .ok row)
    {key : String} : row.properties[key]? = none ↔ node.properties[key]? = none := by
  by_cases hrecorded : Recorded node resolved live key
  · obtain ⟨found, -, hproperty⟩ := folded_recorded hfolded hrecorded
    obtain ⟨-, held, hheld, -⟩ := hrecorded
    rw [hproperty, hheld]
    simp
  · rw [(folded_property hfolded).mpr hrecorded]

/-! ## The second refresh -/

/-- The class and the read behave: a literal resolves to what is stored, the folded row is rebuilt
with every recorded value as it was read and every other property as it was resolved before, and no
output is read that looks like a sealed text. -/
structure Regular (classes : ResourceClasses) (secrets : SecretsRegistry) (env : HandleEnv)
    (node row : StateNode) (resolved live : Dict String Input) : Prop where
  literal : ∀ (key : String) (held : Value), node.properties[key]? = some held →
    (Input.ofValue held).any Input.isMarker = false →
      held.same (got (canonicalTable resolved) key) = true
  reported : ∀ (key : String) (found : Input), node.properties[key]? = none →
    live[key]? = some found → secrets.unsealValue found.canonicalize = .ok found.canonicalize
  rebuilt : ∃ res, rebuildRow classes secrets.unsealValue env row = .ok res ∧
    ∀ (key : String) (held : Value), row.properties[key]? = some held →
      (Recorded node resolved live key →
        (got (canonicalTable (resolvedProperties row res)) key).same held = true) ∧
      (¬Recorded node resolved live key →
        (got (canonicalTable (resolvedProperties row res)) key).same
          (got (canonicalTable resolved) key) = true)

/-- **A row that was refreshed is as it was after a second refresh.** -/
theorem folded_again {resolved' : Dict String Input} {opened : Dict String Value}
    (hfolded : folded node resolved live cls secrets = .ok row)
    (hopened : unsealOutputs secrets row.outputs = .ok opened)
    (houtputs : sameTable opened (foldRead node stored resolved live).outputs = true)
    (hresolved : ∀ (key : String) (held : Value), row.properties[key]? = some held →
      (Recorded node resolved live key → (got (canonicalTable resolved') key).same held = true) ∧
      (¬Recorded node resolved live key →
        (got (canonicalTable resolved') key).same (got (canonicalTable resolved) key) = true)) :
    folded row resolved' live cls secrets = .ok row := by
  have hdrifts : ∀ key, Drifts row resolved' live key →
      Drifts node resolved live key ∧ ¬Recorded node resolved live key := by
    rintro key ⟨held, found, hheld, hfound, hread⟩
    obtain ⟨hrecorded, hkept⟩ := hresolved key held hheld
    have hnot : ¬Recorded node resolved live key := by
      intro hrec
      obtain ⟨found', hfound', hproperty⟩ := folded_recorded hfolded hrec
      rw [hfound] at hfound'
      cases hfound'
      rw [hheld] at hproperty
      cases hproperty
      rw [hrecorded hrec] at hread
      cases hread
    refine ⟨?_, hnot⟩
    rw [(folded_property hfolded).mpr hnot] at hheld
    refine ⟨held, found, hheld, hfound, ?_⟩
    by_contra hsame
    rw [Value.same_trans (hkept hnot) ((Bool.not_eq_false _).mp hsame)] at hread
    cases hread
  have hrecords : ∀ key, ¬Recorded row resolved' live key := by
    rintro key ⟨hdrift, held, hheld, hliteral⟩
    obtain ⟨hbefore, hnot⟩ := hdrifts key hdrift
    have hsame := (hresolved key held hheld).2 hnot
    rw [(folded_property hfolded).mpr hnot] at hheld
    exact hnot ⟨hbefore, held, hheld, Value.same_trans hliteral hsame⟩
  have hleaves : LeavesOutputs row opened live := by
    intro key found hnone hfound
    rw [folded_property_none hfolded] at hnone
    have hunder := (Prod.mk.inj (foldRead_under node stored resolved live key)).2
    rw [hfound, hnone] at hunder
    have hkey := sameTable_iff.mp houtputs key
    rw [hunder] at hkey
    cases hvalue : opened[key]? with
    | none =>
      rw [hvalue] at hkey
      cases hkey
    | some value =>
      rw [hvalue] at hkey
      cases hkey with
      | some hsame => exact ⟨value, rfl, Value.same_symm hsame⟩
  have hsame : (foldedRow row opened resolved' live cls secrets).same row = true := by
    rw [StateNode.same, Bool.and_eq_true, Bool.and_eq_true]
    refine ⟨⟨sameTable_of_eq fun key => property_of_not_recorded (hrecords key), ?_⟩, ?_⟩
    · rw [foldedRow_outputs, (sameTable_foldRead resolved').mpr hleaves, if_pos rfl]
      exact sameTable_self row.outputs
    · have hhash : (if (foldRead row opened resolved' live).driftedInputs then noInputHash
          else row.inputHash) = row.inputHash := by
        split
        next hdrifted =>
          obtain ⟨key, hdrift⟩ := foldRead_drifted.mp hdrifted
          exact (folded_inputHash hfolded ⟨key, (hdrifts key hdrift).1⟩).symm
        next => rfl
      rw [decide_eq_true_eq]
      unfold foldedRow
      dsimp only
      rw [hhash]
  unfold folded
  rw [hopened]
  change Except.ok (if (foldedRow row opened resolved' live cls secrets).same row then row else _) = _
  rw [if_pos hsame]

/-- What the read says of a key that stands among both inputs and outputs is what both have. -/
def Agree (node : StateNode) (stored : Dict String Value) (resolved live : Dict String Input) :
    Prop :=
  ∀ (key : String) (held output : Value) (found : Input), node.properties[key]? = some held →
    stored[key]? = some output → live[key]? = some found →
      output.same found.canonicalize = true ∧
        (got (canonicalTable resolved) key).same found.canonicalize = true

/-- The report of a refresh and what it writes go together, and a second refresh settles. -/
structure Converges (classes : ResourceClasses) (secrets : SecretsRegistry) (env : HandleEnv)
    (node row : StateNode) (drift : NodeDrift) (stored : Dict String Value)
    (resolved live : Dict String Input) : Prop where
  /-- An input is reported exactly if the hash is cleared because of it. -/
  agrees : ∀ key ∈ node.properties,
    ((drift.changed[key]?).isSome = true ↔ Clears node stored resolved live key)
  /-- With the same read nothing is written again, and no literal and no output is reported. -/
  settles : ∃ again, refreshRow classes secrets env row live = .ok (row, again) ∧
    ∀ key : String, ((∃ held, node.properties[key]? = some held ∧
        (Input.ofValue held).any Input.isMarker = false) ∨ key ∈ row.outputs) →
      again.changed[key]? = none

theorem refreshRow_eq_ok {drift : NodeDrift}
    (hrefresh : refreshRow classes secrets env node live = .ok (row, drift)) :
    ∃ res, rebuildRow classes secrets.unsealValue env node = .ok res ∧
      folded node (resolvedProperties node res) live (classes.types node.type) secrets = .ok row ∧
      classifyDrift node (resolvedProperties node res) (some live)
        (((classes.types node.type).map (·.sensitive)).getD []) secrets = .ok drift := by
  obtain ⟨res, hres, hrefresh⟩ := bind_eq_ok hrefresh
  obtain ⟨found, hfound, hrefresh⟩ := bind_eq_ok hrefresh
  obtain ⟨report, hreport, hrefresh⟩ := bind_eq_ok hrefresh
  cases hrefresh
  exact ⟨res, hres, hfound, hreport⟩

theorem classifyDrift_ok (hstored : unsealOutputs secrets node.outputs = .ok stored) :
    ∃ drift, classifyDrift node resolved (some live) sensitive secrets = .ok drift := by
  unfold classifyDrift
  rw [hstored]
  exact ⟨_, rfl⟩

/-- What the report compares a row's key with after a refresh. -/
theorem baseline_again (resolved' : Dict String Input) {opened : Dict String Value}
    (houtputs : sameTable opened (foldRead node stored resolved live).outputs = true) {key : String}
    {found : Input} (hfound : live[key]? = some found) :
    (node.properties[key]? = none →
        (baseline resolved' opened key).same found.canonicalize = true) ∧
      (∀ held, node.properties[key]? = some held → (∀ output, stored[key]? = some output →
          ((baseline resolved' opened key).same found.canonicalize = true ↔
            output.same found.canonicalize = true)) ∧
        (stored[key]? = none → baseline resolved' opened key = got (canonicalTable resolved') key)) := by
  have hunder := (Prod.mk.inj (foldRead_under node stored resolved live key)).2
  have hkey := sameTable_iff.mp houtputs key
  rw [hfound] at hunder
  refine ⟨fun hnone => ?_, fun held hheld => ⟨fun output houtput => ?_, fun hnone => ?_⟩⟩
  · rw [hnone] at hunder
    rw [hunder] at hkey
    cases hvalue : opened[key]? with
    | none =>
      rw [hvalue] at hkey
      cases hkey
    | some value =>
      rw [hvalue] at hkey
      rw [baseline, hvalue]
      cases hkey with
      | some hsame => exact hsame
  · rw [hheld] at hunder
    rw [hunder, show (landed _ _ _ (some held) stored[key]?).2 = stored[key]? from rfl, houtput] at hkey
    cases hvalue : opened[key]? with
    | none =>
      rw [hvalue] at hkey
      cases hkey
    | some value =>
      rw [hvalue] at hkey
      rw [baseline, hvalue]
      cases hkey with
      | some hsame =>
        exact ⟨fun hlive => Value.same_trans (Value.same_symm hsame) hlive,
          fun hlive => Value.same_trans hsame hlive⟩
  · rw [hheld] at hunder
    rw [hunder, show (landed _ _ _ (some held) stored[key]?).2 = stored[key]? from rfl, hnone] at hkey
    cases hvalue : opened[key]? with
    | some value =>
      rw [hvalue] at hkey
      cases hkey
    | none =>
      rw [baseline, hvalue]
      rfl

/-- An input's name stands among a row's outputs after a refresh if it did before. -/
theorem mem_outputs_again {opened : Dict String Value}
    (hopened : unsealOutputs secrets row.outputs = .ok opened)
    (houtputs : sameTable opened (foldRead node stored resolved live).outputs = true) {key : String}
    {held : Value} (hheld : node.properties[key]? = some held) :
    key ∈ row.outputs ↔ key ∈ stored := by
  have hunder : (foldRead node stored resolved live).outputs[key]? = stored[key]? := by
    refine (Prod.mk.inj (foldRead_under node stored resolved live key)).2.trans ?_
    rw [hheld]
    cases live[key]? <;> rfl
  have hkey := sameTable_iff.mp houtputs key
  have hopens := unsealOutputs_at hopened key
  rw [hunder] at hkey
  rw [Std.ExtTreeMap.mem_iff_isSome_getElem?, Std.ExtTreeMap.mem_iff_isSome_getElem?]
  generalize row.outputs[key]? = sealed, opened[key]? = value, stored[key]? = before at hkey hopens ⊢
  cases hopens with
  | none =>
    cases hkey
    rfl
  | some _ =>
    cases hkey
    rfl

/-- **The report and the folding agree, and converge, unless a key stands on both sides.** For a class
that takes what it is given, an input is reported exactly if it clears the row's hash, and a second
refresh with the same read writes nothing and reports no literal and no output, exactly if the read
says of each key that is both an input and an output what both have. -/
theorem refreshRow_converges_iff {res : Rebuilt} {drift : NodeDrift} (hlawful : secrets.Lawful)
    (hres : rebuildRow classes secrets.unsealValue env node = .ok res)
    (hstored : unsealOutputs secrets node.outputs = .ok stored)
    (hrefresh : refreshRow classes secrets env node live = .ok (row, drift))
    (hregular : Regular classes secrets env node row (resolvedProperties node res) live) :
    Converges classes secrets env node row drift stored (resolvedProperties node res) live ↔
      Agree node stored (resolvedProperties node res) live := by
  obtain ⟨res₀, hres₀, hfolded, hdrift⟩ := refreshRow_eq_ok hrefresh
  rw [hres] at hres₀
  cases hres₀
  obtain ⟨opened, hopened, houtputs⟩ := folded_opens hlawful hstored hregular.reported hfolded
  have hchanged := classifyDrift_changed hstored hdrift
  constructor
  · rintro ⟨hagrees, again, hagain, hquiet⟩ key held output found hheld houtput hfound
    obtain ⟨res', hres', hfolded', hdrift'⟩ := refreshRow_eq_ok hagain
    have hmem : key ∈ row.outputs := by
      rw [mem_outputs_again hopened houtputs hheld, Std.ExtTreeMap.mem_iff_isSome_getElem?, houtput]
      rfl
    have hsync := (classifyDrift_changed hopened hdrift' key).mp (hquiet key (.inr hmem)) found hfound
    have hlive := (((baseline_again _ houtputs hfound).2 held hheld).1 output houtput).mp hsync
    refine ⟨hlive, ?_⟩
    by_contra hdiffers
    have hclears : Clears node stored (resolvedProperties node res) live key :=
      clears_iff.mpr ⟨held, found, hheld, hfound, (Bool.not_eq_true _).mp hdiffers⟩
    have hreported := (hagrees key (Std.ExtTreeMap.mem_iff_isSome_getElem?.mpr
      (by rw [hheld]; rfl))).mpr hclears
    have hnone : drift.changed[key]? = none := by
      refine (hchanged key).mpr fun other hother => ?_
      rw [hfound] at hother
      cases hother
      rw [baseline, houtput]
      exact hlive
    rw [hnone] at hreported
    cases hreported
  · intro hagree
    refine ⟨fun key hmem => ?_, ?_⟩
    · obtain ⟨held, hheld⟩ :=
        Option.isSome_iff_exists.mp (Std.ExtTreeMap.mem_iff_isSome_getElem?.mp hmem)
      rw [clears_iff, ← Option.ne_none_iff_isSome, ne_eq, hchanged key]
      constructor
      · intro hsome
        obtain ⟨found, hsome⟩ := not_forall.mp hsome
        obtain ⟨hfound, hdiffers⟩ := Classical.not_imp.mp hsome
        refine ⟨held, found, hheld, hfound, ?_⟩
        cases houtput : stored[key]? with
        | some output =>
          rw [baseline, houtput] at hdiffers
          exact absurd (hagree key held output found hheld houtput hfound).1 hdiffers
        | none =>
          rw [baseline, houtput] at hdiffers
          exact (Bool.not_eq_true _).mp hdiffers
      · rintro ⟨held', found, -, hfound, hread⟩ hall
        have hsame := hall found hfound
        cases houtput : stored[key]? with
        | some output =>
          rw [(hagree key held output found hheld houtput hfound).2] at hread
          cases hread
        | none =>
          rw [baseline, houtput] at hsame
          have hreads : (got (canonicalTable (resolvedProperties node res)) key).same
              found.canonicalize = true := hsame
          rw [hreads] at hread
          cases hread
    · obtain ⟨res', hres', hresolved⟩ := hregular.rebuilt
      have hagain := folded_again hfolded hopened houtputs hresolved
      obtain ⟨again, hreport⟩ : ∃ again, classifyDrift row (resolvedProperties row res') (some live)
          (((classes.types row.type).map (·.sensitive)).getD []) secrets = .ok again :=
        classifyDrift_ok hopened
      rw [← folded_type hfolded] at hagain
      refine ⟨again, ?_, fun key hkey => ?_⟩
      · unfold refreshRow
        rw [hres']
        exact (bind_of_ok hagain).trans (bind_of_ok hreport)
      · refine (classifyDrift_changed hopened hreport key).mpr fun found hfound => ?_
        obtain ⟨hout, hin⟩ := baseline_again (resolvedProperties row res') houtputs hfound
        cases hheld : node.properties[key]? with
        | none => exact hout hheld
        | some held =>
          obtain ⟨hshared, halone⟩ := hin held hheld
          cases houtput : stored[key]? with
          | some output =>
            exact (hshared output houtput).mpr (hagree key held output found hheld houtput hfound).1
          | none =>
            rw [halone houtput]
            have hliteral : held.same (got (canonicalTable (resolvedProperties node res)) key) = true := by
              rcases hkey with ⟨held', hheld', hplain⟩ | hmem
              · rw [hheld] at hheld'
                cases hheld'
                exact hregular.literal key held hheld hplain
              · rw [mem_outputs_again hopened houtputs hheld,
                  Std.ExtTreeMap.mem_iff_isSome_getElem?, houtput] at hmem
                cases hmem
            by_cases hrecorded : Recorded node (resolvedProperties node res) live key
            · obtain ⟨found', hfound', hproperty⟩ := folded_recorded hfolded hrecorded
              rw [hfound] at hfound'
              cases hfound'
              exact (hresolved key _ hproperty).1 hrecorded
            · have hproperty := (folded_property hfolded).mpr hrecorded
              rw [hheld] at hproperty
              refine Value.same_trans ((hresolved key held hproperty).2 hrecorded) ?_
              by_contra hdiffers
              exact hrecorded ⟨⟨held, found, hheld, hfound, (Bool.not_eq_true _).mp hdiffers⟩,
                held, hheld, hliteral⟩

end

/-! ## A queue and its settings -/

namespace Refreshed

/-- A registry without key material. -/
def keyless : SecretsRegistry where
  resolve _ := .ok "opened"
  digest _ text := .ok text
  sealText := .str
  unsealValue := .ok

theorem keyless_lawful : keyless.Lawful where
  opens _ := rfl
  settled _ _ _ := rfl
  respects _ second _ hsame hopened := by
    cases hopened
    exact ⟨second, rfl, hsame⟩

def queueType : ResourceType where
  provider := "aws"
  fields := [("delay", .mutable), ("arn", .computed)]

def classes : ResourceClasses := .asGiven fun _ => some queueType

def queue (outputs : Dict String Value) : StateNode where
  id := "prod:aws.SqsQueue:jobs"
  type := "aws.SqsQueue"
  provider := "aws"
  providerVersion := "1"
  inputHash := "h1"
  properties := (∅ : Dict String Value).insert "delay" (.int 5)
  outputs

def env : HandleEnv where
  rendering := Leniently.rendering
  outputs := ∅
  stackOutputs := ∅
  secrets _ := .error .shape

/-- The delay was changed outside. -/
def live : Dict String Input :=
  ((∅ : Dict String Input).insert "delay" (.int 60)).insert "arn" (.str "arn:jobs")

/-- A queue whose provider reports the delay among its outputs too. -/
def shared : StateNode :=
  queue (((∅ : Dict String Value).insert "delay" (.int 5)).insert "arn" (.str "arn:jobs"))

def distinct : StateNode := queue ((∅ : Dict String Value).insert "arn" (.str "arn:jobs"))

/-- The recorded delay is reported as drifted again and again. -/
theorem shared_reported : ∃ row drift again,
    refreshRow classes keyless env shared live = .ok (row, drift) ∧
    refreshRow classes keyless env row live = .ok (row, again) ∧
    row.properties["delay"]? = some (.int 60) ∧
    again.changed["delay"]? = some (.int 5, .int 60) ∧
    ∀ stored resolved, ¬Converges classes keyless env shared row drift stored resolved live := by
  have hrun : ((refreshRow classes keyless env shared live).toOption.bind fun first =>
      (refreshRow classes keyless env first.1 live).toOption.bind fun second =>
        if second.1 = first.1 ∧ first.1.properties["delay"]? = some (.int 60) then
          second.2.changed["delay"]?
        else none) = some (.int 5, .int 60) := by
    decide +kernel
  obtain ⟨⟨row, drift⟩, hfirst, hrun⟩ := Option.bind_eq_some_iff.mp hrun
  obtain ⟨⟨row', again⟩, hsecond, hreport⟩ := Option.bind_eq_some_iff.mp hrun
  dsimp only at hsecond hreport
  split at hreport
  next hrow =>
    obtain ⟨rfl, hdelay⟩ := hrow
    refine ⟨row', drift, again, ok_of_toOption hfirst, ok_of_toOption hsecond, hdelay, hreport,
      fun stored resolved hconverges => ?_⟩
    obtain ⟨-, again', hagain, hquiet⟩ := hconverges
    rw [ok_of_toOption hsecond] at hagain
    cases hagain
    have hsync := hquiet "delay" (.inl ⟨.int 5, by decide +kernel, by decide +kernel⟩)
    rw [hreport] at hsync
    cases hsync
  next => cases hreport

/-- Where the delay is an input alone, the second refresh has nothing to say. -/
theorem refreshRow_converges_iff_distinct : ∃ row drift stored res,
    refreshRow classes keyless env distinct live = .ok (row, drift) ∧
    Converges classes keyless env distinct row drift stored (resolvedProperties distinct res) live := by
  have hrun : ((rebuildRow classes keyless.unsealValue env distinct).toOption.bind fun res =>
      (refreshRow classes keyless env distinct live).toOption.bind fun first =>
        (rebuildRow classes keyless.unsealValue env first.1).toOption.bind fun again =>
          (unsealOutputs keyless distinct.outputs).toOption.bind fun stored =>
            some (distinct.properties.toList.all (fun entry => (stored[entry.1]?).isNone) &&
              first.1.properties.toList.all (fun entry => entry.1 = "delay" && (got
                (canonicalTable (resolvedProperties first.1 again)) entry.1).same entry.2) &&
              (got (canonicalTable (resolvedProperties distinct res)) "delay" = .int 5))) =
        some true := by
    decide +kernel
  obtain ⟨res, hres, hrun⟩ := Option.bind_eq_some_iff.mp hrun
  obtain ⟨⟨row, drift⟩, hrefresh, hrun⟩ := Option.bind_eq_some_iff.mp hrun
  obtain ⟨again, hagain, hrun⟩ := Option.bind_eq_some_iff.mp hrun
  obtain ⟨stored, hstored, hchecks⟩ := Option.bind_eq_some_iff.mp hrun
  rw [Option.some.injEq, Bool.and_eq_true, Bool.and_eq_true, decide_eq_true_eq, List.all_eq_true,
    List.all_eq_true] at hchecks
  obtain ⟨⟨halone, hrebuilt⟩, hdelay⟩ := hchecks
  have honly : ∀ (key : String) (held : Value), distinct.properties[key]? = some held →
      key = "delay" ∧ held = .int 5 := by
    intro key held hheld
    have hmem := Std.ExtTreeMap.mem_toList_iff_getElem?_eq_some.mpr hheld
    have hlist : distinct.properties.toList = [("delay", .int 5)] := by decide +kernel
    rw [hlist, List.mem_singleton] at hmem
    exact Prod.mk.inj hmem
  have hrecorded : Recorded distinct (resolvedProperties distinct res) live "delay" := by
    have hread : live["delay"]? = some (.int 60) := by
      rw [live, Std.ExtTreeMap.getElem?_insert, if_neg (by decide +kernel),
        Std.ExtTreeMap.getElem?_insert_self]
    refine ⟨⟨.int 5, .int 60, by decide +kernel, hread, ?_⟩, .int 5, by decide +kernel, ?_⟩
    · rw [hdelay]
      decide +kernel
    · rw [hdelay]
      decide +kernel
  refine ⟨row, drift, stored, res, ok_of_toOption hrefresh,
    (refreshRow_converges_iff keyless_lawful (ok_of_toOption hres) (ok_of_toOption hstored)
      (ok_of_toOption hrefresh) ⟨?_, fun _ _ _ _ => rfl, again, ok_of_toOption hagain, ?_⟩).mpr ?_⟩
  · intro key held hheld _
    obtain ⟨rfl, rfl⟩ := honly key held hheld
    rw [hdelay]
    exact Value.same_self _
  · intro key held hheld
    have hentry := hrebuilt (key, held) (Std.ExtTreeMap.mem_toList_iff_getElem?_eq_some.mpr hheld)
    rw [Bool.and_eq_true, decide_eq_true_eq] at hentry
    obtain ⟨rfl, hsame⟩ := hentry
    exact ⟨fun _ => hsame, fun hnot => absurd hrecorded hnot⟩
  · intro key held output found hheld houtput _
    have hnone := halone (key, held) (Std.ExtTreeMap.mem_toList_iff_getElem?_eq_some.mpr hheld)
    rw [houtput] at hnone
    cases hnone

end Refreshed

end Atlantide
