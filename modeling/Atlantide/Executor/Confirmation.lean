import Atlantide.Core.Same
import Atlantide.Engine.DestroyFirst
import Atlantide.Executor.Run
import Atlantide.Lib.Fallible
import Atlantide.Lib.Fold

/-! # What the apply confirms of a conditional REPLACE

The plan could not see the values behind a node's references. The apply resolves them and compares
each with the value the row was last applied with: through the recorded digest where the row keeps a
marker, and with the stored value where it keeps a literal. -/

namespace Atlantide

open Fallible

/-! ## The changes the apply confirms -/

/-- A REPLACE known only after apply, of a declared and recorded node that is no data source. -/
structure Change.KnownAfterApply (change : Change) : Prop where
  replace : change.action = .replace
  pair : ∃ desired prior, change.desired = some desired ∧ change.prior = some prior ∧
    desired.isData = false

/-- A classification waits for the apply only over a resource. -/
theorem classifyNode_conditional {desired : IRNode} {prior : StateNode}
    {mutability : String → Option Mutability} {moved : List String}
    {verdicts : Dict String Consumed} {unexplained : Bool}
    (hconditional :
      (classifyNode desired prior mutability moved verdicts unexplained).conditional = true) :
    (classifyNode desired prior mutability moved verdicts unexplained).KnownAfterApply := by
  unfold classifyNode at hconditional ⊢
  dsimp only at hconditional ⊢
  split at hconditional
  · cases hconditional
  next hreplace =>
    rw [if_neg hreplace]
    rw [Bool.or_eq_true, not_or] at hreplace
    exact ⟨rfl, desired, prior, rfl, rfl, Bool.eq_false_iff.mpr hreplace.1⟩

theorem forced_conditional {change : Change}
    (hchange : change.conditional = true → change.KnownAfterApply)
    (hconditional : (forced change).conditional = true) : (forced change).KnownAfterApply := by
  unfold forced at hconditional ⊢
  split at hconditional
  all_goals first | exact hchange hconditional | cases hconditional

namespace DiffInputs

variable {inputs : DiffInputs} {change : Change}

theorem changeFor_conditional {nodeId : String}
    (hconditional : (inputs.changeFor nodeId).conditional = true) :
    (inputs.changeFor nodeId).KnownAfterApply := by
  unfold changeFor at hconditional ⊢
  split at hconditional
  · cases hconditional
  · cases hconditional
  · split_ifs at hconditional ⊢
    · exact classifyNode_conditional hconditional
    · exact classifyNode_conditional hconditional

theorem refine_conditional {stale moved : List String}
    (hchange : change.conditional = true → change.KnownAfterApply)
    (hconditional : (inputs.refine stale moved change).conditional = true) :
    (inputs.refine stale moved change).KnownAfterApply := by
  unfold refine at hconditional ⊢
  split at hconditional
  · split at hconditional
    · split_ifs at hconditional ⊢
      · exact classifyNode_conditional hconditional
      · exact hchange hconditional
    · split_ifs at hconditional ⊢
      · exact hchange hconditional
      · exact classifyNode_conditional hconditional
    · split_ifs at hconditional ⊢
      · exact hchange hconditional
      · exact classifyNode_conditional hconditional
    · exact hchange hconditional
  · exact hchange hconditional

end DiffInputs

theorem Change.KnownAfterApply.createFirst {change : Change} (hchange : change.KnownAfterApply)
    (cbd : List String) : (createFirst change cbd).KnownAfterApply := by
  unfold Atlantide.createFirst
  split
  · exact ⟨hchange.replace, hchange.pair⟩
  · exact hchange

theorem createFirst_conditional (change : Change) (cbd : List String) :
    (createFirst change cbd).conditional = change.conditional := by
  unfold createFirst
  split <;> rfl

/-- Every conditional change of a diff is a REPLACE known only after apply. -/
theorem diff_conditional {inputs : DiffInputs} {replace : List String} {change : Change}
    (hmem : change ∈ (diff inputs replace).changes) (hconditional : change.conditional = true) :
    change.KnownAfterApply := by
  obtain ⟨before, hbefore, ⟨-, rfl⟩ | ⟨-, rfl⟩⟩ := behindDestroyFirst_change hmem
  · obtain ⟨first, hfirst, rfl⟩ := List.mem_map.mp hbefore
    rw [createFirst_conditional] at hconditional
    refine (DiffInputs.refine_conditional (fun hwaits => ?_) hconditional).createFirst _
    obtain ⟨plain, hplain, rfl⟩ := List.mem_map.mp hfirst
    obtain ⟨nodeId, -, rfl⟩ := List.mem_map.mp hplain
    split_ifs at hwaits ⊢
    · exact forced_conditional DiffInputs.changeFor_conditional hwaits
    · exact DiffInputs.changeFor_conditional hwaits
  · cases hconditional

/-! ## What a row was last applied with -/

/-- Digests that tell each field's value from the one it was last given, in either scheme. -/
def TellsApart (codec : Codec) (secrets : SecretsRegistry) (applied values : Dict String Value) :
    Prop :=
  ∀ (field : String) (value given : Value) (sensitive : Bool) (found : String),
    values[field]? = some value → applied[field]? = some given →
      digest codec secrets field value sensitive = .ok found →
        digest codec secrets field given sensitive = .ok found → value = given

/-- The values a row was last applied with. Each literal is one itself; each field with a reference
has its value's digest on record, and no other field has one. -/
structure StateNode.AppliedWith (row : StateNode) (codec : Codec) (secrets : SecretsRegistry)
    (applied : Dict String Value) : Prop where
  literal : ∀ (name : String) (value : Value), row.properties[name]? = some value →
    value.needsResolution = false → applied[name]? = some value ∧ row.refDigests[name]? = none
  recorded : ∀ (name : String) (value : Value), row.properties[name]? = some value →
    value.needsResolution = true → ∃ given sensitive found, applied[name]? = some given ∧
      digest codec secrets name given sensitive = .ok found ∧
      row.refDigests[name]? = some found
  only : ∀ name : String, row.properties[name]? = none →
    applied[name]? = none ∧ row.refDigests[name]? = none

/-- Whether a field's value is not the one the row was last applied with: another value where the
row records a digest, one that does not equal it where the row holds it, or one given or taken
away. -/
def StateNode.Moved (row : StateNode) (applied values : Dict String Value) (name : String) : Prop :=
  match values[name]?, applied[name]? with
  | some value, some given =>
    if name ∈ row.refDigests then value ≠ given else value.same given = false
  | some _, none | none, some _ => True
  | none, none => False

section

variable {codec : Codec} {secrets : SecretsRegistry} {field : String} {value : Value}
  {sensitive : Bool} {found : String}

/-- A record says which of the two schemes it was made by. -/
theorem digest_startsWith (hfound : digest codec secrets field value sensitive = .ok found) :
    found.startsWith saltedPrefix = sensitive ∧
      (sensitive = false → found.startsWith plainPrefix = true) := by
  unfold digest at hfound
  cases sensitive with
  | true =>
    rw [if_pos rfl] at hfound
    obtain ⟨text, -, rfl⟩ := map_eq_ok hfound
    refine ⟨?_, nofun⟩
    rw [String.startsWith_string_iff, String.toList_append]
    exact List.prefix_append ..
  | false =>
    obtain rfl := Except.ok.inj hfound
    refine ⟨?_, fun _ => ?_⟩
    · rw [Bool.eq_false_iff]
      intro hsalted
      rw [String.startsWith_string_iff, String.toList_append] at hsalted
      simp [saltedPrefix, plainPrefix] at hsalted
    · rw [String.startsWith_string_iff, String.toList_append]
      exact List.prefix_append ..

/-- A record answers whether a value is the one it was made of. -/
theorem sameAsRecorded_eq_some {other : Value} {verdict : Option Bool}
    (hapart : ∀ fresh, digest codec secrets field other sensitive = .ok fresh →
      digest codec secrets field value sensitive = .ok fresh → other = value)
    (hfound : digest codec secrets field value sensitive = .ok found)
    (hsame : sameAsRecorded codec secrets field other found = .ok verdict) :
    verdict = some (decide (other = value)) := by
  obtain ⟨hsalted, hplain⟩ := digest_startsWith hfound
  have hdecided : ∀ fresh, digest codec secrets field other sensitive = .ok fresh →
      decide (fresh = found) = decide (other = value) := by
    intro fresh hfresh
    refine decide_eq_decide.mpr ⟨?_, ?_⟩
    · rintro rfl
      exact hapart fresh hfresh hfound
    · rintro rfl
      exact Except.ok.inj (hfresh.symm.trans hfound)
  unfold sameAsRecorded at hsame
  rw [hsalted] at hsame
  cases sensitive with
  | true =>
    rw [if_pos rfl] at hsame
    obtain ⟨fresh, hfresh, rfl⟩ := map_eq_ok hsame
    exact congrArg some (hdecided fresh hfresh)
  | false =>
    rw [if_neg (by decide), if_pos (hplain rfl)] at hsame
    obtain ⟨fresh, hfresh, rfl⟩ := map_eq_ok hsame
    exact congrArg some (hdecided fresh hfresh)

end

/-! ## The comparison -/

/-- What a confirmation compares a field's value with: the value itself where the record says it is
the same, nothing where the record says it moved, and the stored value where no record can tell. -/
def comparedWith (recorded : Dict String String) (values stored : Dict String Value)
    (sameAs : String → Value → String → Option Bool) (field : String) : Option Value :=
  match recorded[field]?, values[field]? with
  | some digest, some value =>
    match sameAs field value digest with
    | none => stored[field]?
    | some true => some value
    | some false => none
  | _, _ => stored[field]?

/-- A field's value against what it is compared with. -/
def Apart : Option Value → Option Value → Prop
  | some value, some was => value.same was = false
  | some _, none | none, some _ => True
  | none, none => False

theorem getElem?_compared (recorded : Dict String String) (values stored : Dict String Value)
    (sameAs : String → Value → String → Option Bool) (field : String) :
    (recorded.foldl (fun (properties : Dict String Value) name digest =>
      match values[name]? with
      | none => properties
      | some value =>
        match sameAs name value digest with
        | none => properties
        | some true => properties.insert name value
        | some false => properties.erase name) stored)[field]? =
      comparedWith recorded values stored sameAs field := by
  unfold comparedWith
  have hother : ∀ (properties : Dict String Value) (name digest : String), name ≠ field →
      (match values[name]? with
        | none => properties
        | some value =>
          match sameAs name value digest with
          | none => properties
          | some true => properties.insert name value
          | some false => properties.erase name)[field]? = properties[field]? := by
    intro properties name digest hne
    have hcompare : compare name field ≠ .eq := fun heq =>
      hne (Std.LawfulEqCmp.eq_of_compare heq)
    split
    · rfl
    · split
      · rfl
      · rw [Std.ExtTreeMap.getElem?_insert, if_neg hcompare]
      · rw [Std.ExtTreeMap.getElem?_erase, if_neg hcompare]
  cases hrecorded : recorded[field]? with
  | none =>
    refine Fold.observe_of_forall (·[field]?) (fun properties name digest hname => ?_) stored
    refine hother properties name digest ?_
    rintro rfl
    rw [hrecorded] at hname
    cases hname
  | some found =>
    refine Fold.observe_at (·[field]?) hrecorded (fun properties hsame => ?_)
      fun properties name digest _ hne => hother properties name digest hne
    cases values[field]? with
    | none => exact hsame
    | some value =>
      dsimp only
      cases sameAs field value found with
      | none => exact hsame
      | some verdict =>
        cases verdict with
        | true => rw [Std.ExtTreeMap.getElem?_insert_self]
        | false => rw [Std.ExtTreeMap.getElem?_erase_self]

/-- How a confirmation settles a REPLACE, given which fields are immutable and which moved. -/
structure Change.Settles (planned verdict : Change) (immutable moved : String → Prop) : Prop where
  replace : verdict.action = .replace ↔ ∃ name, immutable name ∧ moved name
  kept : verdict.action = .replace → verdict = planned
  update : verdict.action = .update ↔
    (∃ name, moved name) ∧ ∀ name, moved name → ¬ immutable name
  fields : verdict.action = .update → verdict.changedFields.Nodup ∧
    ∀ name, name ∈ verdict.changedFields ↔ moved name
  noop : verdict.action = .noop ↔ ∀ name, ¬ moved name

/-- A REPLACE confirmed field by field is settled by the fields that differ. -/
theorem reclassify_settles {change : Change} {desired : IRNode} {prior : StateNode}
    {values stored : Dict String Value} {mutability : String → Option Mutability}
    {recorded : Dict String String} {sameAs : String → Value → String → Option Bool}
    {moved : String → Prop} (hreplace : change.action = .replace) (hdata : desired.isData = false)
    (hmoved : ∀ name, moved name ↔ name ∉ desired.ignoreChanges ∧
      Apart values[name]? (comparedWith recorded values stored sameAs name)) :
    change.Settles (reclassify change desired prior values stored mutability recorded sameAs)
      (mutability · = some .immutable) moved := by
  unfold reclassify
  dsimp only
  generalize hcompared : recorded.foldl _ stored = compared
  have hat : ∀ name, compared[name]? = comparedWith recorded values stored sameAs name := by
    intro name
    rw [← hcompared]
    exact getElem?_compared ..
  have hnamed : ∀ name, name ∈ namedFields { desired with properties := values }
      { prior with properties := compared } [] ∅ false ↔ moved name := by
    intro name
    rw [hmoved, ← hat, namedFields, Bool.false_and, if_neg (by decide), mem_changedFields]
    refine and_congr_right fun _ => ?_
    have hproperty : IRNode.property { desired with properties := values } name =
        values[name]?.getD .null := by
      rw [IRNode.property, Std.ExtTreeMap.getD_eq_getD_getElem?]
    rw [hproperty]
    simp only [touches_nil, Bool.false_eq_true, or_false, Std.ExtTreeMap.mem_iff_isSome_getElem?,
      differs, mem_settled, stable_nil, Std.ExtTreeMap.getElem?_empty, false_and, reduceCtorEq]
    cases values[name]? <;> cases compared[name]? <;> simp [Apart]
  have haction := classifyNode_action { desired with properties := values }
    { prior with properties := compared } mutability [] ∅ false
  have hfields := classifyNode_changedFields { desired with properties := values }
    { prior with properties := compared } mutability [] ∅ false
  generalize classifyNode { desired with properties := values }
    { prior with properties := compared } mutability [] ∅ false = fresh at haction hfields ⊢
  have hfound : ∀ name, name ∈ fresh.changedFields ↔ moved name := by
    intro name
    rw [hfields]
    exact hnamed name
  have hdistinct : fresh.changedFields.Nodup := by
    rw [hfields, namedFields, Bool.false_and, if_neg (by decide)]
    exact nodup_sortedSet _
  by_cases himmutable : ∃ name, mutability name = some .immutable ∧ moved name
  · have hkeeps : fresh.action = .replace := by
      obtain ⟨name, himm, hmove⟩ := himmutable
      rw [haction, if_pos ⟨by simp [IRNode.isData] at hdata ⊢; exact hdata, name, (hnamed name).mpr hmove, himm⟩]
    rw [if_pos hkeeps]
    obtain ⟨name, himm, hmove⟩ := himmutable
    refine ⟨?_, fun _ => rfl, ?_, ?_, ?_⟩
    · exact iff_of_true hreplace ⟨name, himm, hmove⟩
    · exact iff_of_false (by rw [hreplace]; decide) fun h => h.2 name hmove himm
    · intro hupdate
      rw [hreplace] at hupdate
      cases hupdate
    · exact iff_of_false (by rw [hreplace]; decide) fun h => h name hmove
  · have hdowngraded : fresh.action ≠ .replace := by
      rw [haction, if_neg]
      · decide
      · rintro ⟨-, name, hname, himm⟩
        exact himmutable ⟨name, himm, (hnamed name).mp hname⟩
    have hempty : fresh.changedFields.isEmpty = true ↔ ∀ name, ¬ moved name := by
      rw [List.isEmpty_iff, List.eq_nil_iff_forall_not_mem]
      exact forall_congr' fun name => not_congr (hfound name)
    rw [if_neg hdowngraded]
    have hmutable : ∀ name, moved name → ¬ mutability name = some .immutable := fun name hmove himm =>
      himmutable ⟨name, himm, hmove⟩
    by_cases hnone : fresh.changedFields.isEmpty = true
    · have hstill := hempty.mp hnone
      refine ⟨?_, ?_, ?_, ?_, ?_⟩
      all_goals simp only [hnone, if_true]
      · exact iff_of_false (by decide) himmutable
      · rintro ⟨⟩
      · exact iff_of_false (by decide) fun h => h.1.elim hstill
      · rintro ⟨⟩
      · exact iff_of_true trivial hstill
    · have hmoves : ∃ name, moved name := by
        by_contra hstill
        exact hnone (hempty.mpr fun name hmove => hstill ⟨name, hmove⟩)
      refine ⟨?_, ?_, ?_, ?_, ?_⟩
      all_goals simp only [hnone]
      · exact iff_of_false (by decide) himmutable
      · rintro ⟨⟩
      · exact iff_of_true rfl ⟨hmoves, hmutable⟩
      · exact fun _ => ⟨hdistinct, hfound⟩
      · exact iff_of_false (by decide) fun h => hmoves.elim h

/-- What resolving a row's properties leaves of a field. -/
theorem resolveProperties_eq_ok {codec : Codec} {outputs : LiveOutputs} {strict : Bool}
    {properties resolved : Dict String Value}
    (hok : resolveProperties codec outputs strict properties = .ok resolved) :
    (∀ (name : String) (value : Value), properties[name]? = some value →
      ∃ found, resolved[name]? = some found ∧ (value.needsResolution = false → found = value)) ∧
      ∀ name : String, properties[name]? = none → resolved[name]? = none := by
  have hfold : Fold.traverse (fun value : Value =>
      if value.needsResolution then resolveValue codec outputs strict value else .ok value)
      properties = .ok resolved := by
    rw [← hok, resolveProperties, Fold.traverse]
    congr 1
    funext found name value
    cases found with
    | error fault => rfl
    | ok table => cases value.needsResolution <;> rfl
  obtain ⟨hat, hout⟩ := Fold.traverse_eq_ok.mp hfold
  refine ⟨fun name value hvalue => ?_, hout⟩
  obtain ⟨found, hfound, hresolved⟩ := hat name value hvalue
  refine ⟨found, hresolved, fun hplain => ?_⟩
  rw [hplain, if_neg (by decide)] at hfound
  exact (Except.ok.inj hfound).symm

namespace Executor.RunContext

variable {run : RunContext} {row : StateNode} {applied values stored : Dict String Value}

/-- Where every record can be compared, the run's verdict on one is the record's own. -/
theorem sameAs_eq_some (hapart : TellsApart run.env.codec run.env.secrets applied values)
    (hchecked : run.matchFault row.refDigests values = none) {name found : String}
    {value given : Value} {sensitive : Bool} (hrecorded : row.refDigests[name]? = some found)
    (hvalue : values[name]? = some value) (hgiven : applied[name]? = some given)
    (hfound : digest run.env.codec run.env.secrets name given sensitive = .ok found) :
    run.sameAs name value found = some (decide (value = given)) := by
  have hmem : (name, found) ∈ row.refDigests.toList :=
    Std.ExtTreeMap.mem_toList_iff_getElem?_eq_some.mpr hrecorded
  have hasked := List.findSome?_eq_none_iff.mp hchecked (name, found) hmem
  dsimp only at hasked
  rw [hvalue, Option.bind_some] at hasked
  unfold sameAs
  cases hverdict : sameAsRecorded run.env.codec run.env.secrets name value found with
  | error fault =>
    rw [hverdict] at hasked
    cases hasked
  | ok verdict =>
    exact sameAsRecorded_eq_some (fun fresh hfresh hfresh' =>
      hapart name value given sensitive fresh hvalue hgiven hfresh hfresh') hfound hverdict

/-- A field differs from what the confirmation compares it with exactly when it moved. -/
theorem apart_comparedWith (happlied : row.AppliedWith run.env.codec run.env.secrets applied)
    (hapart : TellsApart run.env.codec run.env.secrets applied values)
    (hstored : resolveProperties run.env.codec run.priorOutputs false row.properties = .ok stored)
    (hchecked : run.matchFault row.refDigests values = none) (name : String) :
    Apart values[name]? (comparedWith row.refDigests values stored run.sameAs name) ↔
      row.Moved applied values name := by
  obtain ⟨hkept, habsent⟩ := resolveProperties_eq_ok hstored
  unfold StateNode.Moved comparedWith
  cases hproperty : row.properties[name]? with
  | none =>
    obtain ⟨hgiven, hrecorded⟩ := happlied.only name hproperty
    rw [hgiven, hrecorded, habsent name hproperty]
    cases values[name]? <;> exact Iff.rfl
  | some property =>
    obtain ⟨was, hwas, hliteral⟩ := hkept name property hproperty
    cases hneeds : property.needsResolution with
    | false =>
      obtain ⟨hgiven, hrecorded⟩ := happlied.literal name property hproperty hneeds
      have hunrecorded : name ∉ row.refDigests := by
        rw [Std.ExtTreeMap.mem_iff_isSome_getElem?, hrecorded]
        decide
      rw [hgiven, hrecorded, hwas, hliteral hneeds]
      cases values[name]? with
      | none => exact Iff.rfl
      | some value =>
        dsimp only
        rw [if_neg hunrecorded]
        exact Iff.rfl
    | true =>
      obtain ⟨given, sensitive, found, hgiven, hfound, hrecorded⟩ :=
        happlied.recorded name property hproperty hneeds
      have hmem : name ∈ row.refDigests := by
        rw [Std.ExtTreeMap.mem_iff_isSome_getElem?, hrecorded]
        rfl
      rw [hgiven, hrecorded, hwas]
      cases hvalue : values[name]? with
      | none => exact Iff.rfl
      | some value =>
        dsimp only
        rw [if_pos hmem, sameAs_eq_some hapart hchecked hrecorded hvalue hgiven hfound]
        by_cases hsame : value = given
        · rw [decide_eq_true hsame]
          exact iff_of_false (by simp [Apart, Value.same_self]) fun hne => hne hsame
        · rw [decide_eq_false hsame]
          exact iff_of_true trivial hsame

/-- **A confirmation is the plan with the values known.** Of every conditional REPLACE a diff plans,
over a row with every reference on record, whatever became of its create-before-destroy flag. -/
theorem confirmed_exact {inputs : DiffInputs} {replace : List String} {change : Change}
    {desired : IRNode} {live : LiveOutputs} (cbd : Bool)
    (hplan : change ∈ (diff inputs replace).changes) (hconditional : change.conditional = true)
    (hdesired : change.desired = some desired) (hprior : change.prior = some row)
    (hrow : run.prior[change.nodeId]? = some row)
    (happlied : row.AppliedWith run.env.codec run.env.secrets applied)
    (hapart : TellsApart run.env.codec run.env.secrets applied values)
    (hvalues : resolveProperties run.env.codec live true desired.properties = .ok values)
    (hstored : resolveProperties run.env.codec run.priorOutputs false row.properties = .ok stored)
    (hchecked : run.matchFault row.refDigests values = none) :
    let planned := { change with createBeforeDestroy := cbd }
    let verdict := reclassify planned desired row values stored
      (typeMutability run.env.types desired.type) row.refDigests run.sameAs
    run.confirmed live change.nodeId planned =
        (if verdict.action = .replace ∧ desired.preventDestroy = true then .error .prevented
          else .ok verdict) ∧
      planned.Settles verdict (typeMutability run.env.types desired.type · = some .immutable)
        fun name => name ∉ desired.ignoreChanges ∧ row.Moved applied values name := by
  intro planned verdict
  obtain ⟨hreplace, want, prior, hwant, -, hdata⟩ := diff_conditional hplan hconditional
  obtain rfl : want = desired := Option.some.inj (hwant.symm.trans hdesired)
  constructor
  · unfold confirmed
    rw [hrow, show planned.desired = some want from hdesired,
      show planned.prior = some row from hprior]
    dsimp only
    rw [hvalues, hstored]
    dsimp only
    rw [hchecked]
  · exact reclassify_settles hreplace hdata fun name =>
      and_congr_right fun _ => (apart_comparedWith happlied hapart hstored hchecked name).symm

end Executor.RunContext

namespace Executor.Small

/-- Things in a zone, which like their kind only a new one can change. -/
def zonedThing : ResourceType :=
  { thing with fields := thing.fields ++ [("zone", .immutable)] }

def zoned : ApplyEnv :=
  { env with types := fun type => if type = "t" then some zonedThing else none }

/-- A node of a kind it takes from `u`, whose zone the config leaves alone. -/
def member (zone : String) : IRNode :=
  { node "n" [] ((∅ : Dict String Value).insert "kind" (.dict [("$ref", .str "s:t:u#id")])
      |>.insert "zone" (.str zone)) ["s:t:u"] with ignoreChanges := ["zone"] }

def sized (size : String) : IRNode :=
  node "u" [] ((∅ : Dict String Value).insert "size" (.str size))

/-- The config makes `u` larger and names another zone. -/
def regrown : Desired := config [sized "2", member "b"]

def memberRow : StateNode :=
  { row (member "a") "r1" with
    inputHash := "before", refDigests := (∅ : Dict String String).insert "kind" "sha256:r0" }

def zonedRows : StateGraph := rows [row (sized "1") "r0", memberRow]

def zonedInputs : DiffInputs :=
  { diffInputs regrown zonedRows with mutability := typeMutability zoned.types }

def regrowing : RunContext :=
  .wire zoned regrown (diff zonedInputs []) zonedRows false (by decide +kernel) (diff_planned _ _)

/-- The values the node was last applied with, and those it would be applied with now. -/
def memberGiven (zone : String) : Dict String Value :=
  (∅ : Dict String Value).insert "kind" (.str "r0") |>.insert "zone" (.str zone)

/-- The change of the node that the apply confirms. -/
def memberChange : Change :=
  { nodeId := "s:t:n", action := .replace, desired := some (member "b"), prior := some memberRow
    changedFields := ["kind"], conditional := true }

theorem getElem?_kindZone (kind zone : Value) (name : String) :
    ((∅ : Dict String Value).insert "kind" kind |>.insert "zone" zone)[name]? =
      if name = "zone" then some zone else if name = "kind" then some kind else none := by
  have hcompare : ∀ field : String, compare field name = .eq ↔ name = field := fun field =>
    ⟨fun heq => (Std.LawfulEqCmp.eq_of_compare heq).symm, fun heq => heq ▸ Std.ReflCmp.compare_self⟩
  simp only [Std.ExtTreeMap.getElem?_insert, Std.ExtTreeMap.getElem?_empty, hcompare]

theorem memberRow_appliedWith : memberRow.AppliedWith codec secrets (memberGiven "a") := by
  have hproperty : ∀ name : String, memberRow.properties[name]? =
      if name = "zone" then some (.str "a") else
        if name = "kind" then some (.dict [("$ref", .str "s:t:u#id")]) else none :=
    getElem?_kindZone _ _
  refine ⟨fun name value hvalue hplain => ?_, fun name value hvalue hneeds => ?_,
    fun name habsent => ?_⟩
  · rw [hproperty] at hvalue
    split_ifs at hvalue with hzone hkind
    · obtain rfl := hzone
      obtain rfl := Option.some.inj hvalue
      exact ⟨by decide +kernel, by decide +kernel⟩
    · obtain rfl := Option.some.inj hvalue
      exact absurd hplain (by decide +kernel)
  · rw [hproperty] at hvalue
    split_ifs at hvalue with hzone hkind
    · obtain rfl := Option.some.inj hvalue
      exact absurd hneeds (by decide +kernel)
    · obtain rfl := hkind
      exact ⟨.str "r0", false, "sha256:r0", by decide +kernel, by decide +kernel, by decide +kernel⟩
  · rw [hproperty] at habsent
    split_ifs at habsent with hzone hkind
    refine ⟨?_, ?_⟩
    · rw [memberGiven, getElem?_kindZone, if_neg hzone, if_neg hkind]
    · rw [memberRow, Std.ExtTreeMap.getElem?_insert, if_neg, Std.ExtTreeMap.getElem?_empty]
      exact fun heq => hkind (Std.LawfulEqCmp.eq_of_compare heq).symm

theorem memberGiven_tellsApart :
    TellsApart codec secrets (memberGiven "a") (memberGiven "b") := by
  intro field value given sensitive found hvalue hgiven hfound hfound'
  rw [memberGiven, getElem?_kindZone] at hvalue hgiven
  split_ifs at hvalue hgiven
  · obtain rfl := Option.some.inj hvalue
    obtain rfl := Option.some.inj hgiven
    have hsame := hfound.trans hfound'.symm
    cases sensitive with
    | true =>
      have htexts := (String.append_right_inj _).mp ((String.append_right_inj _).mp
        (Except.ok.inj hsame))
      exact absurd htexts (by decide)
    | false => exact absurd ((String.append_right_inj _).mp (Except.ok.inj hsame)) (by decide)
  · exact Option.some.inj (hvalue.symm.trans hgiven)

end Executor.Small

namespace Executor.RunContext

/-- The node's kind is what it was, so the REPLACE is none. -/
theorem confirmed_exact_member :
    let verdict := reclassify { Small.memberChange with createBeforeDestroy := true }
      (Small.member "b") Small.memberRow (Small.memberGiven "b")
      (Small.memberGiven "a") (typeMutability Small.zoned.types "t")
      Small.memberRow.refDigests Small.regrowing.sameAs
    verdict.action = .noop ↔ ∀ name, ¬ (name ∉ ["zone"] ∧ Small.memberRow.Moved
      (Small.memberGiven "a") (Small.memberGiven "b") name) :=
  (@confirmed_exact Small.regrowing Small.memberRow
    (Small.memberGiven "a") (Small.memberGiven "b")
    (Small.memberGiven "a") Small.zonedInputs [] Small.memberChange
    (Small.member "b") Small.regrowing.priorOutputs true (by decide +kernel) rfl
    rfl rfl (by decide +kernel) Small.memberRow_appliedWith
    Small.memberGiven_tellsApart (by decide +kernel) (by decide +kernel)
    (by decide +kernel)).2.noop

/-- A field the config leaves alone moved, and only a new resource could change it: the REPLACE is
none all the same. -/
theorem ignored_field_downgrades :
    Small.memberChange ∈ (diff Small.zonedInputs []).changes ∧
      Small.memberChange.conditional = true ∧
      Small.memberRow.AppliedWith Small.codec Small.secrets
        (Small.memberGiven "a") ∧
      typeMutability Small.zoned.types "t" "zone" = some .immutable ∧
      Small.memberRow.Moved (Small.memberGiven "a")
        (Small.memberGiven "b") "zone" ∧
      (Small.regrowing.confirmed Small.regrowing.priorOutputs "s:t:n"
        Small.memberChange).toOption.map (·.action) = some .noop := by
  refine ⟨by decide +kernel, rfl, Small.memberRow_appliedWith, by decide +kernel, ?_,
    by decide +kernel⟩
  unfold StateNode.Moved
  rw [Small.memberGiven, Small.memberGiven, Small.getElem?_kindZone,
    Small.getElem?_kindZone, if_pos rfl, if_pos rfl]
  dsimp only
  rw [if_neg (by decide +kernel)]
  decide

end Executor.RunContext

end Atlantide
