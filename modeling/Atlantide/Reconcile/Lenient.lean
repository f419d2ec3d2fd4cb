import Mathlib.Logic.Relation
import Atlantide.Reconcile.Rebuild

/-! # Resolution from partial state

Rows are rebuilt from whatever outputs there are. A reference to an output that is not there stays a
reference. A transform is evaluated all the same, over the operands as they are. -/

namespace Atlantide

open Fallible

/-- The output a reference names, if it is there. -/
def LiveOutputs.find? (outputs : LiveOutputs) (ref : Ref) : Option Value :=
  (outputs[ref.nodeId]?).bind (·[ref.attr]?)

/-- There is every output that was there. -/
def LiveOutputs.Extends (more outputs : LiveOutputs) : Prop :=
  ∀ (ref : Ref) (value : Value), outputs.find? ref = some value → more.find? ref = some value

namespace Input

/-- The operands in the body of a transform marker. -/
def markerOperands : List (String × Input) → List Input
  | (_, .dict body) :: _ =>
    match body.lookup "args" with
    | some (.list items) => items
    | _ => []
  | _ => []

/-- The values resolution goes on to from a value. -/
def reached : Input → List Input
  | .list items | .transform _ items => items
  | .model fields => fields.map Prod.snd
  | .dict fields =>
    if (Input.dict fields).isRefMarker then []
    else if (Input.dict fields).isTransformMarker then markerOperands fields
    else fields.map Prod.snd
  | _ => []

/-- Resolution comes from the value to the part. -/
def Reaches (value part : Input) : Prop :=
  Relation.ReflTransGen (fun value part => part ∈ value.reached) value part

/-- A transform that waits for its operands, live or as a marker. -/
def isDeferral (value : Input) : Bool := value.isTransform || value.isTransformMarker

/-- The reference a value is, live or as a marker. -/
def target? : Input → Option Ref
  | .ref found => some found
  | value => value.refFromMarker

/-- A reference to an output that is not there. -/
def IsMissing (outputs : LiveOutputs) (value : Input) : Prop :=
  ∃ found, value.target? = some found ∧ outputs.find? found = none

/-- Resolution from partial state never evaluates what is unknown. -/
structure LeavesUnknown (rendering : Rendering) (outputs : LiveOutputs)
    (unknown : Input → Prop) (value : Input) : Prop where
  /-- A fault is none that a further output would have spared. -/
  raises : ∀ fault, resolve rendering outputs false value = .error fault →
    ∀ more : LiveOutputs, more.Extends outputs →
      resolve rendering more false value = .error fault
  /-- A reference to an output that is not there stays one. -/
  references : ∀ part, value.Reaches part → ∀ found, part.target? = some found →
    outputs.find? found = none → resolve rendering outputs false part = .ok (.ref found)
  /-- A transform with something unknown in an operand stays a transform. -/
  deferred : ∀ part, value.Reaches part → part.isDeferral →
    (∃ operand ∈ part.reached, ∃ inner, operand.Reaches inner ∧ unknown inner) →
      ∃ kept, resolve rendering outputs false part = .ok kept ∧ kept.isDeferral
  /-- Where every output is there, the result is the strict one. -/
  complete : (∀ part, value.Reaches part → ¬IsMissing outputs part) →
    resolve rendering outputs true value = resolve rendering outputs false value

/-- No transform has anything unknown in an operand. -/
def Evaluable (unknown : Input → Prop) (value : Input) : Prop :=
  ∀ part, value.Reaches part → part.isDeferral →
    ∀ operand ∈ part.reached, ∀ inner, operand.Reaches inner → ¬unknown inner

/-- A transform marker is no reference. -/
theorem refFromMarker_eq_none {value : Input} (hmarker : value.isTransformMarker = true) :
    value.refFromMarker = none := by
  match value with
  | .dict [(key, payload)] =>
    by_cases hkey : key = refKey
    · subst hkey
      cases hmarker
    · rw [refFromMarker, singleKeyMarker, if_neg hkey]
  | .dict [] | .dict (_ :: _ :: _) => rfl
  | .null | .bool _ | .int _ | .float _ | .str _ | .list _ | .model _ | .ref _ | .secretRef _
  | .stackOutputRef _ _ | .transform _ _ | .rendered _ => rfl

/-! ## Induction over what resolution comes to -/

theorem sizeOf_mem_fields {fields : List (String × Input)} {part : Input}
    (hmem : part ∈ fields.map Prod.snd) : sizeOf part < sizeOf fields := by
  obtain ⟨⟨name, value⟩, hentry, rfl⟩ := List.mem_map.mp hmem
  have hless := List.sizeOf_lt_of_mem hentry
  simp only [Prod.mk.sizeOf_spec] at hless
  change sizeOf value < sizeOf fields
  omega

theorem sizeOf_markerOperands {fields : List (String × Input)} {part : Input}
    (hmem : part ∈ markerOperands fields) : sizeOf part < sizeOf fields := by
  unfold markerOperands at hmem
  split at hmem
  next name body rest =>
    split at hmem
    next items hargs =>
      obtain ⟨before, after, rfl, -⟩ := List.lookup_eq_some_iff.mp hargs
      have hitem := List.sizeOf_lt_of_mem hmem
      have hbody : sizeOf ("args", Input.list items) <
          sizeOf (before ++ ("args", Input.list items) :: after) :=
        List.sizeOf_lt_of_mem (List.mem_append_right _ (List.mem_cons_self ..))
      simp only [Prod.mk.sizeOf_spec, Input.list.sizeOf_spec] at hbody
      simp only [List.cons.sizeOf_spec, Prod.mk.sizeOf_spec, Input.dict.sizeOf_spec]
      omega
    next => cases hmem
  next => cases hmem

theorem sizeOf_reached {value part : Input} (hmem : part ∈ value.reached) :
    sizeOf part < sizeOf value := by
  cases value with
  | list items | transform op items =>
    have hless := List.sizeOf_lt_of_mem (show part ∈ items from hmem)
    simp
    omega
  | model fields =>
    have hless := sizeOf_mem_fields hmem
    simp only [Input.model.sizeOf_spec]
    omega
  | dict fields =>
    simp only [Input.dict.sizeOf_spec]
    rw [reached] at hmem
    split at hmem
    · cases hmem
    · split at hmem
      · have hless := sizeOf_markerOperands hmem
        omega
      · have hless := sizeOf_mem_fields hmem
        omega
  | _ => cases hmem

theorem reached_ind {motive : Input → Prop}
    (step : ∀ value, (∀ part ∈ value.reached, motive part) → motive value) (value : Input) :
    motive value :=
  step value fun part hmem =>
    have := sizeOf_reached hmem
    reached_ind step part
termination_by sizeOf value

section

variable {rendering : Rendering} {outputs more : LiveOutputs} {strict strict' : Bool}

/-! ## The same operands -/

theorem lookup_eq (outputs : LiveOutputs) (strict : Bool) (found : Ref) :
    lookup outputs strict found = match outputs.find? found with
      | some value => .ok (ofValue value)
      | none => if strict then .error (.missing found.nodeId found.attr) else .ok (.ref found) := rfl

theorem resolveItems_congr {items : List Input}
    (hsame : ∀ item ∈ items, resolve rendering outputs strict item =
      resolve rendering more strict' item) :
    resolveItems rendering outputs strict items = resolveItems rendering more strict' items := by
  induction items with
  | nil => rfl
  | cons item items ih =>
    rw [resolveItems, resolveItems, hsame item (List.mem_cons_self ..),
      ih fun other hmem => hsame other (List.mem_cons_of_mem _ hmem)]

theorem resolveFields_congr {fields : List (String × Input)}
    (hsame : ∀ value ∈ fields.map Prod.snd, resolve rendering outputs strict value =
      resolve rendering more strict' value) :
    resolveFields rendering outputs strict fields = resolveFields rendering more strict' fields := by
  induction fields with
  | nil => rfl
  | cons entry fields ih =>
    obtain ⟨name, value⟩ := entry
    rw [List.map_cons, List.forall_mem_cons] at hsame
    rw [resolveFields, resolveFields, hsame.1, ih hsame.2]

theorem resolveArgs_congr {args : Input}
    (hsame : ∀ items, args = .list items → ∀ item ∈ items, resolve rendering outputs strict item =
      resolve rendering more strict' item) :
    resolveArgs rendering outputs strict args = resolveArgs rendering more strict' args := by
  cases args with
  | list items => exact resolveItems_congr (hsame items rfl)
  | _ => rfl

theorem resolveOperands_congr {body : List (String × Input)}
    (hsame : ∀ items, body.lookup "args" = some (.list items) → ∀ item ∈ items,
      resolve rendering outputs strict item = resolve rendering more strict' item) :
    resolveOperands rendering outputs strict body =
      resolveOperands rendering more strict' body := by
  induction body with
  | nil => rfl
  | cons entry body ih =>
    obtain ⟨name, value⟩ := entry
    rw [resolveOperands, resolveOperands]
    by_cases hname : name = "args"
    · rw [if_pos hname, if_pos hname]
      refine resolveArgs_congr fun items hitems => hsame items ?_
      rw [hname, hitems, List.lookup_cons_self]
    · rw [if_neg hname, if_neg hname]
      refine ih fun items hitems => hsame items ?_
      rw [List.lookup_cons, beq_eq_false_iff_ne.mpr (Ne.symm hname)]
      exact hitems

/-- What a transform comes to depends on its operands alone. -/
theorem resolve_deferral_congr {value : Input} (hdeferral : value.isDeferral)
    (hsame : ∀ operand ∈ value.reached, resolve rendering outputs strict operand =
      resolve rendering more strict' operand) :
    resolve rendering outputs strict value = resolve rendering more strict' value := by
  cases value with
  | transform op args =>
    have hargs : resolveItems rendering outputs strict args =
        resolveItems rendering more strict' args := resolveItems_congr hsame
    rw [resolve, resolve, hargs]
  | dict fields =>
    have hmarker : (Input.dict fields).isTransformMarker = true := hdeferral
    have href : (Input.dict fields).refFromMarker = none := refFromMarker_eq_none hmarker
    rw [resolve, resolve, href]
    dsimp only
    rw [if_pos hmarker, if_pos hmarker]
    rw [reached, isRefMarker, href, if_neg (by simp), if_pos hmarker] at hsame
    rcases fields with _ | ⟨⟨key, value⟩, rest⟩
    · rfl
    cases value with
    | dict body =>
      have hoperands : resolveOperands rendering outputs strict body =
          resolveOperands rendering more strict' body := by
        refine resolveOperands_congr fun items hitems item hmem => hsame item ?_
        rw [markerOperands, hitems]
        exact hmem
      rw [resolveMarker, resolveMarker, hoperands]
    | _ => rfl
  | _ => cases hdeferral

theorem lookup_congr (hmore : more.Extends outputs) {found : Ref}
    (hthere : outputs.find? found ≠ none) :
    lookup outputs strict found = lookup more strict' found := by
  obtain ⟨value, hvalue⟩ := Option.ne_none_iff_exists'.mp hthere
  rw [lookup_eq, lookup_eq, hvalue, hmore found value hvalue]

/-- **Where every output is there, more of them change nothing**, nor does strictness. -/
theorem resolve_congr (hmore : more.Extends outputs) {value : Input}
    (hknown : ∀ part, value.Reaches part → ¬IsMissing outputs part) :
    resolve rendering outputs strict value = resolve rendering more strict' value := by
  induction value using reached_ind with
  | step value ih =>
    have hparts : ∀ part ∈ value.reached, resolve rendering outputs strict part =
        resolve rendering more strict' part := fun part hmem =>
      ih part hmem fun inner hinner => hknown inner (.head hmem hinner)
    have hhere := hknown value .refl
    have hthere : ∀ found, value.target? = some found → outputs.find? found ≠ none :=
      fun found htarget hnone => hhere ⟨found, htarget, hnone⟩
    cases value with
    | list items =>
      rw [resolve, resolve]
      exact congrArg (·.map Input.list) (resolveItems_congr hparts)
    | model fields =>
      rw [resolve, resolve]
      exact congrArg (·.map Input.dict) (resolveFields_congr hparts)
    | ref found =>
      rw [resolve, resolve, lookup_congr hmore (hthere found rfl)]
    | transform op args => exact resolve_deferral_congr rfl hparts
    | dict fields =>
      cases hmarker : (Input.dict fields).isTransformMarker with
      | true => exact resolve_deferral_congr hmarker hparts
      | false =>
        cases href : (Input.dict fields).refFromMarker with
        | some found =>
          rw [resolve, resolve, href]
          exact lookup_congr hmore (hthere found href)
        | none =>
          rw [reached, isRefMarker, href, if_neg (by simp), hmarker, if_neg (by simp)] at hparts
          rw [resolve_dict href hmarker, resolve_dict href hmarker, resolveFields_congr hparts]
    | _ => rfl

/-! ## The same faults -/

/-- How a computation ended, without what it came to. -/
def ending {α : Type} (result : Except Fault α) : Except Fault Unit := result.map fun _ => ()

theorem ending_eq_error {α β : Type} {first : Except Fault α} {second : Except Fault β}
    (hsame : ending first = ending second) {fault : Fault} (hfault : first = .error fault) :
    second = .error fault := by
  subst hfault
  cases second with
  | error other =>
    cases hsame
    rfl
  | ok value => cases hsame

theorem ending_map {α β : Type} (image : α → β) (result : Except Fault α) :
    ending (result.map image) = ending result := by
  cases result <;> rfl

theorem ending_cons {α β γ : Type} {first first' : Except Fault α} {rest rest' : Except Fault β}
    {join join' : α → β → γ} (hfirst : ending first = ending first')
    (hrest : ending rest = ending rest') :
    ending (do .ok (join (← first) (← rest))) = ending (do .ok (join' (← first') (← rest'))) := by
  cases first <;> cases first' <;> cases rest <;> cases rest' <;> simp_all [ending, Except.map] <;>
    rfl

theorem ending_resolveItems {items : List Input}
    (hsame : ∀ item ∈ items, ending (resolve rendering outputs strict item) =
      ending (resolve rendering more strict' item)) :
    ending (resolveItems rendering outputs strict items) =
      ending (resolveItems rendering more strict' items) := by
  induction items with
  | nil => rfl
  | cons item items ih =>
    rw [resolveItems, resolveItems]
    exact ending_cons (hsame item (List.mem_cons_self ..))
      (ih fun other hmem => hsame other (List.mem_cons_of_mem _ hmem))

theorem ending_resolveFields {fields : List (String × Input)}
    (hsame : ∀ value ∈ fields.map Prod.snd, ending (resolve rendering outputs strict value) =
      ending (resolve rendering more strict' value)) :
    ending (resolveFields rendering outputs strict fields) =
      ending (resolveFields rendering more strict' fields) := by
  induction fields with
  | nil => rfl
  | cons entry fields ih =>
    obtain ⟨name, value⟩ := entry
    rw [List.map_cons, List.forall_mem_cons] at hsame
    rw [resolveFields, resolveFields]
    exact ending_cons hsame.1 (ih hsame.2)

theorem ending_lookup (found : Ref) : ending (lookup outputs false found) = .ok () := by
  rw [lookup_eq]
  cases outputs.find? found <;> rfl

/-- A value whose transforms are known ends the same way with more outputs. -/
theorem ending_resolve (hmore : more.Extends outputs) {unknown : Input → Prop}
    (hmissing : ∀ value, IsMissing outputs value → unknown value) {value : Input}
    (hevaluable : value.Evaluable unknown) :
    ending (resolve rendering outputs false value) = ending (resolve rendering more false value) := by
  induction value using reached_ind with
  | step value ih =>
    have hparts : ∀ part ∈ value.reached, ending (resolve rendering outputs false part) =
        ending (resolve rendering more false part) := fun part hmem =>
      ih part hmem fun inner hinner => hevaluable inner (.head hmem hinner)
    cases hdeferral : value.isDeferral with
    | true =>
      rw [resolve_deferral_congr hdeferral fun operand hmem => resolve_congr hmore
        fun inner hinner habsent =>
          hevaluable value .refl hdeferral operand hmem inner hinner (hmissing inner habsent)]
    | false =>
      cases value with
      | list items =>
        rw [resolve, resolve, ending_map, ending_map]
        exact ending_resolveItems hparts
      | model fields =>
        rw [resolve, resolve, ending_map, ending_map]
        exact ending_resolveFields hparts
      | ref found =>
        rw [resolve, resolve, ending_lookup, ending_lookup]
      | transform op args => cases hdeferral
      | dict fields =>
        cases href : (Input.dict fields).refFromMarker with
        | some found =>
          rw [resolve, resolve, href]
          dsimp only
          rw [ending_lookup, ending_lookup]
        | none =>
          have hmarker : (Input.dict fields).isTransformMarker = false := hdeferral
          rw [reached, isRefMarker, href, if_neg (by simp), hmarker, if_neg (by simp)] at hparts
          rw [resolve_dict href hmarker, resolve_dict href hmarker, ending_map, ending_map]
          exact ending_resolveFields hparts
      | _ => rfl

/-! ## What a transform comes to -/

theorem resolveArgs_eq_ok {args : Input} {operands : List Input}
    (hok : resolveArgs rendering outputs strict args = .ok operands) :
    ∀ operand ∈ operands, (∃ items, args = .list items ∧
      ∃ source ∈ items, resolve rendering outputs strict source = .ok operand) ∨
        ∃ text, operand = .str text := by
  intro operand hmem
  cases args with
  | list items =>
    obtain ⟨source, hsource, hoperand⟩ :=
      exists_of_forall₂ (resolveItems_eq_ok.mp hok).flip operand hmem
    exact .inl ⟨items, rfl, source, hsource, hoperand⟩
  | str text =>
    cases hok
    obtain ⟨c, -, rfl⟩ := List.mem_map.mp hmem
    exact .inr ⟨_, rfl⟩
  | dict fields =>
    cases hok
    obtain ⟨entry, -, rfl⟩ := List.mem_map.mp hmem
    exact .inr ⟨_, rfl⟩
  | _ => cases hok

theorem resolveOperands_eq_ok {body : List (String × Input)} {operands : List Input}
    (hok : resolveOperands rendering outputs strict body = .ok operands) :
    ∃ args, body.lookup "args" = some args ∧
      resolveArgs rendering outputs strict args = .ok operands := by
  induction body with
  | nil => cases hok
  | cons entry body ih =>
    obtain ⟨name, value⟩ := entry
    rw [resolveOperands] at hok
    by_cases hname : name = "args"
    · rw [if_pos hname] at hok
      exact ⟨value, by rw [hname, List.lookup_cons_self], hok⟩
    · rw [if_neg hname] at hok
      rw [List.lookup_cons, beq_eq_false_iff_ne.mpr (Ne.symm hname)]
      exact ih hok

/-- An evaluated transform was evaluated over what its operands come to. -/
theorem resolve_deferral {value image : Input} (hdeferral : value.isDeferral)
    (hok : resolve rendering outputs strict value = .ok image) :
    ∃ op operands, evalTransform rendering op operands = .ok image ∧
      ∀ operand ∈ operands, (∃ source ∈ value.reached,
        resolve rendering outputs strict source = .ok operand) ∨ ∃ text, operand = .str text := by
  cases value with
  | transform op args =>
    rw [resolve] at hok
    obtain ⟨operands, hoperands, hmade⟩ := bind_eq_ok hok
    exact ⟨op, operands, hmade, fun operand hmem =>
      .inl (exists_of_forall₂ (resolveItems_eq_ok.mp hoperands).flip operand hmem)⟩
  | dict fields =>
    have hmarker : (Input.dict fields).isTransformMarker = true := hdeferral
    have href := refFromMarker_eq_none hmarker
    rw [resolve, href] at hok
    dsimp only at hok
    rw [if_pos hmarker] at hok
    rw [reached, isRefMarker, href, if_neg (by simp), if_pos hmarker]
    obtain ⟨key, body, rest, rfl⟩ := exists_body_of_resolveMarker hok
    rw [resolveMarker] at hok
    obtain ⟨operands, hoperands, hok⟩ := bind_eq_ok hok
    obtain ⟨args, hargs, hresolved⟩ := resolveOperands_eq_ok hoperands
    split at hok
    next op _ =>
      refine ⟨op, operands, hok, fun operand hmem => ?_⟩
      refine (resolveArgs_eq_ok hresolved operand hmem).imp ?_ id
      rintro ⟨items, rfl, source, hsource, hoperand⟩
      rw [markerOperands, hargs]
      exact ⟨source, hsource, hoperand⟩
    next => cases hok
  | _ => cases hdeferral

theorem evalTransform_isDeferral {op : String} {operands : List Input} {image : Input}
    (hmade : evalTransform rendering op operands = .ok image) : image.isDeferral = false := by
  obtain ⟨text, -, hmade⟩ := bind_eq_ok hmade
  split at hmade <;> cases hmade <;> rfl

theorem lookup_missing {found : Ref} (hnone : outputs.find? found = none) :
    lookup outputs false found = .ok (.ref found) := by
  rw [lookup_eq, hnone]
  rfl

theorem resolve_target {value : Input} {found : Ref} (htarget : value.target? = some found) :
    resolve rendering outputs strict value = lookup outputs strict found := by
  cases value with
  | ref other =>
    cases htarget
    rw [resolve]
  | dict fields =>
    have href : (Input.dict fields).refFromMarker = some found := htarget
    rw [resolve, href]
  | _ => cases htarget

/-- **Resolution from partial state leaves the unknown exactly where no transform is over it.** -/
theorem leavesUnknown_iff {unknown : Input → Prop}
    (hmissing : ∀ value, IsMissing outputs value → unknown value) {value : Input} :
    value.LeavesUnknown rendering outputs unknown ↔ value.Evaluable unknown := by
  constructor
  · intro hleaves part hpart hdeferral operand hoperand inner hinner hunknown
    obtain ⟨kept, hkept, hstays⟩ :=
      hleaves.deferred part hpart hdeferral ⟨operand, hoperand, inner, hinner, hunknown⟩
    obtain ⟨op, operands, hmade, -⟩ := resolve_deferral hdeferral hkept
    rw [evalTransform_isDeferral hmade] at hstays
    cases hstays
  · intro hevaluable
    refine ⟨fun fault hfault more hmore => ?_, fun part _ found htarget hnone => ?_,
      fun part hpart hdeferral hsome => ?_, fun hknown => ?_⟩
    · exact ending_eq_error (ending_resolve hmore hmissing hevaluable) hfault
    · rw [resolve_target htarget, lookup_missing hnone]
    · obtain ⟨operand, hoperand, inner, hinner, hunknown⟩ := hsome
      exact absurd hunknown (hevaluable part hpart hdeferral operand hoperand inner hinner)
    · exact resolve_congr (fun _ _ hvalue => hvalue) hknown

/-! ## Texts without handles -/

/-- What holds of no part of a container's image. -/
theorem any_of_parts {p : Input → Bool} (hlist : ∀ items, p (.list items) = false)
    (hdict : ∀ fields, p (.dict fields) = false) {value image : Input}
    (htarget : value.target? = none) (hplain : value.isDeferral = false) (hnone : p value = false)
    (hparts : ∀ part ∈ value.reached, ∀ image, resolve rendering outputs strict part = .ok image →
      image.any p = false)
    (hok : resolve rendering outputs strict value = .ok image) : image.any p = false := by
  have hfields : ∀ fields : List (String × Input),
      (∀ part ∈ fields.map Prod.snd, ∀ image, resolve rendering outputs strict part = .ok image →
        image.any p = false) →
      (resolveFields rendering outputs strict fields).map .dict = .ok image →
      image.any p = false := by
    intro fields hparts hok
    obtain ⟨found, hfound, rfl⟩ := map_eq_ok hok
    refine any_eq_false_iff.mpr ⟨hdict found, fun child hchild => ?_⟩
    obtain ⟨target, htarget, rfl⟩ := List.mem_map.mp hchild
    obtain ⟨entry, hentry, -, himage⟩ :=
      exists_of_forall₂ (resolveFields_eq_ok.mp hfound).flip target htarget
    exact hparts entry.2 (List.mem_map_of_mem hentry) target.2 himage
  cases value with
  | list items =>
    rw [resolve] at hok
    obtain ⟨found, hfound, rfl⟩ := map_eq_ok hok
    refine any_eq_false_iff.mpr ⟨hlist found, fun child hchild => ?_⟩
    obtain ⟨source, hsource, himage⟩ :=
      exists_of_forall₂ (resolveItems_eq_ok.mp hfound).flip child hchild
    exact hparts source hsource child himage
  | model fields =>
    rw [resolve] at hok
    exact hfields fields hparts hok
  | dict fields =>
    have href : (Input.dict fields).refFromMarker = none := htarget
    have hmarker : (Input.dict fields).isTransformMarker = false := hplain
    rw [reached, isRefMarker, href, if_neg (by simp), hmarker, if_neg (by simp)] at hparts
    rw [resolve_dict href hmarker] at hok
    exact hfields fields hparts hok
  | ref found => cases htarget
  | transform op args => cases hplain
  | _ =>
    cases hok
    exact any_eq_false_iff.mpr ⟨hnone, List.forall_mem_nil _⟩

/-- What resolution goes on to from a value without live handles has none. -/
theorem holdsHandle_reached {value part : Input} (hmem : part ∈ value.reached)
    (hnone : value.holdsHandle = false) : part.holdsHandle = false := by
  have hchild := (any_eq_false_iff.mp hnone).2
  cases value with
  | list items | transform op items | model fields => exact hchild part hmem
  | dict fields =>
    rw [reached] at hmem
    split at hmem
    · cases hmem
    · split at hmem
      · unfold markerOperands at hmem
        split at hmem
        next name body rest =>
          split at hmem
          next items hargs =>
            obtain ⟨before, after, rfl, -⟩ := List.lookup_eq_some_iff.mp hargs
            have hbody := hchild _ (List.mem_cons_self ..)
            have hitems := (any_eq_false_iff.mp hbody).2 (.list items)
              (List.mem_map_of_mem (List.mem_append_right _ (List.mem_cons_self ..)))
            exact (any_eq_false_iff.mp hitems).2 part hmem
          next => cases hmem
        next => cases hmem
      · exact hchild part hmem
  | _ => cases hmem

theorem holdsHandle_ofValue (value : Value) : (ofValue value).holdsHandle = false :=
  any_ofValue_eq_false (fun v => by cases v <;> rfl) value

/-- Data whose references are all there comes to data. -/
theorem holdsHandle_resolve {value image : Input} (hplain : value.holdsHandle = false)
    (hknown : ∀ part, value.Reaches part → ¬IsMissing outputs part)
    (hok : resolve rendering outputs strict value = .ok image) : image.holdsHandle = false := by
  induction value using reached_ind generalizing image with
  | step value ih =>
    have hparts : ∀ part ∈ value.reached, ∀ image,
        resolve rendering outputs strict part = .ok image → image.holdsHandle = false :=
      fun part hmem image => ih part hmem (holdsHandle_reached hmem hplain)
        fun inner hinner => hknown inner (.head hmem hinner)
    cases htarget : value.target? with
    | some found =>
      rw [resolve_target htarget, lookup_eq] at hok
      split at hok
      next image _ =>
        cases hok
        exact holdsHandle_ofValue image
      next hnone => exact absurd ⟨found, htarget, hnone⟩ (hknown value .refl)
    | none =>
      cases hdeferral : value.isDeferral with
      | true =>
        obtain ⟨op, operands, hmade, hoperands⟩ := resolve_deferral hdeferral hok
        obtain ⟨text, -, hmade⟩ := bind_eq_ok hmade
        have hnone : ∀ operand ∈ operands, operand.holdsHandle = false := by
          intro operand hmem
          rcases hoperands operand hmem with ⟨source, hsource, himage⟩ | ⟨text, rfl⟩
          · exact hparts source hsource operand himage
          · rfl
        rw [used_holdsHandle hnone] at hmade
        cases hmade
        rfl
      | false =>
        exact any_of_parts (fun _ => rfl) (fun _ => rfl) htarget hdeferral
          (any_eq_false_iff.mp hplain).1 hparts hok

/-- **No text has a reference printed into it.** -/
theorem isRendered_resolve {value image : Input} (hplain : value.holdsHandle = false)
    (hevaluable : value.Evaluable (IsMissing outputs))
    (hok : resolve rendering outputs strict value = .ok image) : image.any isRendered = false := by
  induction value using reached_ind generalizing image with
  | step value ih =>
    have hparts : ∀ part ∈ value.reached, ∀ image,
        resolve rendering outputs strict part = .ok image → image.any isRendered = false :=
      fun part hmem image => ih part hmem (holdsHandle_reached hmem hplain)
        fun inner hinner => hevaluable inner (.head hmem hinner)
    cases htarget : value.target? with
    | some found =>
      rw [resolve_target htarget, lookup_eq] at hok
      split at hok
      next image _ =>
        cases hok
        exact any_ofValue_eq_false (fun v => by cases v <;> rfl) image
      next =>
        split at hok <;> cases hok
        rfl
    | none =>
      cases hdeferral : value.isDeferral with
      | true =>
        obtain ⟨op, operands, hmade, hoperands⟩ := resolve_deferral hdeferral hok
        obtain ⟨text, -, hmade⟩ := bind_eq_ok hmade
        have hnone : ∀ operand ∈ operands, operand.holdsHandle = false := by
          intro operand hmem
          rcases hoperands operand hmem with ⟨source, hsource, himage⟩ | ⟨text, rfl⟩
          · exact holdsHandle_resolve (holdsHandle_reached hsource hplain)
              (fun inner hinner => hevaluable value .refl hdeferral source hsource inner hinner) himage
          · rfl
        rw [used_holdsHandle hnone] at hmade
        cases hmade
        rfl
      | false =>
        have hhere := (any_eq_false_iff.mp hplain).1
        rw [Bool.or_eq_false_iff] at hhere
        exact any_of_parts (fun _ => rfl) (fun _ => rfl) htarget hdeferral hhere.2 hparts hok

end

end Input

/-! ## Rows rebuilt from partial state -/

section

variable {env : HandleEnv}

/-- A stored property as it is resolved, once it is no handle itself: its committed stack outputs
are in place. -/
def restoredSource (env : HandleEnv) (stored : Value) : Input :=
  .ofValue (if hasStackOutput stored then (substituteStack env.stackOutputs stored).1 else stored)

/-- A reference without an output, or the marker of a secret or of a stack output. -/
def IsUnresolved (env : HandleEnv) (value : Input) : Prop :=
  value.IsMissing env.outputs ∨ value.isSecretRefMarker ∨ value.isStackOutputMarker

/-- A property that is not a handle itself. -/
def IsComposed (row : StateNode) (stored : Value) : Prop :=
  (∃ name : String, row.properties[name]? = some stored) ∧
    stored.secretRefFromMarker = none ∧ stored.stackOutputFromMarker = none

/-- Rebuilding a row evaluates nothing over an unresolved handle, and prints none. -/
def RebuildsKnown (env : HandleEnv) (row : StateNode) : Prop :=
  ∀ stored, IsComposed row stored →
    (restoredSource env stored).LeavesUnknown env.rendering env.outputs (IsUnresolved env) ∧
      ∀ value, rebuildValue env stored = .ok value → value.any Input.isRendered = false

theorem rebuildValue_composed {stored : Value} (hsecret : stored.secretRefFromMarker = none)
    (hstack : stored.stackOutputFromMarker = none) : rebuildValue env stored =
      Input.resolve env.rendering env.outputs false (restoredSource env stored) := by
  rw [rebuildValue, hsecret, hstack]
  rfl

theorem rebuildsKnown_iff {row : StateNode} : RebuildsKnown env row ↔
    ∀ stored, IsComposed row stored →
      (restoredSource env stored).Evaluable (IsUnresolved env) := by
  have hmissing : ∀ value, Input.IsMissing env.outputs value → IsUnresolved env value :=
    fun _ => .inl
  refine forall₂_congr fun stored hcomposed => ?_
  rw [Input.leavesUnknown_iff hmissing, and_iff_left_iff_imp]
  intro hevaluable value hvalue
  rw [rebuildValue_composed hcomposed.2.1 hcomposed.2.2] at hvalue
  exact Input.isRendered_resolve (Input.holdsHandle_ofValue _)
    (fun part hpart hdeferral operand hmem inner hinner habsent =>
      hevaluable part hpart hdeferral operand hmem inner hinner (hmissing inner habsent)) hvalue

end

/-! ## A reference in a text -/

namespace Leniently

def text : Input → String
  | .str value => value
  | .ref found => "Ref(node_id='" ++ found.nodeId ++ "', attr='" ++ found.attr ++ "')"
  | _ => ""

def rendering : Rendering where
  text := text
  placeholders _ := []
  reduce
    | "concat", operands => .ok (String.join (operands.map text))
    | "join", [separator, .list parts] => .ok ((text separator).intercalate (parts.map text))
    | _, _ => .error .shape

def role : Ref := ⟨"prod:aws.IamRole:app", "arn"⟩

/-- A text over the role's address, and the addresses of all of its policies. -/
def printed : Input := .transform "concat" [.str "role/", .ref role]

def joined : Input := .transform "join" [.str ",", .ref role]

theorem not_leavesUnknown {op : String} {first : Input} :
    ¬(Input.transform op [first, .ref role]).LeavesUnknown rendering ∅ (Input.IsMissing ∅) := by
  rw [Input.leavesUnknown_iff fun _ => id]
  intro hevaluable
  refine hevaluable _ .refl rfl (.ref role) (by simp [Input.reached]) _ .refl ⟨role, rfl, ?_⟩
  rw [LiveOutputs.find?, Std.ExtTreeMap.getElem?_empty]
  rfl

/-- Without the role its handle stays an operand. -/
theorem resolve_printed (op first : String) :
    Input.resolve rendering ∅ false (.transform op [.str first, .ref role]) =
      Input.evalTransform rendering op [.str first, .ref role] := by
  have hrole : Input.resolve rendering ∅ false (.ref role) = .ok (.ref role) := by
    rw [Input.resolve]
    exact Input.lookup_missing (by rw [LiveOutputs.find?, Std.ExtTreeMap.getElem?_empty]; rfl)
  have hoperands : Input.resolveItems rendering ∅ false [.str first, .ref role] =
      .ok [.str first, .ref role] :=
    Input.resolveItems_eq_ok.mpr (.cons rfl (.cons hrole .nil))
  rw [Input.resolve, hoperands]
  rfl

end Leniently

end Atlantide
