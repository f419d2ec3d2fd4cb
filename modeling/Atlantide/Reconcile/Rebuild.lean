import Atlantide.Executor.Env
import Atlantide.Reconcile.ProviderInputs

/-! # Resources rebuilt from stored rows

A row keeps markers. Rebuilding it turns the markers a field is made of into live handles, which pass
validation, and everything below into values as far as there are any: a stack output that is not
committed leaves its marker, a missing upstream its reference. -/

namespace Atlantide

open Fallible

/-- The registered resource classes. -/
structure ResourceClasses where
  types : Types
  /-- What constructing a resource of a type makes of the fields it is given. -/
  validate : String → Dict String Input → Except Fault (Dict String Input)
  /-- A value that holds a handle is stored as it was written. -/
  kept : ∀ (type : String) (fields found : Dict String Input), validate type fields = .ok found →
    ∀ (name : String) (value : Input), fields[name]? = some value → value.containsHandle = true →
      found[name]? = some value
  /-- Validation makes no handle. -/
  given : ∀ (type : String) (fields found : Dict String Input), validate type fields = .ok found →
    ∀ (name : String) (value : Input), found[name]? = some value → value.containsHandle = true →
      fields[name]? = some value

/-- Classes that take every field as it is. -/
def ResourceClasses.asGiven (types : Types) : ResourceClasses where
  types := types
  validate _ fields := .ok fields
  kept _ _ _ hvalid _ _ hvalue _ := by
    cases hvalid
    exact hvalue
  given _ _ _ hvalid _ _ hvalue _ := by
    cases hvalid
    exact hvalue

/-- A resource object as state rebuilds it. -/
structure Rebuilt where
  type : String
  name : String
  inputs : Dict String Input
  computed : Dict String Input

section

variable (classes : ResourceClasses) (unsealValue : Value → Except Fault Value) (env : HandleEnv)

/-- A stored property as the constructor is given it. -/
def rebuildValue (value : Value) : Except Fault Input :=
  match value.secretRefFromMarker, value.stackOutputFromMarker with
  | some ref, _ => .ok (.secretRef ref)
  | none, some key =>
    match partition ':' key with
    | (stack, some name) => .ok (.stackOutputRef stack name)
    | (_, none) => .error .shape
  | none, none =>
    Input.resolve env.rendering env.outputs false
      (Input.ofValue (if hasStackOutput value then (substituteStack env.stackOutputs value).1
        else value))

/-- What a row's constructor is given: its properties, and its outputs where the class has the field
and no property took it. -/
def rebuiltFields (cls : ResourceType) (row : StateNode) : Except Fault (Dict String Input) := do
  let properties ← Fold.traverse (rebuildValue env) row.properties
  row.outputs.foldl (fun found field value => do
    let table ← found
    if (cls.fields.lookup field).isSome && !table.contains field then
      .ok (table.insert field (Input.ofValue (← unsealValue value)))
    else .ok table) (.ok properties)

def isInput (cls : ResourceType) (name : String) : Bool :=
  cls.fields.lookup name ≠ some .computed

/-- Rebuilds a resource from its row, its secrets opened and its stack outputs in place where they
are committed. -/
def rebuildRow (row : StateNode) : Except Fault Rebuilt :=
  match classes.types row.type with
  | none => .error (.engine ("resource type is unavailable: " ++ row.type))
  | some cls => do
    let given ← rebuiltFields unsealValue env cls row
    let fields ← classes.validate row.type given
    let opened ← updatedInputs (Input.resolveSecretRef env.secrets)
      (fields.filter fun name _ => isInput cls name)
    let inputs ← updatedInputs (Input.resolveStackRef env.rendering env.stackOutputs false) opened
    .ok
      { type := row.type, name := removeSuffix (cbdCompanionId "") (localNameOf row.id)
        inputs := inputs, computed := fields.filter fun name _ => !isInput cls name }

end

/-! ## What is live in a rebuilt field -/

namespace Input

/-- The kinds of handles that resolution makes none of. -/
def isDeferred (value : Input) : Bool :=
  value.isSecretRef || value.isStackOutputRef || value.isTransform

theorem any_isDeferred_ofValue (value : Value) : (ofValue value).any isDeferred = false :=
  any_ofValue_eq_false (fun v => by cases v <;> rfl) value

section

variable {rendering : Rendering} {outputs : LiveOutputs} {strict : Bool}

theorem any_isDeferred_images {sources images : List Input}
    (hall : List.Forall₂ (fun source image => resolve rendering outputs strict source = .ok image)
      sources images)
    (hsources : ∀ source ∈ sources, ∀ image,
      resolve rendering outputs strict source = .ok image → image.any isDeferred = false) :
    images.any (·.any isDeferred) = false := by
  have hsame : images.any (·.any isDeferred) = sources.any fun _ => false :=
    any_of_forall₂ hall hsources
  rw [hsame]
  simp

/-- A value without such handles resolves to one without them. -/
theorem resolve_isDeferred {value image : Input} (hnone : value.any isDeferred = false)
    (hok : resolve rendering outputs strict value = .ok image) : image.any isDeferred = false := by
  have hlookup : ∀ (found : Ref) (image : Input), lookup outputs strict found = .ok image →
      image.any isDeferred = false := by
    intro found image hfound
    rw [lookup] at hfound
    split at hfound
    next value _ =>
      cases hfound
      exact any_isDeferred_ofValue value
    next =>
      split at hfound
      · cases hfound
      · cases hfound
        rfl
  have heval : ∀ (op : String) (operands : List Input) (image : Input),
      evalTransform rendering op operands = .ok image → image.any isDeferred = false := by
    intro op operands image hmade
    obtain ⟨text, -, hmade⟩ := bind_eq_ok hmade
    split at hmade <;> cases hmade <;> rfl
  induction value using ind generalizing image with
  | step value ih =>
    obtain ⟨hhere, hchildren⟩ := any_eq_false_iff.mp hnone
    have hfields : ∀ fields : List (String × Input), value.children = fields.map Prod.snd →
        (resolveFields rendering outputs strict fields).map Input.dict = .ok image →
        image.any isDeferred = false := by
      intro fields hsame hmap
      obtain ⟨images, hresolved, rfl⟩ := map_eq_ok hmap
      have hall : List.Forall₂
          (fun source image => resolve rendering outputs strict source = .ok image)
          (fields.map Prod.snd) (images.map Prod.snd) := by
        rw [List.forall₂_map_left_iff, List.forall₂_map_right_iff]
        exact (resolveFields_eq_ok.mp hresolved).imp fun entry image himage => himage.2
      rw [any_eq]
      exact any_isDeferred_images hall fun source hsource image himage =>
        ih source (hsame ▸ hsource) (hchildren source (hsame ▸ hsource)) himage
    cases value with
    | list items =>
      rw [resolve] at hok
      obtain ⟨images, hresolved, rfl⟩ := map_eq_ok hok
      rw [any_eq]
      exact any_isDeferred_images (resolveItems_eq_ok.mp hresolved) fun source hsource image himage =>
        ih source hsource (hchildren source hsource) himage
    | dict fields =>
      rw [resolve] at hok
      split at hok
      next found _ => exact hlookup found image hok
      next =>
        split at hok
        next =>
          obtain ⟨op, operands, hmade⟩ := resolveMarker_eq_ok hok
          exact heval op operands image hmade
        next => exact hfields fields rfl hok
    | model fields =>
      rw [resolve] at hok
      exact hfields fields rfl hok
    | ref found =>
      rw [resolve] at hok
      exact hlookup found image hok
    | secretRef _ | stackOutputRef _ _ | transform _ _ => cases hhere
    | _ =>
      cases hok
      rfl

end

end Input

section

variable {classes : ResourceClasses} {unsealValue : Value → Except Fault Value} {env : HandleEnv}
  {cls : ResourceType} {row : StateNode}

/-- The outputs a row restores take no property's place. -/
theorem restored {entries : List (String × Value)} {start given : Dict String Input}
    (hok : entries.foldl (fun (found : Except Fault (Dict String Input)) entry => do
      let table ← found
      if (cls.fields.lookup entry.1).isSome && !table.contains entry.1 then
        .ok (table.insert entry.1 (Input.ofValue (← unsealValue entry.2)))
      else .ok table) (.ok start) = .ok given) :
    (∀ (name : String) (value : Input), start[name]? = some value → given[name]? = some value) ∧
      ∀ (name : String) (value : Input), given[name]? = some value →
        start[name]? = some value ∨ ∃ data, value = Input.ofValue data := by
  induction entries generalizing start with
  | nil =>
    cases hok
    exact ⟨fun _ _ h => h, fun _ _ h => .inl h⟩
  | cons entry entries ih =>
    rw [List.foldl_cons] at hok
    have hfault : ∀ fault : Fault,
        entries.foldl (fun (found : Except Fault (Dict String Input)) entry => do
          let table ← found
          if (cls.fields.lookup entry.1).isSome && !table.contains entry.1 then
            .ok (table.insert entry.1 (Input.ofValue (← unsealValue entry.2)))
          else .ok table) (.error fault) = .error fault := by
      intro fault
      clear hok ih
      induction entries with
      | nil => rfl
      | cons entry entries ih => exact ih
    by_cases hrestores : ((cls.fields.lookup entry.1).isSome && !start.contains entry.1) = true
    · cases hdata : unsealValue entry.2 with
      | error fault =>
        change entries.foldl _ (if _ then _ else _) = _ at hok
        rw [if_pos hrestores, hdata] at hok
        exact nomatch (hfault fault).symm.trans hok
      | ok data =>
        change entries.foldl _ (if _ then _ else _) = _ at hok
        rw [if_pos hrestores, hdata] at hok
        obtain ⟨hkept, hmade⟩ := ih hok
        have hfree : entry.1 ∉ start := by
          rw [Bool.and_eq_true, Bool.not_eq_true'] at hrestores
          rw [Std.ExtTreeMap.mem_iff_contains, hrestores.2]
          exact Bool.false_ne_true
        refine ⟨fun name value hvalue => hkept name value ?_, fun name value hvalue => ?_⟩
        · rw [Std.ExtTreeMap.getElem?_insert, if_neg]
          · exact hvalue
          · intro hsame
            obtain rfl := Std.LawfulEqCmp.eq_of_compare hsame
            rw [Std.ExtTreeMap.getElem?_eq_none hfree] at hvalue
            cases hvalue
        · rcases hmade name value hvalue with hstart | hplain
          · rw [Std.ExtTreeMap.getElem?_insert] at hstart
            split at hstart
            · exact .inr ⟨data, (Option.some.inj hstart).symm⟩
            · exact .inl hstart
          · exact .inr hplain
    · change entries.foldl _ (if _ then _ else _) = _ at hok
      rw [if_neg hrestores] at hok
      exact ih hok

/-- What a constructor is given is a property rebuilt or an output restored. -/
theorem rebuiltFields_eq_ok {given : Dict String Input}
    (hok : rebuiltFields unsealValue env cls row = .ok given) :
    (∀ (name : String) (stored : Value), row.properties[name]? = some stored →
      ∃ value, rebuildValue env stored = .ok value ∧ given[name]? = some value) ∧
      ∀ (name : String) (value : Input), given[name]? = some value →
        (∃ stored, row.properties[name]? = some stored ∧ rebuildValue env stored = .ok value) ∨
          ∃ data, value = Input.ofValue data := by
  obtain ⟨properties, hproperties, hok⟩ := bind_eq_ok hok
  rw [Std.ExtTreeMap.foldl_eq_foldl_toList] at hok
  obtain ⟨hkept, hmade⟩ := restored hok
  obtain ⟨hat, hout⟩ := Fold.traverse_eq_ok.mp hproperties
  constructor
  · intro name stored hstored
    obtain ⟨value, hvalue, hfound⟩ := hat name stored hstored
    exact ⟨value, hvalue, hkept name value hfound⟩
  · intro name value hvalue
    rcases hmade name value hvalue with hproperty | hplain
    · cases hstored : row.properties[name]? with
      | none =>
        rw [hout name hstored] at hproperty
        cases hproperty
      | some stored =>
        obtain ⟨found, hfound, hat⟩ := hat name stored hstored
        rw [hproperty] at hat
        cases hat
        exact .inl ⟨stored, rfl, hfound⟩
    · exact .inr hplain

/-- A rebuilt property is the handle its marker stands for, or holds no handle of a kind resolution
makes none of. -/
theorem rebuildValue_cases {stored : Value} {value : Input}
    (hok : rebuildValue env stored = .ok value) :
    (∃ ref, stored.secretRefFromMarker = some ref ∧ value = .secretRef ref) ∨
      (∃ stack name, value = .stackOutputRef stack name) ∨ value.any Input.isDeferred = false := by
  unfold rebuildValue at hok
  split at hok
  next ref hsecret => exact .inl ⟨ref, hsecret, (Except.ok.inj hok).symm⟩
  next =>
    split at hok
    next stack name _ => exact .inr (.inl ⟨stack, name, (Except.ok.inj hok).symm⟩)
    next => cases hok
  next => exact .inr (.inr (Input.resolve_isDeferred (Input.any_isDeferred_ofValue _) hok))

theorem isStackOutputRef_of_isDeferred {value : Input} (hnone : value.any Input.isDeferred = false) :
    value.any Input.isStackOutputRef = false :=
  Input.any_mono (fun v hv => by rw [Input.isDeferred, hv, Bool.or_true, Bool.true_or]) hnone

/-- Where a field is a handle for a stack output, or holds none, leniently it always resolves. -/
theorem resolveStackRef_lenient {value : Input}
    (hvalue : (∃ stack name, value = .stackOutputRef stack name) ∨
      value.any Input.isStackOutputRef = false) :
    ∃ image, Input.resolveStackRef env.rendering env.stackOutputs false value = .ok image := by
  rcases hvalue with ⟨stack, name, rfl⟩ | hnone
  · rw [Input.resolveStackRef, if_neg (by rw [Input.any_eq]; simp [Input.isStackOutputRef]),
      Input.substitute]
    cases env.stackOutputs[stack ++ ":" ++ name]? with
    | none => exact ⟨_, rfl⟩
    | some committed =>
      have hplain : (Input.ofValue committed).any Input.isTransform = false :=
        Input.any_ofValue_eq_false (fun v => by cases v <;> rfl) committed
      dsimp only
      rw [hplain, Bool.not_false, Bool.or_true, if_pos rfl]
      exact ⟨_, rfl⟩
  · rw [Input.resolveStackRef, hnone]
    exact ⟨value, rfl⟩

/-- A stack output is left of a validated row only where the whole field is a handle for one. -/
theorem handle_of_validated {given fields : Dict String Input}
    (hgiven : rebuiltFields unsealValue env cls row = .ok given)
    (hfields : classes.validate row.type given = .ok fields) {name : String} {value : Input}
    (hvalue : fields[name]? = some value) (hsecret : value.isSecretRef = false) :
    (∃ stack name, value = .stackOutputRef stack name) ∨
      value.any Input.isStackOutputRef = false := by
  cases hstack : value.any Input.isStackOutputRef with
  | false => exact .inr rfl
  | true =>
    have hhandle : value.containsHandle = true := by
      by_contra hnone
      have hfree : value.any Input.isStackOutputRef = false := Input.any_mono
        (fun v hv => by rw [Input.isHandle, hv, Bool.or_true, Bool.true_or])
        ((Bool.not_eq_true _).mp hnone)
      rw [hstack] at hfree
      cases hfree
    have hwritten := classes.given row.type given fields hfields name value hvalue hhandle
    rcases (rebuiltFields_eq_ok hgiven).2 name value hwritten with
      ⟨stored, -, hrebuilt⟩ | ⟨data, rfl⟩
    · rcases rebuildValue_cases hrebuilt with ⟨ref, -, rfl⟩ | hfound | hnone
      · cases hsecret
      · exact .inl hfound
      · rw [isStackOutputRef_of_isDeferred hnone] at hstack
        cases hstack
    · rw [isStackOutputRef_of_isDeferred (Input.any_isDeferred_ofValue data)] at hstack
      cases hstack

theorem getElem?_inputs (fields : Dict String Input) (name : String) :
    (fields.filter fun name _ => isInput cls name)[name]? =
      if isInput cls name then fields[name]? else none := by
  rw [Std.ExtTreeMap.getElem?_filter']
  cases fields[name]? <;> cases isInput cls name <;> rfl

/-- The secrets of a validated row's inputs opened, its stack outputs always resolve. -/
theorem resolved_of_opened {given fields opened : Dict String Input}
    (hgiven : rebuiltFields unsealValue env cls row = .ok given)
    (hfields : classes.validate row.type given = .ok fields)
    (hopened : updatedInputs (Input.resolveSecretRef env.secrets)
      (fields.filter fun name _ => isInput cls name) = .ok opened) :
    ∃ inputs, updatedInputs (Input.resolveStackRef env.rendering env.stackOutputs false) opened =
      .ok inputs := by
  refine Fold.traverse_isOk.mpr fun name image himage => resolveStackRef_lenient ?_
  cases hvalue : (fields.filter fun name _ => isInput cls name)[name]? with
  | none =>
    rw [(Fold.traverse_eq_ok.mp hopened).2 name hvalue] at himage
    cases himage
  | some value =>
    obtain ⟨found, hfound, hat⟩ := (Fold.traverse_eq_ok.mp hopened).1 name value hvalue
    rw [himage] at hat
    cases hat
    cases hsecret : value.isSecretRef with
    | true =>
      cases value with
      | secretRef ref =>
        obtain ⟨text, -, rfl⟩ := map_eq_ok hfound
        exact .inr rfl
      | _ => cases hsecret
    | false =>
      obtain rfl := Input.resolveSecretRef_eq hsecret hfound
      rw [getElem?_inputs] at hvalue
      split at hvalue
      · exact handle_of_validated hgiven hfields hvalue hsecret
      · cases hvalue

/-- A row is rebuilt exactly when its class takes what its constructor is given and the secrets its
inputs are made of open. -/
theorem rebuildRow_isOk : (∃ res, rebuildRow classes unsealValue env row = .ok res) ↔
    ∃ cls given fields, classes.types row.type = some cls ∧
      rebuiltFields unsealValue env cls row = .ok given ∧
      classes.validate row.type given = .ok fields ∧
      ∀ (name : String) (ref : SecretRef), fields[name]? = some (.secretRef ref) →
        isInput cls name → ∃ text, env.secrets ref = .ok text := by
  unfold rebuildRow
  cases classes.types row.type with
  | none =>
    constructor
    · rintro ⟨res, hres⟩
      cases hres
    · rintro ⟨cls, given, fields, htype, -⟩
      cases htype
  | some cls =>
    constructor
    · rintro ⟨res, hres⟩
      obtain ⟨given, hgiven, hres⟩ := bind_eq_ok hres
      obtain ⟨fields, hfields, hres⟩ := bind_eq_ok hres
      obtain ⟨opened, hopened, -⟩ := bind_eq_ok hres
      refine ⟨cls, given, fields, rfl, hgiven, hfields, fun name ref href hname => ?_⟩
      obtain ⟨image, himage, -⟩ := (Fold.traverse_eq_ok.mp hopened).1 name (.secretRef ref)
        (by rw [getElem?_inputs, if_pos hname, href])
      obtain ⟨text, htext, -⟩ := map_eq_ok himage
      exact ⟨text, htext⟩
    · rintro ⟨other, given, fields, htype, hgiven, hfields, hsecrets⟩
      cases htype
      obtain ⟨opened, hopened⟩ :
          ∃ opened, updatedInputs (Input.resolveSecretRef env.secrets)
            (fields.filter fun name _ => isInput cls name) = .ok opened := by
        refine Fold.traverse_isOk.mpr fun name value hvalue => ?_
        rw [getElem?_inputs] at hvalue
        split at hvalue
        next hname =>
          cases value with
          | secretRef ref =>
            obtain ⟨text, htext⟩ := hsecrets name ref hvalue hname
            exact ⟨.str text, by rw [Input.resolveSecretRef, htext]; rfl⟩
          | _ => exact ⟨_, rfl⟩
        next => cases hvalue
      obtain ⟨inputs, hinputs⟩ := resolved_of_opened hgiven hfields hopened
      exact ⟨_, (bind_of_ok hgiven).trans ((bind_of_ok hfields).trans
        ((bind_of_ok hopened).trans (bind_of_ok hinputs)))⟩

end

end Atlantide
