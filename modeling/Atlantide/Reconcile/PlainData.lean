import Mathlib.Tactic.Tauto
import Atlantide.Lib.Fallible
import Atlantide.Reconcile.Handles

/-! # Plain data among the handles

A handle is written as an object with one reserved key, and an object a config wrote itself may have
that shape. What such data is taken for is settled by the predicates that recognise the markers, and
those differ: resolution matches strictly, attribution any object with a `$ref` key. -/

namespace Atlantide

open Fallible

namespace Input

variable {rendering : Rendering} {outputs : LiveOutputs} {strict : Bool}

/-! ## One step of resolution -/

theorem resolveItems_eq_ok {items found : List Input} :
    resolveItems rendering outputs strict items = .ok found ↔
      List.Forall₂ (fun item image => resolve rendering outputs strict item = .ok image)
        items found := by
  induction items generalizing found with
  | nil =>
    rw [resolveItems, List.forall₂_nil_left_iff, Except.ok.injEq]
    exact eq_comm
  | cons item items ih =>
    rw [resolveItems, List.forall₂_cons_left_iff]
    constructor
    · intro hok
      cases hitem : resolve rendering outputs strict item with
      | error fault =>
        rw [hitem] at hok
        cases hok
      | ok image =>
        cases hitems : resolveItems rendering outputs strict items with
        | error fault =>
          rw [hitem, hitems] at hok
          cases hok
        | ok images =>
          rw [hitem, hitems] at hok
          cases hok
          exact ⟨image, images, rfl, ih.mp hitems, rfl⟩
    · rintro ⟨image, images, himage, himages, rfl⟩
      rw [himage, ih.mpr himages]
      rfl

theorem resolveFields_eq_ok {fields found : List (String × Input)} :
    resolveFields rendering outputs strict fields = .ok found ↔
      List.Forall₂ (fun entry image => image.1 = entry.1 ∧
        resolve rendering outputs strict entry.2 = .ok image.2) fields found := by
  induction fields generalizing found with
  | nil =>
    rw [resolveFields, List.forall₂_nil_left_iff, Except.ok.injEq]
    exact eq_comm
  | cons entry fields ih =>
    obtain ⟨name, value⟩ := entry
    rw [resolveFields, List.forall₂_cons_left_iff]
    constructor
    · intro hok
      cases hvalue : resolve rendering outputs strict value with
      | error fault =>
        rw [hvalue] at hok
        cases hok
      | ok image =>
        cases hfields : resolveFields rendering outputs strict fields with
        | error fault =>
          rw [hvalue, hfields] at hok
          cases hok
        | ok images =>
          rw [hvalue, hfields] at hok
          cases hok
          exact ⟨(name, image), images, ⟨rfl, rfl⟩, ih.mp hfields, rfl⟩
    · rintro ⟨⟨other, image⟩, images, ⟨hname, himage⟩, himages, rfl⟩
      dsimp only at hname himage
      subst hname
      rw [himage, ih.mpr himages]
      rfl

/-- An object that stands for no handle is resolved field by field. -/
theorem resolve_dict {fields : List (String × Input)}
    (href : (Input.dict fields).refFromMarker = none)
    (htransform : (Input.dict fields).isTransformMarker = false) :
    resolve rendering outputs strict (.dict fields) =
      (resolveFields rendering outputs strict fields).map .dict := by
  rw [resolve, href]
  dsimp only
  rw [htransform]
  rfl

/-- A transform marker that ends well has a body to take its operands from. -/
theorem exists_body_of_resolveMarker {fields : List (String × Input)} {image : Input}
    (hok : resolveMarker rendering outputs strict fields = .ok image) :
    ∃ key body rest, fields = (key, .dict body) :: rest := by
  rcases fields with _ | ⟨⟨key, value⟩, rest⟩
  · cases hok
  · cases value with
    | dict body => exact ⟨key, body, rest, rfl⟩
    | _ => cases hok

/-- A transform that ends well was evaluated over operands. -/
theorem resolveMarker_eq_ok {fields : List (String × Input)} {image : Input}
    (hok : resolveMarker rendering outputs strict fields = .ok image) :
    ∃ op operands, evalTransform rendering op operands = .ok image := by
  obtain ⟨key, body, rest, rfl⟩ := exists_body_of_resolveMarker hok
  rw [resolveMarker] at hok
  obtain ⟨operands, -, hok⟩ := bind_eq_ok hok
  split at hok
  next op _ => exact ⟨op, operands, hok⟩
  next => cases hok

/-- What stands for no handle resolves only if everything in it does. -/
theorem resolve_children {value image : Input} (href : value.refFromMarker = none)
    (htransform : value.isTransformMarker = false)
    (hok : resolve rendering outputs strict value = .ok image) :
    ∀ child ∈ value.children, ∃ found, resolve rendering outputs strict child = .ok found := by
  have hfields : ∀ fields : List (String × Input),
      (∃ found, resolveFields rendering outputs strict fields = .ok found) →
      ∀ child ∈ fields.map Prod.snd,
        ∃ found, resolve rendering outputs strict child = .ok found := by
    rintro fields ⟨found, hfound⟩ child hchild
    obtain ⟨entry, hentry, rfl⟩ := List.mem_map.mp hchild
    obtain ⟨image, -, -, himage⟩ := exists_of_forall₂ (resolveFields_eq_ok.mp hfound) entry hentry
    exact ⟨image.2, himage⟩
  have hitems : ∀ items : List Input,
      (∃ found, resolveItems rendering outputs strict items = .ok found) →
      ∀ child ∈ items, ∃ found, resolve rendering outputs strict child = .ok found := by
    rintro items ⟨found, hfound⟩ child hchild
    obtain ⟨image, -, himage⟩ := exists_of_forall₂ (resolveItems_eq_ok.mp hfound) child hchild
    exact ⟨image, himage⟩
  cases value with
  | list items =>
    rw [resolve] at hok
    cases hfound : resolveItems rendering outputs strict items with
    | ok found => exact hitems items ⟨found, hfound⟩
    | error fault =>
      rw [hfound] at hok
      cases hok
  | dict fields =>
    rw [resolve_dict href htransform] at hok
    cases hfound : resolveFields rendering outputs strict fields with
    | ok found => exact hfields fields ⟨found, hfound⟩
    | error fault =>
      rw [hfound] at hok
      cases hok
  | model fields =>
    rw [resolve] at hok
    cases hfound : resolveFields rendering outputs strict fields with
    | ok found => exact hfields fields ⟨found, hfound⟩
    | error fault =>
      rw [hfound] at hok
      cases hok
  | transform op args =>
    rw [resolve] at hok
    cases hfound : resolveItems rendering outputs strict args with
    | ok found => exact hitems args ⟨found, hfound⟩
    | error fault =>
      rw [hfound] at hok
      cases hok
  | _ => exact List.forall_mem_nil _

/-! ## The markers of plain data -/

theorem field_ofValue (key : String) (value : Value) :
    (ofValue value).field key = (value.field key).map ofValue := by
  cases value with
  | dict fields =>
    rw [ofValue, field, Value.field, ofFields_eq]
    induction fields with
    | nil => rfl
    | cons entry fields ih =>
      rw [List.map_cons, List.lookup_cons, List.lookup_cons]
      split
      next => rfl
      next => exact ih
  | _ => rfl

theorem singleKeyMarker_ofValue (key : String) (value : Value) :
    (ofValue value).singleKeyMarker key = (value.singleKeyMarker key).map ofValue := by
  match value with
  | .dict [(name, payload)] =>
    by_cases hname : name = key <;>
      simp [ofValue, ofFields_eq, singleKeyMarker, Value.singleKeyMarker, hname]
  | .dict [] | .dict (_ :: _ :: _) => rfl
  | .null | .bool _ | .int _ | .float _ | .str _ | .list _ => rfl

theorem refFromMarker_ofValue (value : Value) :
    (ofValue value).refFromMarker = value.refFromMarker := by
  rw [refFromMarker, Value.refFromMarker, singleKeyMarker_ofValue]
  cases value.singleKeyMarker refKey with
  | none => rfl
  | some payload => cases payload <;> rfl

theorem isTransformMarker_ofValue (value : Value) :
    (ofValue value).isTransformMarker = value.isTransformMarker := by
  rw [isTransformMarker, Value.isTransformMarker, singleKeyMarker_ofValue]
  cases value.singleKeyMarker transformKey with
  | none => rfl
  | some body => simp [field_ofValue]

theorem needsResolution_ofValue (value : Value) :
    (ofValue value).needsResolution = value.needsResolution := by
  refine any_ofValue (fun v => ?_) value
  have hlive : (ofValue v).isRef = false := by cases v <;> rfl
  rw [hlive, isTransformMarker_ofValue, isRefMarker, Value.isRefMarker, refFromMarker_ofValue,
    Bool.false_or]

theorem any_ofValue_eq_false {p : Input → Bool} (hnone : ∀ value, p (ofValue value) = false)
    (value : Value) : (ofValue value).any p = false := by
  rw [any_ofValue (q := fun _ => false) hnone]
  induction value using Value.ind with
  | step value ih =>
    rw [Value.any_eq, Bool.false_or, List.any_eq_false]
    exact fun child hchild => by simp [ih child hchild]

/-! ## Resolution of plain data -/

/-- Data without a marker resolves to itself. -/
theorem resolve_ofValue {value : Value} (hplain : value.needsResolution = false) :
    resolve rendering outputs strict (ofValue value) = .ok (ofValue value) := by
  induction value using Value.ind with
  | step value ih =>
    rw [Value.needsResolution, Value.any_eq, Bool.or_eq_false_iff, Bool.or_eq_false_iff,
      List.any_eq_false] at hplain
    obtain ⟨⟨href, htransform⟩, hchildren⟩ := hplain
    have hchild : ∀ child ∈ value.children,
        resolve rendering outputs strict (ofValue child) = .ok (ofValue child) := by
      intro child hmem
      exact ih child hmem (Bool.eq_false_iff.mpr (hchildren child hmem))
    cases value with
    | list items =>
      rw [ofValue, resolve, ofItems_eq, resolveItems_eq_ok.mpr]
      · rfl
      · rw [List.forall₂_map_left_iff, List.forall₂_map_right_iff]
        exact List.forall₂_same.mpr hchild
    | dict fields =>
      have hnone : (Input.dict (ofFields fields)).refFromMarker = none := by
        rw [Value.isRefMarker, Option.isSome_eq_false_iff, Option.isNone_iff_eq_none] at href
        rw [← href]
        exact refFromMarker_ofValue (.dict fields)
      rw [ofValue, resolve_dict hnone ((isTransformMarker_ofValue (.dict fields)).trans htransform),
        ofFields_eq, resolveFields_eq_ok.mpr]
      · rfl
      · rw [List.forall₂_map_left_iff, List.forall₂_map_right_iff]
        exact List.forall₂_same.mpr fun entry hentry =>
          ⟨rfl, hchild entry.2 (List.mem_map_of_mem hentry)⟩
    | _ => rfl

/-- Where no output is known and no operation succeeds, data with a marker does not resolve. -/
theorem resolve_ofValue_fails (hreduce : ∀ op operands, (rendering.reduce op operands).isOk = false)
    {value : Value} (hmarker : value.needsResolution = true) (image : Input) :
    resolve rendering ∅ true (ofValue value) ≠ .ok image := by
  have heval : ∀ op operands found, evalTransform rendering op operands ≠ .ok found := by
    intro op operands found hok
    have herror := hreduce op operands
    rw [evalTransform] at hok
    cases htext : rendering.reduce op operands with
    | error fault =>
      rw [htext] at hok
      cases hok
    | ok text =>
      rw [htext] at herror
      cases herror
  induction value using Value.ind generalizing image with
  | step value ih =>
    intro hok
    cases href : value.refFromMarker with
    | some found =>
      have hlive := (refFromMarker_ofValue value).trans href
      cases hvalue : ofValue value with
      | dict fields =>
        rw [hvalue] at hlive hok
        rw [resolve, hlive] at hok
        dsimp only at hok
        rw [lookup, Std.ExtTreeMap.getElem?_empty] at hok
        cases hok
      | _ =>
        rw [hvalue] at hlive
        cases hlive
    | none =>
      have hlive := (refFromMarker_ofValue value).trans href
      cases htransform : value.isTransformMarker with
      | true =>
        have hself := (isTransformMarker_ofValue value).trans htransform
        cases hvalue : ofValue value with
        | dict fields =>
          rw [hvalue] at hlive hok hself
          rw [resolve, hlive] at hok
          dsimp only at hok
          rw [if_pos hself] at hok
          obtain ⟨op, operands, hmade⟩ := resolveMarker_eq_ok hok
          exact heval op operands _ hmade
        | _ =>
          rw [hvalue] at hself
          cases hself
      | false =>
        have hself := (isTransformMarker_ofValue value).trans htransform
        rw [Value.needsResolution, Value.any_eq, Value.isRefMarker, href, htransform] at hmarker
        obtain ⟨child, hchild, hneeds⟩ := List.any_eq_true.mp hmarker
        have hmem : ofValue child ∈ (ofValue value).children := by
          rw [children_ofValue]
          exact List.mem_map_of_mem hchild
        obtain ⟨found, hfound⟩ := resolve_children hlive hself hok _ hmem
        exact ih child hchild hneeds found hfound

end Input

/-! ## Data that is the marker of a handle -/

namespace Value

/-- Whether the value is what lowering writes for a handle. -/
def encodesHandle : Value → Bool
  | dict [(key, str text)] =>
    key = refKey && '#' ∈ text.toList || key = stackOutputKey && ':' ∈ text.toList
  | dict [(key, dict [("name", str _), ("provider", str _)])]
  | dict [(key, dict [("name", str _), ("provider", null)])] => key = secretRefKey
  | dict [(key, dict [("args", list _), ("op", str _)])] => key = transformKey
  | _ => false

/-- Whether the code may take the value for a handle. -/
def isLookalike (value : Value) : Bool :=
  value.refTarget.isSome || value.isTransformMarker || value.encodesHandle

theorem exists_split {c : Char} {text : String} (hmem : c ∈ text.toList) :
    ∃ before after : String, text = before ++ String.singleton c ++ after := by
  obtain ⟨front, back, hsplit⟩ := List.append_of_mem hmem
  refine ⟨String.ofList front, String.ofList back, ?_⟩
  apply String.toList_injective
  simp [hsplit]

/-- A value that encodes a handle is the canonical form of that handle. -/
theorem exists_handle {value : Value} (hencodes : value.encodesHandle = true) :
    ∃ handle : Input, handle.isHandle = true ∧ handle.canonicalize = value := by
  unfold encodesHandle at hencodes
  split at hencodes
  next key text =>
    rw [Bool.or_eq_true, Bool.and_eq_true, Bool.and_eq_true, decide_eq_true_eq, decide_eq_true_eq,
      decide_eq_true_eq, decide_eq_true_eq] at hencodes
    rcases hencodes with ⟨rfl, hmem⟩ | ⟨rfl, hmem⟩
    · obtain ⟨nodeId, attr, rfl⟩ := exists_split hmem
      exact ⟨.ref ⟨nodeId, attr⟩, rfl, rfl⟩
    · obtain ⟨stack, name, rfl⟩ := exists_split hmem
      exact ⟨.stackOutputRef stack name, rfl, rfl⟩
  next key name provider =>
    obtain rfl := of_decide_eq_true hencodes
    exact ⟨.secretRef ⟨name, some provider⟩, rfl, rfl⟩
  next key name =>
    obtain rfl := of_decide_eq_true hencodes
    exact ⟨.secretRef ⟨name, none⟩, rfl, rfl⟩
  next key args op =>
    obtain rfl := of_decide_eq_true hencodes
    refine ⟨.transform op (args.map Input.ofValue), rfl, ?_⟩
    have hargs : args.map (Input.canonicalize ∘ Input.ofValue) = args.map id :=
      List.map_congr_left fun arg _ => Input.canonicalize_ofValue arg
    rw [Input.canonicalize, Input.canonicalizeItems_eq, List.map_map, hargs, List.map_id]
  next => cases hencodes

/-- Every handle encodes to such a value. -/
theorem encodesHandle_canonicalize {handle : Input} (hhandle : handle.isHandle = true) :
    handle.canonicalize.encodesHandle = true := by
  cases handle with
  | ref found => simp [Input.canonicalize, encodesHandle]
  | stackOutputRef stack name => simp [Input.canonicalize, encodesHandle]
  | secretRef found =>
    obtain ⟨name, provider⟩ := found
    cases provider <;> simp [Input.canonicalize, encodesHandle]
  | transform op args => simp [Input.canonicalize, encodesHandle]
  | _ => cases hhandle

/-- Plain data is the canonical form of something that holds a handle exactly if it encodes one. -/
theorem exists_containsHandle_iff {value : Value} :
    (∃ handle : Input, handle.containsHandle = true ∧ handle.canonicalize = value) ↔
      value.any encodesHandle = true := by
  constructor
  · rintro ⟨handle, hcontains, rfl⟩
    induction handle using Input.ind with
    | step handle ih =>
      rw [Input.containsHandle, Input.any_eq, Bool.or_eq_true] at hcontains
      rw [any_eq, Bool.or_eq_true]
      rcases hcontains with hhandle | hchild
      · exact .inl (encodesHandle_canonicalize hhandle)
      · by_cases hhandle : handle.isHandle = true
        · exact .inl (encodesHandle_canonicalize hhandle)
        obtain ⟨child, hmem, hholds⟩ := List.any_eq_true.mp hchild
        refine .inr (List.any_eq_true.mpr ⟨child.canonicalize, ?_, ih child hmem hholds⟩)
        cases handle with
        | list items =>
          rw [Input.canonicalize, Input.canonicalizeItems_eq]
          exact List.mem_map_of_mem hmem
        | dict fields | model fields =>
          rw [Input.canonicalize, Input.canonicalizeFields_eq]
          obtain ⟨entry, hentry, rfl⟩ := List.mem_map.mp hmem
          exact List.mem_map.mpr ⟨_, List.mem_map_of_mem hentry, rfl⟩
        | transform op args => exact (hhandle rfl).elim
        | _ => cases hmem
  · intro hany
    induction value using Value.ind with
    | step value ih =>
      rw [any_eq, Bool.or_eq_true] at hany
      rcases hany with hself | hchild
      · obtain ⟨handle, hhandle, hvalue⟩ := exists_handle hself
        refine ⟨handle, ?_, hvalue⟩
        rw [Input.containsHandle, Input.any_eq, hhandle]
        rfl
      · obtain ⟨child, hmem, hencodes⟩ := List.any_eq_true.mp hchild
        obtain ⟨handle, hcontains, hvalue⟩ := ih child hmem hencodes
        have hplain : ∀ value, Input.canonicalize (Input.ofValue value) = value :=
          Input.canonicalize_ofValue
        cases value with
        | list items =>
          obtain ⟨before, after, rfl⟩ := List.append_of_mem hmem
          refine ⟨.list (before.map Input.ofValue ++ handle :: after.map Input.ofValue), ?_, ?_⟩
          · rw [Input.containsHandle, Input.any_eq, Bool.or_eq_true, List.any_eq_true]
            exact .inr ⟨handle, by simp [Input.children], hcontains⟩
          · simp [Input.canonicalize, Input.canonicalizeItems_eq, hvalue, Function.comp_def]
        | dict fields =>
          obtain ⟨entry, hentry, rfl⟩ := List.mem_map.mp hmem
          obtain ⟨before, after, rfl⟩ := List.append_of_mem hentry
          let plain (entry : String × Value) := (entry.1, Input.ofValue entry.2)
          refine ⟨.dict (before.map plain ++ (entry.1, handle) :: after.map plain), ?_, ?_⟩
          · rw [Input.containsHandle, Input.any_eq, Bool.or_eq_true, List.any_eq_true]
            exact .inr ⟨handle, by simp [Input.children], hcontains⟩
          · simp [Input.canonicalize, Input.canonicalizeFields_eq, hvalue, Function.comp_def, plain]
        | _ => cases hmem

end Value

/-! ## A resource built from plain data -/

/-- A resource's inputs where the config wrote no handle. -/
def plainInputs (data : Dict String Value) : Dict String Input := data.map fun _ => Input.ofValue

/-- The inputs as they are lowered, each handle as its marker. -/
def canonicalInputs (inputs : Dict String Input) : Dict String Value :=
  inputs.map fun _ => Input.canonicalize

/-- The references a resource's edges are made of. -/
def inputRefs (inputs : Dict String Input) : List Ref :=
  inputs.toList.flatMap fun entry => entry.2.collectRefs

/-- The code takes the inputs for the data they are, wherever it looks at them. -/
structure KeptAsData (data : Dict String Value) : Prop where
  lowered : canonicalInputs (plainInputs data) = data
  received : ∀ env, resolveInputs env (plainInputs data) = .ok (plainInputs data)
  independent : inputRefs (plainInputs data) = []
  unattributed : ∀ (name : String) (value : Value), data[name]? = some value →
    value.collectRefTargets = []
  /-- Nothing that holds a handle is lowered to the same data. -/
  apart : ∀ (name : String) (value : Value), data[name]? = some value → ∀ handle : Input,
    handle.containsHandle = true → handle.canonicalize ≠ value

namespace Value

theorem any_eq_false {p : Value → Bool} {q : Value → Bool} (himplies : ∀ value, q value = true →
    p value = true) {value : Value} (hnone : value.any p = false) : value.any q = false := by
  induction value using ind with
  | step value ih =>
    rw [any_eq, Bool.or_eq_false_iff, List.any_eq_false] at hnone ⊢
    refine ⟨?_, fun child hchild => ?_⟩
    · by_contra hholds
      rw [himplies value ((Bool.not_eq_false _).mp hholds)] at hnone
      cases hnone.1
    · simp [ih child hchild (Bool.eq_false_iff.mpr (hnone.2 child hchild))]

/-- A strict reference is a loose one. -/
theorem refTarget_of_isRefMarker {value : Value} (hmarker : value.isRefMarker = true) :
    value.refTarget.isSome = true := by
  rw [isRefMarker, refFromMarker] at hmarker
  match value with
  | .dict [(name, payload)] =>
    by_cases hname : name = refKey
    · subst hname
      cases payload with
      | str target => rfl
      | _ => simp [singleKeyMarker] at hmarker
    · simp [singleKeyMarker, hname] at hmarker
  | .dict [] | .dict (_ :: _ :: _) => cases hmarker
  | .null | .bool _ | .int _ | .float _ | .str _ | .list _ => cases hmarker

theorem collectRefTargets_eq_nil {value : Value} :
    value.collectRefTargets = [] ↔ value.any (fun v => v.refTarget.isSome) = false := by
  rw [collectRefTargets, ← collect_eq_nil, List.filterMap_eq_nil_iff]
  constructor
  · intro hnone
    by_contra hfound
    obtain ⟨found, hmem⟩ := List.exists_mem_of_ne_nil _ hfound
    have hsome := of_mem_collect value found hmem
    rw [hnone found hmem] at hsome
    cases hsome
  · intro hnil found hmem
    rw [hnil] at hmem
    cases hmem

end Value

theorem getElem?_plainInputs (data : Dict String Value) (name : String) :
    (plainInputs data)[name]? = (data[name]?).map Input.ofValue := by
  rw [plainInputs, Std.ExtTreeMap.getElem?_map]

/-- A rewrite that leaves every field as it is leaves the table. -/
theorem updatedInputs_self {rewrite : Input → Except Fault Input} {inputs : Dict String Input}
    (hsame : ∀ (name : String) (value : Input), inputs[name]? = some value →
      rewrite value = .ok value) : updatedInputs rewrite inputs = .ok inputs := by
  rw [updatedInputs, Fold.traverse_eq_ok]
  exact ⟨fun name value hvalue => ⟨value, hsame name value hvalue, hvalue⟩, fun _ hnone => hnone⟩

theorem updatedInputs_at {rewrite : Input → Except Fault Input} {inputs found : Dict String Input}
    (hok : updatedInputs rewrite inputs = .ok found) {name : String} {value : Input}
    (hvalue : inputs[name]? = some value) :
    ∃ image, rewrite value = .ok image ∧ found[name]? = some image :=
  (Fold.traverse_eq_ok.mp hok).1 name value hvalue

theorem resolveInputs_eq_ok {env : HandleEnv} {inputs found : Dict String Input} :
    resolveInputs env inputs = .ok found ↔ ∃ stacked referred,
      updatedInputs (Input.resolveStackRef env.rendering env.stackOutputs true) inputs = .ok stacked ∧
      updatedInputs (Input.resolveRef env.rendering env.outputs) stacked = .ok referred ∧
      updatedInputs (Input.resolveSecretRef env.secrets) referred = .ok found := by
  rw [resolveInputs]
  constructor
  · intro hok
    cases hstacked : updatedInputs (Input.resolveStackRef env.rendering env.stackOutputs true)
        inputs with
    | error fault =>
      rw [hstacked] at hok
      cases hok
    | ok stacked =>
      rw [hstacked] at hok
      change (do
        let referred ← updatedInputs (Input.resolveRef env.rendering env.outputs) stacked
        updatedInputs (Input.resolveSecretRef env.secrets) referred) = _ at hok
      cases hreferred : updatedInputs (Input.resolveRef env.rendering env.outputs) stacked with
      | error fault =>
        rw [hreferred] at hok
        cases hok
      | ok referred =>
        rw [hreferred] at hok
        exact ⟨stacked, referred, rfl, hreferred, hok⟩
  · rintro ⟨stacked, referred, hstacked, hreferred, hfound⟩
    rw [hstacked]
    change (do
      let referred ← updatedInputs (Input.resolveRef env.rendering env.outputs) stacked
      updatedInputs (Input.resolveSecretRef env.secrets) referred) = _
    rw [hreferred]
    exact hfound

theorem exists_stored {data : Dict String Value} {name : String} {value : Input}
    (hvalue : (plainInputs data)[name]? = some value) :
    ∃ stored, data[name]? = some stored ∧ value = .ofValue stored := by
  rw [getElem?_plainInputs, Option.map_eq_some_iff] at hvalue
  obtain ⟨stored, hstored, rfl⟩ := hvalue
  exact ⟨stored, hstored, rfl⟩

theorem resolveStackRef_ofValue (rendering : Rendering) (stackOutputs : Dict String Value)
    (value : Value) :
    Input.resolveStackRef rendering stackOutputs true (.ofValue value) = .ok (.ofValue value) := by
  have hnone : (Input.ofValue value).any Input.isStackOutputRef = false :=
    Input.any_ofValue_eq_false (fun v => by cases v <;> rfl) value
  rw [Input.resolveStackRef, hnone]
  rfl

/-- Data without a marker reaches the provider as it was written. -/
theorem received_of_unmarked {data : Dict String Value}
    (hplain : ∀ (name : String) (value : Value), data[name]? = some value →
      value.needsResolution = false) (env : HandleEnv) :
    resolveInputs env (plainInputs data) = .ok (plainInputs data) := by
  refine resolveInputs_eq_ok.mpr ⟨_, _, updatedInputs_self ?_, updatedInputs_self ?_,
    updatedInputs_self ?_⟩
  · intro name value hvalue
    obtain ⟨stored, -, rfl⟩ := exists_stored hvalue
    exact resolveStackRef_ofValue env.rendering env.stackOutputs stored
  · intro name value hvalue
    obtain ⟨stored, hstored, rfl⟩ := exists_stored hvalue
    rw [Input.resolveRef, Input.needsResolution_ofValue, hplain name stored hstored]
    rfl
  · intro name value hvalue
    obtain ⟨stored, -, rfl⟩ := exists_stored hvalue
    cases stored <;> rfl

/-- Where nothing is known and no operation succeeds. -/
def HandleEnv.unknown : HandleEnv :=
  ⟨⟨fun _ => "", fun _ => [], fun _ _ => .error .shape⟩, ∅, ∅, fun _ => .error .shape⟩

/-- Data that reaches the provider whatever is known has no marker. -/
theorem unmarked_of_received {data : Dict String Value} {found : Dict String Input}
    (hreceived : resolveInputs .unknown (plainInputs data) = .ok found) {name : String}
    {value : Value} (hvalue : data[name]? = some value) : value.needsResolution = false := by
  obtain ⟨stacked, referred, hstacked, hreferred, -⟩ := resolveInputs_eq_ok.mp hreceived
  have hplain : (plainInputs data)[name]? = some (.ofValue value) := by
    rw [getElem?_plainInputs, hvalue]
    rfl
  obtain ⟨image, himage, hat⟩ := updatedInputs_at hstacked hplain
  rw [resolveStackRef_ofValue] at himage
  cases himage
  obtain ⟨image, himage, -⟩ := updatedInputs_at hreferred hat
  by_contra hneeds
  have hmarker := (Bool.not_eq_false _).mp hneeds
  rw [Input.resolveRef, Input.needsResolution_ofValue, hmarker, if_pos rfl] at himage
  exact Input.resolve_ofValue_fails (fun _ _ => rfl) hmarker image himage

theorem inputRefs_plainInputs (data : Dict String Value) : inputRefs (plainInputs data) = [] := by
  rw [inputRefs, List.flatMap_eq_nil_iff]
  intro entry hentry
  obtain ⟨stored, -, hstored⟩ := exists_stored
    (Std.ExtTreeMap.mem_toList_iff_getElem?_eq_some.mp hentry)
  have hnil : entry.2.collect Input.isRef = [] := by
    rw [hstored, Input.collect_eq_nil]
    exact Input.any_ofValue_eq_false (fun v => by cases v <;> rfl) stored
  rw [Input.collectRefs, hnil]
  rfl

theorem canonicalInputs_plainInputs (data : Dict String Value) :
    canonicalInputs (plainInputs data) = data := by
  apply Std.ExtTreeMap.ext_getElem?
  intro name
  rw [canonicalInputs, Std.ExtTreeMap.getElem?_map, getElem?_plainInputs, Option.map_map]
  cases data[name]? with
  | none => rfl
  | some value => exact congrArg some (Input.canonicalize_ofValue value)

theorem any_isLookalike_eq_false {value : Value} : value.any Value.isLookalike = false ↔
    value.any (fun v => v.refTarget.isSome) = false ∧ value.needsResolution = false ∧
      value.any Value.encodesHandle = false := by
  constructor
  · intro hnone
    refine ⟨Value.any_eq_false (fun v hv => ?_) hnone, Value.any_eq_false (fun v hv => ?_) hnone,
      Value.any_eq_false (fun v hv => ?_) hnone⟩
    · simp [Value.isLookalike, hv]
    · rcases Bool.or_eq_true _ _ ▸ hv with href | htransform
      · simp [Value.isLookalike, Value.refTarget_of_isRefMarker href]
      · simp [Value.isLookalike, htransform]
    · simp [Value.isLookalike, hv]
  · rintro ⟨href, hneeds, hencodes⟩
    induction value using Value.ind with
    | step value ih =>
      rw [Value.needsResolution] at hneeds
      rw [Value.any_eq, Bool.or_eq_false_iff, List.any_eq_false] at href hneeds hencodes ⊢
      refine ⟨?_, fun child hchild => ?_⟩
      · rw [Value.isLookalike, href.1, hencodes.1, (Bool.or_eq_false_iff.mp hneeds.1).2]
        rfl
      · have hchildren := ih child hchild (Bool.eq_false_iff.mpr (href.2 child hchild))
          (Bool.eq_false_iff.mpr (hneeds.2 child hchild))
          (Bool.eq_false_iff.mpr (hencodes.2 child hchild))
        simp [hchildren]

/-- **When plain data is not mistaken for a handle.** Exactly when no object in it has a text under
a `$ref` key, is a transform by its shape, or is what some handle is lowered to. -/
theorem keptAsData_iff (data : Dict String Value) : KeptAsData data ↔
    ∀ (name : String) (value : Value), data[name]? = some value →
      value.any Value.isLookalike = false := by
  constructor
  · intro hkept name value hvalue
    refine any_isLookalike_eq_false.mpr ⟨?_, ?_, ?_⟩
    · exact Value.collectRefTargets_eq_nil.mp (hkept.unattributed name value hvalue)
    · exact unmarked_of_received (hkept.received .unknown) hvalue
    · by_contra hencodes
      obtain ⟨handle, hcontains, hhandle⟩ :=
        Value.exists_containsHandle_iff.mpr ((Bool.not_eq_false _).mp hencodes)
      exact hkept.apart name value hvalue handle hcontains hhandle
  · intro hnone
    refine ⟨canonicalInputs_plainInputs data, received_of_unmarked ?_, inputRefs_plainInputs data,
      ?_, ?_⟩
    · intro name value hvalue
      exact (any_isLookalike_eq_false.mp (hnone name value hvalue)).2.1
    · intro name value hvalue
      exact Value.collectRefTargets_eq_nil.mpr
        (any_isLookalike_eq_false.mp (hnone name value hvalue)).1
    · intro name value hvalue handle hcontains hhandle
      have hencodes := (any_isLookalike_eq_false.mp (hnone name value hvalue)).2.2
      rw [Value.exists_containsHandle_iff.mp ⟨handle, hcontains, hhandle⟩] at hencodes
      cases hencodes

/-- A field that holds a fragment of a JSON schema. -/
def schemaData : Dict String Value :=
  (∅ : Dict String Value).insert "schema"
    (.dict [("properties", .dict [("port", .dict [("$ref", .str "#/definitions/port")])])])

/-- A reference within a JSON schema is taken for one to a node with an empty id. -/
theorem schema_not_keptAsData : ¬KeptAsData schemaData := by
  intro hkept
  have hfield : schemaData["schema"]? =
      some (.dict [("properties", .dict [("port", .dict [("$ref", .str "#/definitions/port")])])]) :=
    Std.ExtTreeMap.getElem?_insert_self
  have hmarked := unmarked_of_received (hkept.received .unknown) hfield
  revert hmarked
  decide +kernel

end Atlantide
