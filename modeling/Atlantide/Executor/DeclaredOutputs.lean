import Atlantide.Reconcile.Applied
import Atlantide.Reconcile.ProviderInputs

/-! # What a commit persists of its declarations

A declaration may hold any handle at any depth. A commit resolves it as a resource's references are
resolved, which replaces references and transforms only, and seals what resolved to a text where the
declaration refers to a sensitive field. -/

namespace Atlantide

open Fallible

namespace Input

mutual

/-- Whether `p` holds of the value, or of anything in it that resolution does not replace. -/
def anyKept (p : Input → Bool) : Input → Bool
  | list items => p (list items) || anyKeptItem p items
  | dict fields =>
    p (dict fields) ||
      !((dict fields).isRefMarker || (dict fields).isTransformMarker) && anyKeptField p fields
  | model fields => p (model fields) || anyKeptField p fields
  | value => p value

def anyKeptItem (p : Input → Bool) : List Input → Bool
  | [] => false
  | item :: items => item.anyKept p || anyKeptItem p items

def anyKeptField (p : Input → Bool) : List (String × Input) → Bool
  | [] => false
  | (_, value) :: fields => value.anyKept p || anyKeptField p fields

end

/-- The reference a live handle or a marker is. -/
def refOf : Input → Option Ref
  | ref found => some found
  | value => value.refFromMarker

def isText : Input → Bool
  | str _ | rendered _ => true
  | _ => false

/-- Whether the value is computed from operands. -/
def isComputed (value : Input) : Bool := value.isTransform || value.isTransformMarker

end Input

/-- An output as a store keeps it. -/
inductive StoredOutput
  | plain (value : Input)
  | sealed (text : String)

namespace StoredOutput

/-- Whether no handle and no marker is anywhere in what is kept. -/
def isPlainData : StoredOutput → Bool
  | plain value => !value.any fun v => v.isHandle || v.isReserved
  | sealed _ => true

def isSealed : StoredOutput → Bool
  | plain _ => false
  | sealed _ => true

end StoredOutput

/-- What a commit of live declarations reads. -/
structure Declarations where
  rendering : Rendering
  types : Types
  live : LiveOutputs
  outputDecls : Dict String Input
  /-- Whether there is key material to seal with. -/
  keyed : Bool
  /-- The nodes of the config and of the prior state. -/
  nodeIds : List String

namespace Declarations

variable (decls : Declarations)

def resolve (value : Input) : Except Fault Input :=
  Input.resolve decls.rendering decls.live true value

/-- Whether the reference points at a sensitive field, or at a type nothing is known of. -/
def isSensitiveRef (ref : Ref) : Bool :=
  match decls.types (typeNameOf ref.nodeId) with
  | some cls => ref.attr ∈ cls.sensitive
  | none => true

def isSensitive (value : Input) : Bool :=
  value.any fun v => v.refOf.any decls.isSensitiveRef

/-- A resolved output as it is stored: a sensitive text sealed. -/
def stored (value : Input) : Input → StoredOutput
  | .str text | .rendered text =>
    if decls.isSensitive value && decls.keyed then .sealed text else .plain (.str text)
  | resolved => .plain resolved

/-- The first declaration whose value fails for more than an output that is not there. -/
def fault : Option Fault :=
  decls.outputDecls.toList.findSome? fun (_, value) =>
    match decls.resolve value with
    | .ok _ | .error (.missing _ _) => none
    | .error fault => some fault

def persistableOutputs : Dict String StoredOutput :=
  decls.outputDecls.filterMap fun _ value => (decls.resolve value).toOption.map (decls.stored value)

/-- Committed keys the run owns but no longer declares. -/
def retiredOutputs (committed : Dict String StoredOutput) : List String :=
  committed.keys.filter fun key =>
    stackOf key ∈ decls.nodeIds.map stackOf && key ∉ decls.outputDecls

/-- The outputs committed after the run, as they were where the commit fails. -/
def commitOutputs (committed : Dict String StoredOutput) : Dict String StoredOutput :=
  match decls.fault with
  | some _ => committed
  | none =>
    (committed.filter fun key _ => key ∉ decls.retiredOutputs committed) ∪
      decls.persistableOutputs

/-- What the commit writes. -/
def written : Dict String StoredOutput :=
  match decls.fault with
  | some _ => ∅
  | none => decls.persistableOutputs

/-- What resolution leaves in a value: a handle or a marker it does not read, or an output that is
such a marker. -/
def isLeft (value : Input) : Bool :=
  value.isSecretRef || value.isStackOutputRef || value.isUnread ||
    value.refOf.any fun ref =>
      ((decls.live[ref.nodeId]?).bind (·[ref.attr]?)).any fun found =>
        (Input.ofValue found).any Input.isReserved

/-- Whether a text that resolution puts in the value's place comes from a sensitive field: the field
itself, or what is computed over it. -/
def derivesText (value : Input) : Bool :=
  match value.refOf with
  | some ref => decls.isSensitiveRef ref &&
      ((decls.live[ref.nodeId]?).bind (·[ref.attr]?)).any fun found =>
        (Input.ofValue found).any Input.isText
  | none => value.isComputed && decls.isSensitive value

/-- Whether the value is itself a text, once resolved. -/
def isTextual (value : Input) : Bool :=
  match value.refOf with
  | some ref => ((decls.live[ref.nodeId]?).bind (·[ref.attr]?)).any fun found =>
      (Input.ofValue found).isText
  | none => value.isComputed || value.isText

/-- Each declared output keeps its committed value, or becomes plain data in which no text of a
sensitive field is unsealed while there is a key. -/
def CommitsSafely (committed : Dict String StoredOutput) : Prop :=
  ∀ (name : String) (value : Input), decls.outputDecls[name]? = some value →
    match decls.written[name]? with
    | none => (decls.commitOutputs committed)[name]? = committed[name]?
    | some kept => (decls.commitOutputs committed)[name]? = some kept ∧ kept.isPlainData ∧
        (decls.keyed → value.anyKept decls.derivesText → kept.isSealed)

end Declarations

namespace Input

/-- Whether resolution puts something else in the value's place. -/
def isReplaced (value : Input) : Bool := value.refOf.isSome || value.isComputed

theorem anyKeptItem_eq (p : Input → Bool) (items : List Input) :
    anyKeptItem p items = items.any (·.anyKept p) := by
  induction items with
  | nil => rfl
  | cons item items ih => rw [anyKeptItem, ih, List.any_cons]

theorem anyKeptField_eq (p : Input → Bool) (fields : List (String × Input)) :
    anyKeptField p fields = (fields.map Prod.snd).any (·.anyKept p) := by
  induction fields with
  | nil => rfl
  | cons entry fields ih => rw [anyKeptField, ih, List.map_cons, List.any_cons]

/-- The walk looks at the value, then at its children unless the value is replaced. -/
theorem anyKept_eq (p : Input → Bool) (value : Input) :
    value.anyKept p = (p value || !value.isReplaced && value.children.any (·.anyKept p)) := by
  cases value with
  | list items =>
    rw [anyKept, anyKeptItem_eq]
    rfl
  | dict fields =>
    rw [anyKept, anyKeptField_eq]
    rfl
  | model fields =>
    rw [anyKept, anyKeptField_eq]
    rfl
  | transform op args => exact (Bool.or_false _).symm
  | _ => simp [anyKept, children]

theorem any_of_anyKept {p : Input → Bool} {value : Input} (hkept : value.anyKept p = true) :
    value.any p = true := by
  induction value using ind with
  | step value ih =>
    rw [anyKept_eq, Bool.or_eq_true, Bool.and_eq_true, List.any_eq_true] at hkept
    rw [any_eq, Bool.or_eq_true, List.any_eq_true]
    rcases hkept with hhere | ⟨-, child, hchild, hbelow⟩
    · exact .inl hhere
    · exact .inr ⟨child, hchild, ih child hchild hbelow⟩

end Input

namespace Declarations

open Input (ind resolveItems_eq_ok resolveFields_eq_ok)

variable {decls : Declarations}

/-- A handle for an output resolves to that output. -/
theorem resolve_refOf {value image : Input} {ref : Ref} (href : value.refOf = some ref)
    (hok : decls.resolve value = .ok image) :
    ∃ found, (decls.live[ref.nodeId]?).bind (·[ref.attr]?) = some found ∧
      image = Input.ofValue found := by
  have hlookup : Input.lookup decls.live true ref = .ok image := by
    cases value with
    | ref found =>
      cases href
      exact hok
    | dict fields =>
      have hmarker : (Input.dict fields).refFromMarker = some ref := href
      rw [resolve, Input.resolve, hmarker] at hok
      exact hok
    | _ => cases href
  rw [Input.lookup] at hlookup
  split at hlookup
  next found hfound => exact ⟨found, hfound, (Except.ok.inj hlookup).symm⟩
  next => cases hlookup

/-- What an operation computes is a text. -/
theorem isText_of_eval {op : String} {operands : List Input} {image : Input}
    (hok : Input.evalTransform decls.rendering op operands = .ok image) : image.isText = true := by
  rw [Input.evalTransform] at hok
  cases hreduce : decls.rendering.reduce op operands with
  | error fault =>
    rw [hreduce] at hok
    cases hok
  | ok text =>
    rw [hreduce] at hok
    cases hok
    split <;> rfl

/-- A computed value resolves to a text. -/
theorem isText_of_isComputed {value image : Input} (hcomputed : value.isComputed = true)
    (href : value.refOf = none) (hok : decls.resolve value = .ok image) :
    image.isText = true := by
  cases value with
  | transform op args =>
    rw [resolve, Input.resolve] at hok
    obtain ⟨operands, -, heval⟩ := bind_eq_ok hok
    exact isText_of_eval heval
  | dict fields =>
    have hmarker : (Input.dict fields).refFromMarker = none := href
    rw [resolve, Input.resolve, hmarker] at hok
    have htransform : (Input.dict fields).isTransformMarker = true := hcomputed
    dsimp only at hok
    rw [if_pos htransform] at hok
    obtain ⟨op, operands, heval⟩ := Input.resolveMarker_eq_ok hok
    exact isText_of_eval heval
  | _ => cases hcomputed

theorem not_held_of_isText {image : Input} (htext : image.isText = true) :
    (image.any fun v => v.isHandle || v.isReserved) = false := by
  cases image with
  | str _ | rendered _ => rfl
  | _ => cases htext

theorem isReserved_resolved {fields images : List (String × Input)}
    (hall : List.Forall₂ (fun entry image => image.1 = entry.1 ∧
      Input.resolve decls.rendering decls.live true entry.2 = .ok image.2) fields images) :
    (Input.dict images).isReserved = (Input.dict fields).isReserved := by
  cases hall with
  | nil => rfl
  | cons hhead hrest =>
    cases hrest with
    | nil =>
      rw [Input.isReserved, Input.isReserved, hhead.1]
    | cons _ _ => rfl

/-- Where an object stands for nothing, what is left of it is whether its key is reserved. -/
theorem isLeft_fields {value : Input} {fields : List (String × Input)}
    (hvalue : value = .dict fields ∨ value = .model fields) (hreplaced : value.isReplaced = false) :
    decls.isLeft value = (Input.dict fields).isReserved := by
  rw [Input.isReplaced, Bool.or_eq_false_iff, Option.isSome_eq_false_iff, Option.isNone_iff_eq_none,
    Input.isComputed, Bool.or_eq_false_iff] at hreplaced
  obtain ⟨href, -, htransform⟩ := hreplaced
  have hmarker : value.isRefMarker = false := by
    rcases hvalue with rfl | rfl
    · rw [Input.isRefMarker, show (Input.dict fields).refFromMarker = none from href]
      rfl
    · rfl
  have hreserved : value.isReserved = (Input.dict fields).isReserved := by
    rcases hvalue with rfl | rfl
    · rfl
    · exact Input.isReserved_model fields
  rw [isLeft, href, Input.isUnread, hmarker, htransform, hreserved]
  rcases hvalue with rfl | rfl <;> simp [Input.isSecretRef, Input.isStackOutputRef]

/-- **What a resolved declaration holds of handles and markers is what resolution left in it.** -/
theorem held_resolved {value image : Input} (hok : decls.resolve value = .ok image) :
    (image.any fun v => v.isHandle || v.isReserved) = value.anyKept decls.isLeft := by
  induction value using ind generalizing image with
  | step value ih =>
    rw [Input.anyKept_eq]
    have hfields : ∀ (fields : List (String × Input)) (found : Input),
        value = .dict fields ∨ value = .model fields → value.isReplaced = false →
        (Input.resolveFields decls.rendering decls.live true fields).map Input.dict = .ok found →
        (found.any fun v => v.isHandle || v.isReserved) =
          (decls.isLeft value || !value.isReplaced &&
            value.children.any (·.anyKept decls.isLeft)) := by
      intro fields found hvalue hreplaced hmap
      obtain ⟨images, hresolved, rfl⟩ := map_eq_ok hmap
      have hall := resolveFields_eq_ok.mp hresolved
      have hchildren : value.children = fields.map Prod.snd := by
        rcases hvalue with rfl | rfl <;> rfl
      rw [isLeft_fields hvalue hreplaced, hreplaced, Input.any_eq, isReserved_resolved hall]
      have hbelow : (images.map Prod.snd).any
          (·.any fun v => v.isHandle || v.isReserved) =
          (fields.map Prod.snd).any (·.anyKept decls.isLeft) := by
        rw [List.any_map, List.any_map]
        refine any_of_forall₂ hall fun entry hentry image himage => ?_
        exact ih entry.2 (hchildren ▸ List.mem_map_of_mem hentry) himage.2
      rw [hchildren]
      exact congrArg _ hbelow
    cases href : value.refOf with
    | some ref =>
      obtain ⟨found, hfound, rfl⟩ := resolve_refOf href hok
      have hplain : ((Input.ofValue found).any fun v => v.isHandle || v.isReserved) =
          (Input.ofValue found).any Input.isReserved := by
        rw [Input.any_or, Input.any_ofValue_eq_false (fun v => by cases v <;> rfl), Bool.false_or]
      have hleft : decls.isLeft value = (Input.ofValue found).any Input.isReserved := by
        rw [isLeft, href, Option.any_some, hfound, Option.any_some]
        cases value with
        | ref _ => rfl
        | dict fields =>
          have hmarker : (Input.dict fields).isRefMarker = true := by
            rw [Input.isRefMarker, show (Input.dict fields).refFromMarker = some ref from href]
            rfl
          rw [Input.isUnread, hmarker]
          simp [Input.isSecretRef, Input.isStackOutputRef]
        | _ => cases href
      rw [hplain, hleft, Input.isReplaced, href]
      exact (Bool.or_false _).symm
    | none =>
      cases hcomputed : value.isComputed with
      | true =>
        rw [not_held_of_isText (isText_of_isComputed hcomputed href hok), Input.isReplaced,
          hcomputed, isLeft, href]
        cases value with
        | transform _ _ => rfl
        | dict fields =>
          have htransform : (Input.dict fields).isTransformMarker = true := hcomputed
          rw [Input.isUnread, htransform]
          simp [Input.isSecretRef, Input.isStackOutputRef]
        | _ => cases hcomputed
      | false =>
        have hreplaced : value.isReplaced = false := by rw [Input.isReplaced, href, hcomputed]; rfl
        cases value with
        | dict fields =>
          have hmarker : (Input.dict fields).refFromMarker = none := href
          have htransform : (Input.dict fields).isTransformMarker = false := hcomputed
          rw [resolve, Input.resolve_dict hmarker htransform] at hok
          exact hfields fields image (.inl rfl) hreplaced hok
        | model fields => exact hfields fields image (.inr rfl) hreplaced hok
        | list items =>
          obtain ⟨images, hresolved, rfl⟩ := map_eq_ok hok
          have hbelow : images.any (·.any fun v => v.isHandle || v.isReserved) =
              items.any (·.anyKept decls.isLeft) :=
            any_of_forall₂ (resolveItems_eq_ok.mp hresolved) fun item hitem image himage =>
              ih item hitem himage
          rw [Input.any_eq, hreplaced]
          exact congrArg _ hbelow
        | ref _ => cases href
        | transform _ _ => cases hcomputed
        | _ =>
          cases hok
          rfl

/-- A declaration resolves to a text exactly when it is one, or a handle that becomes one. -/
theorem isText_resolved {value image : Input} (hok : decls.resolve value = .ok image) :
    image.isText = decls.isTextual value := by
  rw [isTextual]
  cases href : value.refOf with
  | some ref =>
    obtain ⟨found, hfound, rfl⟩ := resolve_refOf href hok
    dsimp only
    rw [hfound, Option.any_some]
  | none =>
    cases hcomputed : value.isComputed with
    | true => exact isText_of_isComputed hcomputed href hok
    | false =>
      cases value with
      | dict fields =>
        have hmarker : (Input.dict fields).refFromMarker = none := href
        have htransform : (Input.dict fields).isTransformMarker = false := hcomputed
        rw [resolve, Input.resolve_dict hmarker htransform] at hok
        obtain ⟨images, -, rfl⟩ := map_eq_ok hok
        rfl
      | list items | model fields =>
        obtain ⟨images, -, rfl⟩ := map_eq_ok hok
        rfl
      | ref _ => cases href
      | transform _ _ => cases hcomputed
      | _ =>
        cases hok
        rfl

theorem any_of_any {p : Input → Bool} {value : Input} (hany : value.any (·.any p) = true) :
    value.any p = true := by
  induction value using ind with
  | step value ih =>
    rw [Input.any_eq, Bool.or_eq_true, List.any_eq_true] at hany
    rcases hany with hhere | ⟨child, hchild, hbelow⟩
    · exact hhere
    · rw [Input.any_eq, Bool.or_eq_true, List.any_eq_true]
      exact .inr ⟨child, hchild, ih child hchild hbelow⟩

/-- A declaration that a text of a sensitive field comes from is taken for sensitive. -/
theorem isSensitive_of_derives {value : Input} (hderives : value.anyKept decls.derivesText = true) :
    decls.isSensitive value = true := by
  have hsource : ∀ v, decls.derivesText v = true →
      (v.any fun v => v.refOf.any decls.isSensitiveRef) = true := by
    intro v hv
    rw [derivesText] at hv
    split at hv
    next ref href =>
      rw [Bool.and_eq_true] at hv
      rw [Input.any_eq, href, Option.any_some, hv.1]
      rfl
    next =>
      rw [Bool.and_eq_true] at hv
      exact hv.2
  have hany := Input.any_of_anyKept hderives
  by_contra hnone
  rw [isSensitive, Bool.not_eq_true] at hnone
  have hbelow : (value.any (·.any fun v => v.refOf.any decls.isSensitiveRef)) = false := by
    by_contra hsome
    rw [any_of_any ((Bool.not_eq_false _).mp hsome)] at hnone
    cases hnone
  rw [Input.any_mono hsource hbelow] at hany
  cases hany

theorem isSealed_stored {value image : Input} : (decls.stored value image).isSealed =
    (image.isText && (decls.isSensitive value && decls.keyed)) := by
  cases image with
  | str text | rendered text =>
    rw [stored]
    split
    next hsealed =>
      rw [hsealed]
      rfl
    next hplain =>
      rw [Bool.eq_false_iff.mpr hplain]
      rfl
  | _ => rfl

theorem isPlainData_stored {value image : Input} : (decls.stored value image).isPlainData =
    !image.any fun v => v.isHandle || v.isReserved := by
  cases image with
  | str text | rendered text =>
    rw [stored]
    split <;> rfl
  | _ => rfl

theorem getElem?_persistableOutputs (name : String) : decls.persistableOutputs[name]? =
    (decls.outputDecls[name]?).bind fun value =>
      (decls.resolve value).toOption.map (decls.stored value) := by
  rw [persistableOutputs, Std.ExtTreeMap.getElem?_filterMap']

/-- What a commit that goes through leaves of a declared output. -/
theorem getElem?_commitOutputs (hfault : decls.fault = none)
    {committed : Dict String StoredOutput} {name : String} (hname : name ∈ decls.outputDecls) :
    (decls.commitOutputs committed)[name]? =
      (decls.persistableOutputs[name]?).or committed[name]? := by
  have hkept : name ∉ decls.retiredOutputs committed := by
    intro hretired
    have hdeclared := (List.mem_filter.mp hretired).2
    simp only [Bool.and_eq_true, decide_eq_true_eq] at hdeclared
    exact hdeclared.2 hname
  rw [commitOutputs, hfault]
  dsimp only
  rw [Std.ExtTreeMap.getElem?_union, Std.ExtTreeMap.getElem?_filter']
  congr 1
  cases committed[name]? <;> simp [hkept]

def passwordTypes (type : String) : Option ResourceType :=
  if type = "random.Password" then
    some { provider := "random", fields := [("result", .computed)], sensitive := ["result"] }
  else none

/-- A generated password exported under a user's name, and a secret exported as it is. -/
def exported : Declarations where
  rendering := ⟨fun _ => "", fun _ => [], fun _ _ => .error .shape⟩
  types := passwordTypes
  live := (∅ : LiveOutputs).insert "prod:random.Password:admin"
    ((∅ : Dict String Value).insert "result" (.str "s3cret"))
  outputDecls := ((∅ : Dict String Input).insert "prod:logins"
      (.dict [("admin", .ref ⟨"prod:random.Password:admin", "result"⟩)])).insert
    "prod:token" (.secretRef ⟨"app/token", none⟩)
  keyed := true
  nodeIds := ["prod:random.Password:admin"]

end Declarations

end Atlantide
