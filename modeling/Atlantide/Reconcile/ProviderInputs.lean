import Atlantide.Reconcile.PlainData

/-! # What reaches a provider

Only a field that is a secret handle itself is opened, and a transform is evaluated only in a field
that also holds a reference or a stack output. Everything else a field may hold is replaced. -/

namespace Atlantide

open Fallible

namespace Input

def reservedKeys : List String := [refKey, transformKey, secretRefKey, stackOutputKey]

/-- Whether the value is an object with one key, a reserved one. -/
def isReserved : Input → Bool
  | dict [(key, _)] | model [(key, _)] => key ∈ reservedKeys
  | _ => false

/-- Whether the value is such an object, and none that resolution reads. -/
def isUnread (value : Input) : Bool :=
  value.isReserved && !value.isRefMarker && !value.isTransformMarker

/-- Whether a handle, its marker or its printed form is anywhere in the value. -/
def isTainted (value : Input) : Bool :=
  value.any fun v => v.isHandle || v.isRendered || v.isMarker

/-- Whether resolution looks into the field. -/
def isEvaluated (value : Input) : Bool :=
  value.any isStackOutputRef || value.needsResolution

/-- Whether every handle of a field is one that some resolver replaces. -/
def isCovered (value : Input) : Bool :=
  value.isSecretRef ||
    (!value.any isSecretRef && (!value.any isTransform || value.isEvaluated) &&
      !value.any isUnread && !value.any isRendered)

end Input

/-- The value is no handle itself: nothing in it is an object with a reserved key alone. -/
def Concrete (value : Value) : Prop := (Input.ofValue value).any Input.isReserved = false

/-- Every output there is has a value. -/
structure HandleEnv.Settled (env : HandleEnv) : Prop where
  outputs : ∀ (node : String) (outputs : Dict String Value) (name : String) (value : Value),
    env.outputs[node]? = some outputs → outputs[name]? = some value → Concrete value
  stackOutputs : ∀ (key : String) (value : Value), env.stackOutputs[key]? = some value →
    Concrete value

namespace Input

theorem any_eq_false_iff {p : Input → Bool} {value : Input} : value.any p = false ↔
    p value = false ∧ ∀ child ∈ value.children, child.any p = false := by
  rw [any_eq, Bool.or_eq_false_iff, List.any_eq_false]
  exact and_congr_right fun _ => forall₂_congr fun child _ => Bool.eq_false_iff.symm

theorem any_or {p q : Input → Bool} {value : Input} :
    value.any (fun v => p v || q v) = (value.any p || value.any q) := by
  induction value using ind with
  | step value ih =>
    rw [Bool.eq_iff_iff, Bool.or_eq_true, any_eq, any_eq p, any_eq q]
    simp only [Bool.or_eq_true, List.any_eq_true]
    constructor
    · rintro ((hp | hq) | ⟨child, hchild, hany⟩)
      · exact .inl (.inl hp)
      · exact .inr (.inl hq)
      · rw [ih child hchild, Bool.or_eq_true] at hany
        exact hany.imp (fun h => .inr ⟨child, hchild, h⟩) fun h => .inr ⟨child, hchild, h⟩
    · rintro ((hp | ⟨child, hchild, hany⟩) | (hq | ⟨child, hchild, hany⟩))
      · exact .inl (.inl hp)
      · exact .inr ⟨child, hchild, by rw [ih child hchild, hany, Bool.true_or]⟩
      · exact .inl (.inr hq)
      · exact .inr ⟨child, hchild, by rw [ih child hchild, hany, Bool.or_true]⟩

theorem any_mono {p q : Input → Bool} (himplies : ∀ value, q value = true → p value = true)
    {value : Input} (hnone : value.any p = false) : value.any q = false := by
  induction value using ind with
  | step value ih =>
    rw [any_eq_false_iff] at hnone ⊢
    refine ⟨?_, fun child hchild => ih child hchild (hnone.2 child hchild)⟩
    by_contra hholds
    rw [himplies value ((Bool.not_eq_false _).mp hholds)] at hnone
    cases hnone.1

theorem isReserved_model (fields : List (String × Input)) :
    (Input.model fields).isReserved = (Input.dict fields).isReserved := by
  match fields with
  | [] | [_] | _ :: _ :: _ => rfl

/-- A marker is an object with a reserved key alone. -/
theorem isReserved_of_isMarker {value : Input} (hmarker : value.isMarker = true) :
    value.isReserved = true := by
  match value with
  | .dict [(key, payload)] =>
    have hkeys : ∀ reserved, (Input.dict [(key, payload)]).singleKeyMarker reserved ≠ none →
        key = reserved := by
      intro reserved hsome
      by_contra hne
      exact hsome (if_neg hne)
    rw [isMarker, Bool.or_eq_true, Bool.or_eq_true, Bool.or_eq_true] at hmarker
    rw [isReserved, decide_eq_true_eq, reservedKeys]
    rcases hmarker with ((href | htransform) | hsecret) | hstack
    · obtain rfl := hkeys refKey fun hnone => by
        rw [isRefMarker, refFromMarker, hnone] at href
        cases href
      exact List.mem_cons_self ..
    · obtain rfl := hkeys transformKey fun hnone => by
        rw [isTransformMarker, hnone] at htransform
        cases htransform
      simp
    · obtain rfl := hkeys secretRefKey fun hnone => by
        rw [isSecretRefMarker, hnone] at hsecret
        cases hsecret
      simp
    · obtain rfl := hkeys stackOutputKey fun hnone => by
        rw [isStackOutputMarker, hnone] at hstack
        cases hstack
      simp
  | .dict [] | .dict (_ :: _ :: _) => cases hmarker
  | .null | .bool _ | .int _ | .float _ | .str _ | .list _ | .model _ | .ref _ | .secretRef _
  | .stackOutputRef _ _ | .transform _ _ | .rendered _ => cases hmarker

/-- A settled output holds no handle in any form. -/
theorem isTainted_ofValue {value : Value} (hconcrete : Concrete value) :
    (ofValue value).isTainted = false := by
  rw [isTainted, any_or, any_ofValue_eq_false (fun v => by cases v <;> rfl), Bool.false_or]
  exact any_mono (fun _ => isReserved_of_isMarker) hconcrete

theorem isTainted_eq_false_iff {value : Input} : value.isTainted = false ↔
    (value.isHandle || value.isRendered || value.isMarker) = false ∧
      ∀ child ∈ value.children, child.isTainted = false := any_eq_false_iff

section

variable {rendering : Rendering} {outputs : LiveOutputs} {strict : Bool}

/-- A field resolution can read through: nothing in it is a secret, a stack output, an unread marker
or printed. -/
def isReadable (value : Input) : Bool :=
  !value.any fun v => v.isSecretRef || v.isStackOutputRef || v.isUnread || v.isRendered

theorem isReadable_iff {value : Input} : value.isReadable = true ↔
    (value.isSecretRef || value.isStackOutputRef || value.isUnread || value.isRendered) = false ∧
      ∀ child ∈ value.children, child.isReadable = true := by
  rw [isReadable, Bool.not_eq_true', any_eq_false_iff]
  refine and_congr_right fun _ => forall₂_congr fun child _ => ?_
  rw [isReadable, Bool.not_eq_true']

/-- Operands without handles are used without any. -/
theorem used_holdsHandle {op : String} {operands : List Input}
    (hoperands : ∀ operand ∈ operands, operand.holdsHandle = false) :
    (operandsUsed rendering op operands).any holdsHandle = false := by
  rw [List.any_eq_false]
  intro operand hmem
  rw [Bool.not_eq_true]
  unfold operandsUsed at hmem
  split at hmem
  next template args =>
    rcases List.mem_cons.mp hmem with rfl | hmem
    · exact hoperands _ (List.mem_cons_self ..)
    · obtain ⟨index, -, hget⟩ := List.mem_filterMap.mp hmem
      exact hoperands _ (List.mem_cons_of_mem _ (List.mem_of_getElem? hget))
  next separator parts rest =>
    rcases List.mem_cons.mp hmem with rfl | hmem
    · exact hoperands _ (List.mem_cons_self ..)
    · have hparts := hoperands (.list parts) (by simp)
      exact (any_eq_false_iff.mp hparts).2 operand hmem
  next separator fields rest =>
    rcases List.mem_cons.mp hmem with rfl | hmem
    · exact hoperands _ (List.mem_cons_self ..)
    · obtain ⟨entry, -, rfl⟩ := List.mem_map.mp hmem
      rfl
  next => exact hoperands _ hmem

theorem evalTransform_untainted {op : String} {operands : List Input} {image : Input}
    (hoperands : ∀ operand ∈ operands, operand.isTainted = false)
    (hok : evalTransform rendering op operands = .ok image) : image.isTainted = false := by
  have hholds : ∀ operand ∈ operands, operand.holdsHandle = false := by
    intro operand hmem
    have huntainted := hoperands operand hmem
    rw [isTainted, any_or, Bool.or_eq_false_iff] at huntainted
    exact huntainted.1
  obtain ⟨text, -, hmade⟩ := bind_eq_ok hok
  rw [used_holdsHandle hholds] at hmade
  cases hmade
  rfl

theorem lookup_untainted (hsettled : ∀ (node : String) (found : Dict String Value) (name : String)
      (value : Value), outputs[node]? = some found → found[name]? = some value → Concrete value)
    {found : Ref} {image : Input} (hok : lookup outputs true found = .ok image) :
    image.isTainted = false := by
  rw [lookup] at hok
  cases hnode : outputs[found.nodeId]? with
  | none =>
    rw [hnode] at hok
    cases hok
  | some table =>
    rw [hnode] at hok
    dsimp only [Option.bind] at hok
    cases hvalue : table[found.attr]? with
    | none =>
      rw [hvalue] at hok
      cases hok
    | some value =>
      rw [hvalue] at hok
      cases hok
      exact isTainted_ofValue (hsettled _ _ _ _ hnode hvalue)

/-- An object none of whose fields is tainted is itself untainted, unless its one key is reserved. -/
theorem isTainted_dict {fields : List (String × Input)}
    (hfields : ∀ entry ∈ fields, entry.2.isTainted = false)
    (hreserved : (Input.dict fields).isReserved = false) : (Input.dict fields).isTainted = false := by
  rw [isTainted_eq_false_iff]
  refine ⟨?_, ?_⟩
  · rw [Bool.or_eq_false_iff]
    refine ⟨rfl, ?_⟩
    by_contra hmarker
    rw [isReserved_of_isMarker ((Bool.not_eq_false _).mp hmarker)] at hreserved
    cases hreserved
  · rintro child hchild
    obtain ⟨entry, hentry, rfl⟩ := List.mem_map.mp hchild
    exact hfields entry hentry

theorem resolveFields_untainted {fields : List (String × Input)} {image : Input}
    (hchildren : ∀ child ∈ fields.map Prod.snd, ∀ image,
      resolve rendering outputs strict child = .ok image → image.isTainted = false)
    (hreserved : (Input.dict fields).isReserved = false)
    (hok : (resolveFields rendering outputs strict fields).map .dict = .ok image) :
    image.isTainted = false := by
  obtain ⟨found, hfound, rfl⟩ := map_eq_ok hok
  have hall := resolveFields_eq_ok.mp hfound
  refine isTainted_dict ?_ ?_
  · intro entry hentry
    obtain ⟨source, hsource, -, himage⟩ := exists_of_forall₂ hall.flip entry hentry
    exact hchildren source.2 (List.mem_map_of_mem hsource) _ himage
  · match fields, found, hall with
    | [], _, .nil => rfl
    | [(_, _)], [(_, _)], .cons ⟨hname, _⟩ .nil =>
      dsimp only at hname
      subst hname
      exact hreserved
    | _ :: _ :: _, _ :: _ :: _, _ => rfl

theorem resolveItems_untainted {items found : List Input}
    (hchildren : ∀ child ∈ items, ∀ image,
      resolve rendering outputs strict child = .ok image → image.isTainted = false)
    (hok : resolveItems rendering outputs strict items = .ok found) :
    ∀ image ∈ found, image.isTainted = false := by
  intro image hmem
  obtain ⟨source, hsource, himage⟩ := exists_of_forall₂ (resolveItems_eq_ok.mp hok).flip image hmem
  exact hchildren source hsource image himage

/-- What a readable value resolves to is untainted, and so are the operands it gives a transform. -/
theorem resolve_untainted (hsettled : ∀ (node : String) (found : Dict String Value) (name : String)
      (value : Value), outputs[node]? = some found → found[name]? = some value → Concrete value)
    {value : Input} (hreadable : value.isReadable = true) :
    (∀ image, resolve rendering outputs true value = .ok image → image.isTainted = false) ∧
    (∀ fields operands, value = .dict fields →
      resolveOperands rendering outputs true fields = .ok operands →
      ∀ operand ∈ operands, operand.isTainted = false) ∧
    ∀ operands, resolveArgs rendering outputs true value = .ok operands →
      ∀ operand ∈ operands, operand.isTainted = false := by
  induction value using ind with
  | step value ih =>
    obtain ⟨hself, hchildren⟩ := isReadable_iff.mp hreadable
    have hresolved : ∀ child ∈ value.children, ∀ image,
        resolve rendering outputs true child = .ok image → image.isTainted = false :=
      fun child hchild => (ih child hchild (hchildren child hchild)).1
    refine ⟨?_, ?_, ?_⟩
    · intro image hok
      cases value with
      | list items =>
        rw [resolve] at hok
        obtain ⟨found, hfound, rfl⟩ := map_eq_ok hok
        rw [isTainted_eq_false_iff]
        exact ⟨rfl, resolveItems_untainted hresolved hfound⟩
      | dict fields =>
        cases href : (Input.dict fields).refFromMarker with
        | some found =>
          rw [resolve, href] at hok
          exact lookup_untainted hsettled hok
        | none =>
          cases htransform : (Input.dict fields).isTransformMarker with
          | true =>
            rw [resolve, href] at hok
            dsimp only at hok
            rw [if_pos htransform] at hok
            obtain ⟨key, body, rest, rfl⟩ := exists_body_of_resolveMarker hok
            rw [resolveMarker] at hok
            obtain ⟨operands, hoperands, hmade⟩ := bind_eq_ok hok
            split at hmade
            next op _ =>
              refine evalTransform_untainted ?_ hmade
              have hbody : Input.dict body ∈
                  (Input.dict ((key, Input.dict body) :: rest)).children := List.mem_cons_self ..
              exact (ih _ hbody (hchildren _ hbody)).2.1 body operands rfl hoperands
            next => cases hmade
          | false =>
            rw [resolve_dict href htransform] at hok
            refine resolveFields_untainted hresolved ?_ hok
            have hunread := (Bool.or_eq_false_iff.mp (Bool.or_eq_false_iff.mp hself).1).2
            rw [isUnread, isRefMarker, href, htransform] at hunread
            simpa using hunread
      | model fields =>
        rw [resolve] at hok
        refine resolveFields_untainted hresolved ?_ hok
        have hreserved : (Input.dict fields).isReserved = false := by
          rw [← isReserved_model]
          have hunread := (Bool.or_eq_false_iff.mp (Bool.or_eq_false_iff.mp hself).1).2
          have hlive : (Input.model fields).isRefMarker = false ∧
              (Input.model fields).isTransformMarker = false := ⟨rfl, rfl⟩
          rw [isUnread, hlive.1, hlive.2] at hunread
          simpa using hunread
        exact hreserved
      | ref found =>
        rw [resolve] at hok
        exact lookup_untainted hsettled hok
      | transform op args =>
        rw [resolve] at hok
        obtain ⟨operands, hoperands, hmade⟩ := bind_eq_ok hok
        exact evalTransform_untainted (resolveItems_untainted hresolved hoperands) hmade
      | secretRef _ | stackOutputRef _ _ | rendered _ => cases hself
      | null | bool _ | int _ | float _ | str _ =>
        cases hok
        rfl
    · intro fields operands hvalue hok
      subst hvalue
      have hfields : ∀ entry ∈ fields, ∀ operands,
          resolveArgs rendering outputs true entry.2 = .ok operands →
          ∀ operand ∈ operands, operand.isTainted = false := by
        intro entry hentry
        have hchild := List.mem_map_of_mem (f := Prod.snd) hentry
        exact (ih entry.2 hchild (hchildren entry.2 hchild)).2.2
      clear ih hreadable hself hchildren hresolved
      induction fields with
      | nil => cases hok
      | cons entry fields ihfields =>
        obtain ⟨name, value⟩ := entry
        rw [resolveOperands] at hok
        split at hok
        next => exact hfields (name, value) (List.mem_cons_self ..) operands hok
        next =>
          exact ihfields hok fun entry hentry => hfields entry (List.mem_cons_of_mem _ hentry)
    · intro operands hok operand hmem
      cases value with
      | list items =>
        rw [resolveArgs] at hok
        exact resolveItems_untainted hresolved hok operand hmem
      | str text =>
        cases hok
        obtain ⟨c, -, rfl⟩ := List.mem_map.mp hmem
        rfl
      | dict fields =>
        cases hok
        obtain ⟨entry, -, rfl⟩ := List.mem_map.mp hmem
        rfl
      | _ => cases hok

end

/-! ## Stack outputs in place -/

section

variable {stackOutputs : Dict String Value}

theorem substituteItems_eq (items : List Input) : substituteItems stackOutputs items =
    (items.map fun item => (substitute stackOutputs item).1,
      items.flatMap fun item => (substitute stackOutputs item).2) := by
  induction items with
  | nil => rfl
  | cons item items ih => rw [substituteItems, ih, List.map_cons, List.flatMap_cons]

theorem substituteFields_eq (fields : List (String × Input)) : substituteFields stackOutputs fields =
    (fields.map fun entry => (entry.1, (substitute stackOutputs entry.2).1),
      fields.flatMap fun entry => (substitute stackOutputs entry.2).2) := by
  induction fields with
  | nil => rfl
  | cons entry fields ih =>
    obtain ⟨name, value⟩ := entry
    rw [substituteFields, ih, List.map_cons, List.flatMap_cons]

/-- The outputs a value names are there exactly if those its children name are. -/
theorem substitute_children {value : Input} (hfound : (substitute stackOutputs value).2 = []) :
    ∀ child ∈ value.children, (substitute stackOutputs child).2 = [] := by
  cases value with
  | list items =>
    rw [substitute, substituteItems_eq] at hfound
    exact List.flatMap_eq_nil_iff.mp hfound
  | transform op args =>
    rw [substitute, substituteItems_eq] at hfound
    exact List.flatMap_eq_nil_iff.mp hfound
  | dict fields | model fields =>
    rw [substitute, substituteFields_eq] at hfound
    intro child hchild
    obtain ⟨entry, hentry, rfl⟩ := List.mem_map.mp hchild
    exact List.flatMap_eq_nil_iff.mp hfound entry hentry
  | _ => exact List.forall_mem_nil _

theorem lookup_map_isSome (image : Input → Input) (key : String) (fields : List (String × Input)) :
    ((fields.map fun entry => (entry.1, image entry.2)).lookup key).isSome =
      (fields.lookup key).isSome := by
  induction fields with
  | nil => rfl
  | cons entry fields ih =>
    rw [List.map_cons, List.lookup_cons, List.lookup_cons]
    split
    next => rfl
    next => exact ih

/-- An object resolution can read, or without a reserved key, still is one with its stack outputs in
place. -/
theorem isUnread_substitute {fields : List (String × Input)}
    (hread : (Input.dict fields).isUnread = false) :
    (substitute stackOutputs (.dict fields)).1.isUnread = false := by
  rw [substitute, substituteFields_eq]
  match fields with
  | [] | _ :: _ :: _ => rfl
  | [(key, payload)] =>
    rw [isUnread, Bool.and_eq_false_iff, Bool.and_eq_false_iff, Bool.not_eq_false',
      Bool.not_eq_false'] at hread
    rcases hread with (hreserved | href) | htransform
    · have hsame : (Input.dict [(key, (substitute stackOutputs payload).1)]).isReserved = false :=
        hreserved
      simp only [List.map_cons, List.map_nil, isUnread, hsame, Bool.false_and]
    · have hpayload : ∃ target, payload = .str target := by
        rw [isRefMarker, refFromMarker, singleKeyMarker] at href
        split at href
        next target hmarker =>
          split at hmarker
          next => exact ⟨target, Option.some.inj hmarker⟩
          next => cases hmarker
        next => cases href
      obtain ⟨target, rfl⟩ := hpayload
      simp only [List.map_cons, List.map_nil, substitute, isUnread, href, Bool.not_true,
        Bool.and_false, Bool.false_and]
    · have hstill : (Input.dict [(key, (substitute stackOutputs payload).1)]).isTransformMarker =
          true := by
        rw [isTransformMarker, singleKeyMarker] at htransform ⊢
        by_cases hkey : key = transformKey
        · rw [if_pos hkey] at htransform ⊢
          cases payload with
          | dict body =>
            dsimp only [field] at htransform
            rw [substitute, substituteFields_eq]
            dsimp only [field]
            let image (value : Input) := (substitute stackOutputs value).1
            rw [lookup_map_isSome image, lookup_map_isSome image]
            exact htransform
          | _ => cases htransform
        · rw [if_neg hkey] at htransform
          cases htransform
      simp only [List.map_cons, List.map_nil, isUnread, hstill, Bool.not_true, Bool.and_false]

theorem isReadable_ofValue {value : Value} (hconcrete : Concrete value) :
    (ofValue value).isReadable = true := by
  rw [isReadable, Bool.not_eq_true', any_or, any_or, any_or,
    any_ofValue_eq_false (fun v => by cases v <;> rfl),
    any_ofValue_eq_false (fun v => by cases v <;> rfl)]
  have hread : (ofValue value).any isUnread = false := by
    refine any_mono (fun v hunread => ?_) hconcrete
    rw [isUnread, Bool.and_eq_true, Bool.and_eq_true] at hunread
    exact hunread.1.1
  have hprinted : (ofValue value).any isRendered = false :=
    any_ofValue_eq_false (fun v => by cases v <;> rfl) value
  rw [hread, hprinted]
  rfl

/-- With its stack outputs in place a field without secrets, unread markers or printed handles is
one resolution can read through. -/
theorem isReadable_substitute (hsettled : ∀ (key : String) (value : Value),
      stackOutputs[key]? = some value → Concrete value) {value : Input}
    (hvalue : value.any (fun v => v.isSecretRef || v.isUnread || v.isRendered) = false)
    (hfound : (substitute stackOutputs value).2 = []) :
    (substitute stackOutputs value).1.isReadable = true := by
  induction value using ind with
  | step value ih =>
    rw [any_eq_false_iff] at hvalue
    have hchild : ∀ child ∈ value.children, (substitute stackOutputs child).1.isReadable = true :=
      fun child hmem => ih child hmem (hvalue.2 child hmem) (substitute_children hfound child hmem)
    have hfields : ∀ fields : List (String × Input), fields.map Prod.snd = value.children →
        ∀ child ∈ (fields.map fun entry => (entry.1, (substitute stackOutputs entry.2).1)).map
          Prod.snd, child.isReadable = true := by
      intro fields hsame child hmem
      obtain ⟨pair, hpair, rfl⟩ := List.mem_map.mp hmem
      obtain ⟨entry, hentry, rfl⟩ := List.mem_map.mp hpair
      exact hchild entry.2 (hsame ▸ List.mem_map_of_mem hentry)
    cases value with
    | list items =>
      rw [substitute, substituteItems_eq, isReadable_iff]
      refine ⟨rfl, fun child hmem => ?_⟩
      obtain ⟨item, hitem, rfl⟩ := List.mem_map.mp hmem
      exact hchild item hitem
    | transform op args =>
      rw [substitute, substituteItems_eq, isReadable_iff]
      refine ⟨rfl, fun child hmem => ?_⟩
      obtain ⟨item, hitem, rfl⟩ := List.mem_map.mp hmem
      exact hchild item hitem
    | dict fields =>
      rw [isReadable_iff]
      have hunread : (Input.dict fields).isUnread = false :=
        (Bool.or_eq_false_iff.mp (Bool.or_eq_false_iff.mp hvalue.1).1).2
      have hstill : (substitute stackOutputs (.dict fields)).1.isUnread = false :=
        isUnread_substitute hunread
      rw [substitute, substituteFields_eq] at hstill ⊢
      refine ⟨?_, hfields fields rfl⟩
      dsimp only at hstill ⊢
      rw [hstill]
      rfl
    | model fields =>
      rw [isReadable_iff, substitute, substituteFields_eq]
      refine ⟨?_, hfields fields rfl⟩
      have hunread : (Input.model fields).isUnread = false :=
        (Bool.or_eq_false_iff.mp (Bool.or_eq_false_iff.mp hvalue.1).1).2
      have hreserved : (Input.dict (fields.map fun entry =>
          (entry.1, (substitute stackOutputs entry.2).1))).isReserved = false := by
        have hlive : (Input.model fields).isRefMarker = false ∧
            (Input.model fields).isTransformMarker = false := ⟨rfl, rfl⟩
        rw [isUnread, hlive.1, hlive.2] at hunread
        match fields, hunread with
        | [], _ | _ :: _ :: _, _ => rfl
        | [(key, payload)], hunread => simpa [isReserved] using hunread
      rw [isUnread, hreserved]
      rfl
    | stackOutputRef stack name =>
      rw [substitute] at hfound ⊢
      cases hkey : stackOutputs[stack ++ ":" ++ name]? with
      | none =>
        rw [hkey] at hfound
        cases hfound
      | some value => exact isReadable_ofValue (hsettled _ _ hkey)
    | ref _ => rfl
    | secretRef _ | rendered _ => cases hvalue.1
    | null | bool _ | int _ | float _ | str _ => rfl

end

/-! ## A field on its way to the provider -/

/-- One field as the three resolvers leave it. -/
def resolveField (env : HandleEnv) (value : Input) : Except Fault Input := do
  let stacked ← resolveStackRef env.rendering env.stackOutputs true value
  let referred ← resolveRef env.rendering env.outputs stacked
  resolveSecretRef env.secrets referred

/-- What nothing is left to resolve in, and nothing of what resolution does not read, is untainted. -/
theorem untainted_of_done {value : Input} (hreadable : value.isReadable = true)
    (hneeds : value.needsResolution = false) (htransform : value.any isTransform = false) :
    value.isTainted = false := by
  rw [isReadable, Bool.not_eq_true'] at hreadable
  have hall : value.any (fun v => (v.isSecretRef || v.isStackOutputRef || v.isUnread ||
      v.isRendered) || ((v.isRef || v.isRefMarker || v.isTransformMarker) || v.isTransform)) =
      false := by
    rw [any_or, hreadable, any_or, htransform, ← needsResolution, hneeds]
    rfl
  refine any_mono (fun v hv => ?_) hall
  rw [Bool.or_eq_true, Bool.or_eq_true] at hv
  rcases hv with (hhandle | hprinted) | hmarker
  · rw [isHandle, Bool.or_eq_true, Bool.or_eq_true, Bool.or_eq_true] at hhandle
    rcases hhandle with ((href | hsecret) | hstack) | htransform
    · simp [href]
    · simp [hsecret]
    · simp [hstack]
    · simp [htransform]
  · simp [hprinted]
  · have hreserved := isReserved_of_isMarker hmarker
    cases href : v.isRefMarker
    · cases htransform : v.isTransformMarker
      · simp [isUnread, hreserved, href, htransform]
      · simp
    · simp

theorem untainted_needsResolution {value : Input} (huntainted : value.isTainted = false) :
    value.needsResolution = false := by
  refine any_mono (fun v hv => ?_) huntainted
  rw [Bool.or_eq_true, Bool.or_eq_true] at hv
  rcases hv with (href | hmarker) | hmarker
  · simp [isHandle, href]
  · simp [isMarker, hmarker]
  · simp [isMarker, hmarker]

theorem resolveSecretRef_untainted {secrets : SecretRef → Except Fault String} {value image : Input}
    (huntainted : value.isTainted = false) (hok : resolveSecretRef secrets value = .ok image) :
    image.isTainted = false := by
  cases value with
  | secretRef found => cases huntainted
  | _ =>
    cases hok
    exact huntainted

/-- A covered field reaches the provider without a handle, a marker or a printed handle. -/
theorem resolveField_untainted {env : HandleEnv} (hsettled : env.Settled) {value image : Input}
    (hcovered : value.isCovered = true) (hok : resolveField env value = .ok image) :
    image.isTainted = false := by
  obtain ⟨stacked, hstacked, hok⟩ := bind_eq_ok hok
  obtain ⟨referred, hreferred, hopened⟩ := bind_eq_ok hok
  by_cases hsecret : value.isSecretRef = true
  · cases value with
    | secretRef found =>
      cases hstacked
      cases hreferred
      obtain ⟨text, -, rfl⟩ := map_eq_ok hopened
      rfl
    | _ => cases hsecret
  rw [isCovered, Bool.or_eq_true, or_iff_right hsecret, Bool.and_eq_true, Bool.and_eq_true,
    Bool.and_eq_true, Bool.not_eq_true', Bool.not_eq_true', Bool.not_eq_true'] at hcovered
  obtain ⟨⟨⟨hnosecret, htransform⟩, hread⟩, hprinted⟩ := hcovered
  have hvalue : value.any (fun v => v.isSecretRef || v.isUnread || v.isRendered) = false := by
    rw [any_or, any_or, hnosecret, hread, hprinted]
    rfl
  refine resolveSecretRef_untainted ?_ hopened
  have hresolve : ∀ {v : Input}, v.isReadable = true → v.needsResolution = true →
      resolveRef env.rendering env.outputs v = .ok referred → referred.isTainted = false := by
    intro v hreadable hneeds hok
    rw [resolveRef, if_pos hneeds] at hok
    exact (resolve_untainted hsettled.outputs hreadable).1 referred hok
  have hkept : ∀ {v : Input}, v.isTainted = false →
      resolveRef env.rendering env.outputs v = .ok referred → referred.isTainted = false := by
    intro v huntainted hok
    rw [resolveRef, untainted_needsResolution huntainted] at hok
    cases hok
    exact huntainted
  rw [resolveStackRef] at hstacked
  cases hstack : value.any isStackOutputRef with
  | false =>
    rw [hstack] at hstacked
    cases hstacked
    have hreadable : value.isReadable = true := by
      rw [isReadable, Bool.not_eq_true', any_or, any_or, any_or, hnosecret, hstack, hread, hprinted]
      rfl
    cases hneeds : value.needsResolution with
    | true => exact hresolve hreadable hneeds hreferred
    | false =>
      rw [isEvaluated, hstack, hneeds] at htransform
      have hnone : value.any isTransform = false := by simpa using htransform
      exact hkept (untainted_of_done hreadable hneeds hnone) hreferred
  | true =>
    rw [hstack] at hstacked
    have hplaced := isReadable_substitute hsettled.stackOutputs hvalue
    generalize substitute env.stackOutputs value = substituted at hstacked hplaced
    obtain ⟨placed, missing⟩ := substituted
    cases missing with
    | cons key missing => cases hstacked
    | nil =>
      have hreadable := hplaced rfl
      change (if placed.needsResolution || !placed.any isTransform then .ok placed
        else resolve env.rendering ∅ true placed) = _ at hstacked
      cases hneeds : placed.needsResolution with
      | true =>
        rw [hneeds, Bool.true_or, if_pos rfl] at hstacked
        cases hstacked
        exact hresolve hreadable hneeds hreferred
      | false =>
        cases hnone : placed.any isTransform with
        | false =>
          rw [hneeds, hnone] at hstacked
          cases hstacked
          exact hkept (untainted_of_done hreadable hneeds hnone) hreferred
        | true =>
          rw [hneeds, hnone] at hstacked
          refine hkept ((resolve_untainted ?_ hreadable).1 stacked hstacked) hreferred
          intro node found name value hnode
          rw [Std.ExtTreeMap.getElem?_empty] at hnode
          cases hnode

/-! ## A handle nothing replaces -/

/-- Whether the operation prints every operand that may hold a handle. -/
def printsOperands (rendering : Rendering) : String → List Input → Bool
  | "interpolate", .str template :: args =>
    (List.range args.length).all (· ∈ rendering.placeholders (rendering.text (.str template)))
  | "interpolate", _ => false
  | "join", [_, .list _] => true
  | "join", _ => false
  | _, _ => true

/-- Whether a secret in the operands of the value, if it is a transform, would not be printed. -/
def hidesSecret (rendering : Rendering) (value : Input) : Bool :=
  match value with
  | transform op args => args.any (·.any isSecretRef) && !printsOperands rendering op args
  | value => value.isTransformMarker && value.any isSecretRef

/-- A field as config writes it: reserved keys only in the markers resolution reads, and no secret
where an operation drops it. -/
def isOrdinary (rendering : Rendering) (value : Input) : Bool :=
  !value.any fun v => v.isUnread || v.isRendered || v.hidesSecret rendering

theorem isOrdinary_iff {rendering : Rendering} {value : Input} :
    value.isOrdinary rendering = true ↔
      (value.isUnread || value.isRendered || value.hidesSecret rendering) = false ∧
        ∀ child ∈ value.children, child.isOrdinary rendering = true := by
  rw [isOrdinary, Bool.not_eq_true', any_eq_false_iff]
  refine and_congr_right fun _ => forall₂_congr fun child _ => ?_
  rw [isOrdinary, Bool.not_eq_true']

theorem holdsHandle_of_child {value child : Input} (hmem : child ∈ value.children)
    (hholds : child.holdsHandle = true) : value.holdsHandle = true := by
  rw [holdsHandle, any_eq, Bool.or_eq_true]
  exact .inr (List.any_eq_true.mpr ⟨child, hmem, hholds⟩)

section

variable {rendering : Rendering} {outputs : LiveOutputs} {strict : Bool}

/-- Operands all of which are printed make a printed handle of any handle they hold. -/
theorem used_of_prints {op : String} {args operands : List Input}
    (hprints : printsOperands rendering op args = true)
    (hoperands : List.Forall₂ (fun arg operand =>
      resolve rendering outputs strict arg = .ok operand) args operands)
    {arg operand : Input} (hpair : ∃ index : Nat, args[index]? = some arg ∧
      operands[index]? = some operand) (hsecret : arg.any isSecretRef = true)
    (hholds : operand.holdsHandle = true) :
    (operandsUsed rendering op operands).any holdsHandle = true := by
  obtain ⟨index, harg, hoperand⟩ := hpair
  rw [List.any_eq_true]
  unfold printsOperands at hprints
  split at hprints
  next template rest =>
    cases hoperands with
    | cons hfirst hrest =>
      cases hfirst
      cases index with
      | zero =>
        cases harg
        cases hsecret
      | succ index =>
        rw [List.getElem?_cons_succ] at harg hoperand
        refine ⟨operand, List.mem_cons_of_mem _ (List.mem_filterMap.mpr ⟨index, ?_, hoperand⟩), hholds⟩
        have hlength : index < rest.length := (List.getElem?_eq_some_iff.mp harg).1
        exact of_decide_eq_true (List.all_eq_true.mp hprints index (List.mem_range.mpr hlength))
  next => cases hprints
  next separator parts =>
    obtain _ | ⟨-, _ | ⟨hsecond, ⟨⟩⟩⟩ := hoperands
    rw [resolve] at hsecond
    obtain ⟨found, -, rfl⟩ := map_eq_ok hsecond
    rcases index with _ | _ | index
    · cases hoperand
      exact ⟨operand, List.mem_cons_self .., hholds⟩
    · cases hoperand
      rw [holdsHandle, any_eq] at hholds
      obtain ⟨part, hpart, hheld⟩ := List.any_eq_true.mp hholds
      exact ⟨part, List.mem_cons_of_mem _ hpart, hheld⟩
    · cases hoperand
  next => cases hprints
  next hinterpolate hjoin _ _ =>
    have hall : operandsUsed rendering op operands = operands := by
      unfold operandsUsed
      split
      next => exact (hinterpolate rfl).elim
      next => exact (hjoin rfl).elim
      next => exact (hjoin rfl).elim
      next => rfl
    rw [hall]
    exact ⟨operand, List.mem_of_getElem? hoperand, hholds⟩

/-- A secret resolution comes across stays, or is printed. -/
theorem resolve_holdsHandle {value image : Input} (hordinary : value.isOrdinary rendering = true)
    (hsecret : value.any isSecretRef = true)
    (hok : resolve rendering outputs strict value = .ok image) : image.holdsHandle = true := by
  induction value using ind generalizing image with
  | step value ih =>
    obtain ⟨hself, hchildren⟩ := isOrdinary_iff.mp hordinary
    have hhides := (Bool.or_eq_false_iff.mp hself).2
    have hholds : ∀ child ∈ value.children, child.any isSecretRef = true → ∀ image,
        resolve rendering outputs strict child = .ok image → image.holdsHandle = true :=
      fun child hmem hsecret image => ih child hmem (hchildren child hmem) hsecret
    have hfields : ∀ fields : List (String × Input), fields.map Prod.snd = value.children →
        value.children.any (·.any isSecretRef) = true →
        (resolveFields rendering outputs strict fields).map .dict = .ok image →
        image.holdsHandle = true := by
      intro fields hsame hany hok
      obtain ⟨child, hmem, hsecret⟩ := List.any_eq_true.mp hany
      obtain ⟨found, hfound, rfl⟩ := map_eq_ok hok
      rw [← hsame] at hmem
      obtain ⟨entry, hentry, rfl⟩ := List.mem_map.mp hmem
      obtain ⟨target, htarget, -, himage⟩ :=
        exists_of_forall₂ (resolveFields_eq_ok.mp hfound) entry hentry
      exact holdsHandle_of_child (List.mem_map_of_mem htarget)
        (hholds entry.2 (hsame ▸ hmem) hsecret _ himage)
    rw [any_eq, Bool.or_eq_true] at hsecret
    cases value with
    | list items =>
      obtain ⟨child, hmem, hsecret⟩ := List.any_eq_true.mp (hsecret.resolve_left Bool.false_ne_true)
      rw [resolve] at hok
      obtain ⟨found, hfound, rfl⟩ := map_eq_ok hok
      obtain ⟨target, htarget, himage⟩ :=
        exists_of_forall₂ (resolveItems_eq_ok.mp hfound) child hmem
      exact holdsHandle_of_child htarget (hholds child hmem hsecret _ himage)
    | dict fields =>
      have hany := hsecret.resolve_left Bool.false_ne_true
      cases href : (Input.dict fields).refFromMarker with
      | some found =>
        exfalso
        rcases fields with _ | ⟨⟨key, value⟩, _ | ⟨second, rest⟩⟩
        · simp [refFromMarker, singleKeyMarker] at href
        · cases value with
          | str target => cases hany
          | _ => simp [refFromMarker, singleKeyMarker] at href
        · simp [refFromMarker, singleKeyMarker] at href
      | none =>
        have hmarker : (Input.dict fields).isTransformMarker = false := by
          by_contra hmarker
          have hhidden : hidesSecret rendering (.dict fields) =
              ((Input.dict fields).isTransformMarker && (Input.dict fields).any isSecretRef) := rfl
          rw [hhidden, (Bool.not_eq_false _).mp hmarker, any_eq, hany, Bool.or_true] at hhides
          cases hhides
        rw [resolve_dict href hmarker] at hok
        exact hfields fields rfl hany hok
    | model fields =>
      rw [resolve] at hok
      exact hfields fields rfl (hsecret.resolve_left Bool.false_ne_true) hok
    | transform op args =>
      have hany := hsecret.resolve_left Bool.false_ne_true
      obtain ⟨child, hmem, hsecret⟩ := List.any_eq_true.mp hany
      rw [resolve] at hok
      obtain ⟨operands, hoperands, hmade⟩ := bind_eq_ok hok
      have hall := resolveItems_eq_ok.mp hoperands
      obtain ⟨operand, index, harg, hoperand, himage⟩ := getElem?_of_forall₂ hall hmem
      have hprints : printsOperands rendering op args = true := by
        rw [hidesSecret] at hhides
        change (args.any (·.any isSecretRef) && !printsOperands rendering op args) = false at hhides
        change args.any (·.any isSecretRef) = true at hany
        rw [hany, Bool.true_and, Bool.not_eq_false'] at hhides
        exact hhides
      have hused := used_of_prints hprints hall ⟨index, harg, hoperand⟩ hsecret
        (hholds child hmem hsecret operand himage)
      obtain ⟨text, -, hmade⟩ := bind_eq_ok hmade
      rw [hused] at hmade
      cases hmade
      rfl
    | secretRef found =>
      cases hok
      rfl
    | _ => rcases hsecret with hsecret | hsecret <;> cases hsecret

end

section

variable {rendering : Rendering} {stackOutputs : Dict String Value}

theorem children_substitute {value : Input} (hvalue : value.isStackOutputRef = false) :
    (substitute stackOutputs value).1.children =
      value.children.map fun child => (substitute stackOutputs child).1 := by
  cases value with
  | list items => rw [substitute, substituteItems_eq, children, children]
  | transform op args => rw [substitute, substituteItems_eq, children, children]
  | dict fields | model fields =>
    rw [substitute, substituteFields_eq, children, children, List.map_map, List.map_map]
    rfl
  | stackOutputRef stack name => cases hvalue
  | _ => rfl

/-- A secret is in a value exactly if it is there once the stack outputs are in place. -/
theorem any_isSecretRef_substitute (value : Input) :
    (substitute stackOutputs value).1.any isSecretRef = value.any isSecretRef := by
  induction value using ind with
  | step value ih =>
    by_cases hstack : value.isStackOutputRef = true
    · cases value with
      | stackOutputRef stack name =>
        rw [substitute]
        cases stackOutputs[stack ++ ":" ++ name]? with
        | none => rfl
        | some found => exact any_ofValue_eq_false (fun v => by cases v <;> rfl) found
      | _ => cases hstack
    · rw [any_eq, any_eq isSecretRef value, children_substitute (Bool.eq_false_iff.mpr hstack),
        List.any_map]
      have hself : (substitute stackOutputs value).1.isSecretRef = value.isSecretRef := by
        cases value with
        | stackOutputRef stack name => exact (hstack rfl).elim
        | _ => rfl
      have hchildren : value.children.any ((fun child => child.any isSecretRef) ∘
          fun child => (substitute stackOutputs child).1) =
          value.children.any (·.any isSecretRef) := by
        rw [Bool.eq_iff_iff, List.any_eq_true, List.any_eq_true]
        exact exists_congr fun child => and_congr_right fun hmem => by
          rw [Function.comp, ih child hmem]
      rw [hself, hchildren]

theorem printsOperands_substitute (op : String) (args : List Input)
    (hprints : printsOperands rendering op args = true) :
    printsOperands rendering op (args.map fun arg => (substitute stackOutputs arg).1) = true := by
  unfold printsOperands at hprints ⊢
  split at hprints
  next template rest => simpa [substitute] using hprints
  next => cases hprints
  next separator parts => simp [substitute]
  next => cases hprints
  next hinterpolate hjoin _ _ =>
    split
    next => exact (hinterpolate rfl).elim
    next => exact (hinterpolate rfl).elim
    next => rfl
    next => exact (hjoin rfl).elim
    next => rfl

theorem isOrdinary_ofValue {value : Value} (hconcrete : Concrete value) :
    (ofValue value).isOrdinary rendering = true := by
  rw [isOrdinary, Bool.not_eq_true']
  have hall : (ofValue value).any (fun v => v.isReserved || (v.isRendered || v.isTransform)) =
      false := by
    rw [any_or, hconcrete, any_ofValue_eq_false (fun v => by cases v <;> rfl)]
    rfl
  refine any_mono (fun v hv => ?_) hall
  rw [Bool.or_eq_true, Bool.or_eq_true] at hv
  rcases hv with (hunread | hprinted) | hhides
  · rw [isUnread, Bool.and_eq_true, Bool.and_eq_true] at hunread
    simp [hunread.1.1]
  · simp [hprinted]
  · cases v with
    | transform op args => simp [isTransform]
    | dict fields =>
      change ((Input.dict fields).isTransformMarker && _) = true at hhides
      rw [Bool.and_eq_true] at hhides
      have hreserved : (Input.dict fields).isReserved = true := by
        apply isReserved_of_isMarker
        rw [isMarker, hhides.1]
        simp
      rw [hreserved]
      rfl
    | _ => cases hhides

theorem isReserved_map (image : Input → Input) (fields : List (String × Input)) :
    (Input.dict (fields.map fun entry => (entry.1, image entry.2))).isReserved =
      (Input.dict fields).isReserved := by
  match fields with
  | [] | [_] | _ :: _ :: _ => rfl

/-- An object resolution can read that becomes a transform is one. -/
theorem isTransformMarker_of_image (image : Input → Input) {fields : List (String × Input)}
    (hread : (Input.dict fields).isUnread = false)
    (hmarker : (Input.dict (fields.map fun entry => (entry.1, image entry.2))).isTransformMarker =
      true) : (Input.dict fields).isTransformMarker = true := by
  have hreserved : (Input.dict (fields.map fun entry => (entry.1, image entry.2))).isReserved =
      true := by
    apply isReserved_of_isMarker
    rw [isMarker, hmarker]
    simp
  rw [isReserved_map] at hreserved
  rw [isUnread, hreserved, Bool.true_and, Bool.and_eq_false_iff, Bool.not_eq_false',
    Bool.not_eq_false'] at hread
  refine hread.resolve_left fun href => ?_
  match fields with
  | [(key, payload)] =>
    have htransform : key = transformKey := by
      by_contra hne
      rw [isTransformMarker, List.map_cons, List.map_nil, singleKeyMarker, if_neg hne] at hmarker
      cases hmarker
    subst htransform
    cases href
  | [] | _ :: _ :: _ => cases href

theorem isOrdinary_dict {fields : List (String × Input)}
    (hread : (Input.dict fields).isUnread = false)
    (hsecret : (Input.dict fields).isTransformMarker = true →
      (Input.dict fields).any isSecretRef = false) :
    ((Input.dict fields).isUnread || (Input.dict fields).isRendered ||
      (Input.dict fields).hidesSecret rendering) = false := by
  rw [hread]
  change ((Input.dict fields).isTransformMarker && (Input.dict fields).any isSecretRef) = false
  cases hmarker : (Input.dict fields).isTransformMarker with
  | false => rfl
  | true => rw [hsecret hmarker, Bool.and_false]

/-- An ordinary field still is one with its stack outputs in place. -/
theorem isOrdinary_substitute (hsettled : ∀ (key : String) (value : Value),
      stackOutputs[key]? = some value → Concrete value) {value : Input}
    (hordinary : value.isOrdinary rendering = true) :
    (substitute stackOutputs value).1.isOrdinary rendering = true := by
  induction value using ind with
  | step value ih =>
    obtain ⟨hself, hchildren⟩ := isOrdinary_iff.mp hordinary
    by_cases hstack : value.isStackOutputRef = true
    · cases value with
      | stackOutputRef stack name =>
        rw [substitute]
        cases hkey : stackOutputs[stack ++ ":" ++ name]? with
        | none => rfl
        | some found => exact isOrdinary_ofValue (hsettled _ _ hkey)
      | _ => cases hstack
    rw [isOrdinary_iff, children_substitute (Bool.eq_false_iff.mpr hstack)]
    refine ⟨?_, ?_⟩
    · obtain ⟨hunread, hhides⟩ := Bool.or_eq_false_iff.mp hself
      have hread := (Bool.or_eq_false_iff.mp hunread).1
      cases value with
      | transform op args =>
        rw [substitute, substituteItems_eq]
        change (args.any (·.any isSecretRef) && !printsOperands rendering op args) = false at hhides
        change ((args.map fun arg => (substitute stackOutputs arg).1).any (·.any isSecretRef) &&
          !printsOperands rendering op _) = false
        have hsecrets : (args.map fun arg => (substitute stackOutputs arg).1).any
            (·.any isSecretRef) = args.any (·.any isSecretRef) := by
          rw [List.any_map]
          congr 1
          funext arg
          exact any_isSecretRef_substitute arg
        rw [hsecrets]
        cases hany : args.any (·.any isSecretRef) with
        | false => rfl
        | true =>
          rw [hany, Bool.true_and, Bool.not_eq_false'] at hhides
          rw [printsOperands_substitute op args hhides]
          rfl
      | dict fields =>
        have hstill : (substitute stackOutputs (.dict fields)).1.isUnread = false :=
          isUnread_substitute hread
        have hsecret : (substitute stackOutputs (.dict fields)).1.any isSecretRef =
            (Input.dict fields).any isSecretRef := any_isSecretRef_substitute _
        rw [substitute, substituteFields_eq] at hstill hsecret ⊢
        refine isOrdinary_dict hstill fun hmarker => ?_
        rw [hsecret]
        have hsame : (Input.dict fields).isTransformMarker = true :=
          isTransformMarker_of_image (fun value => (substitute stackOutputs value).1) hread hmarker
        change ((Input.dict fields).isTransformMarker && (Input.dict fields).any isSecretRef) = false
          at hhides
        rwa [hsame, Bool.true_and] at hhides
      | model fields =>
        rw [substitute, substituteFields_eq]
        have hreserved : (Input.dict (fields.map fun entry =>
            (entry.1, (substitute stackOutputs entry.2).1))).isReserved = false := by
          have hlive : (Input.model fields).isRefMarker = false ∧
              (Input.model fields).isTransformMarker = false := ⟨rfl, rfl⟩
          rw [isUnread, hlive.1, hlive.2, isReserved_model] at hread
          have hkeys := isReserved_map (fun value => (substitute stackOutputs value).1) fields
          rw [hkeys]
          simpa using hread
        refine isOrdinary_dict ?_ fun hmarker => ?_
        · rw [isUnread, hreserved]
          rfl
        · rw [isReserved_of_isMarker (by rw [isMarker, hmarker]; simp)] at hreserved
          cases hreserved
      | secretRef _ => rfl
      | rendered _ => cases hself
      | stackOutputRef stack name => exact (hstack rfl).elim
      | _ => rfl
    · intro child hmem
      obtain ⟨source, hsource, rfl⟩ := List.mem_map.mp hmem
      exact ih source hsource (hchildren source hsource)

end

section

variable {rendering : Rendering} {outputs : LiveOutputs} {strict : Bool}

/-- Without a reference and without an object of one reserved key nothing is looked up. -/
theorem resolve_inert {value image : Input}
    (hinert : value.any (fun v => v.isRef || v.isReserved) = false)
    (hok : resolve rendering outputs strict value = .ok image) :
    image.any (fun v => v.isRef || v.isReserved) = false := by
  induction value using ind generalizing image with
  | step value ih =>
    obtain ⟨hself, hchildren⟩ := any_eq_false_iff.mp hinert
    have hfields : ∀ fields : List (String × Input), fields.map Prod.snd = value.children →
        (Input.dict fields).isReserved = false →
        (resolveFields rendering outputs strict fields).map .dict = .ok image →
        image.any (fun v => v.isRef || v.isReserved) = false := by
      intro fields hsame hreserved hok
      obtain ⟨found, hfound, rfl⟩ := map_eq_ok hok
      have hall := resolveFields_eq_ok.mp hfound
      rw [any_eq_false_iff]
      refine ⟨?_, ?_⟩
      · match fields, found, hall with
        | [], _, .nil => rfl
        | [(_, _)], [(_, _)], .cons ⟨hname, _⟩ .nil =>
          dsimp only at hname
          subst hname
          exact hreserved
        | _ :: _ :: _, _ :: _ :: _, _ => rfl
      · intro child hmem
        obtain ⟨entry, hentry, rfl⟩ := List.mem_map.mp hmem
        obtain ⟨source, hsource, -, himage⟩ := exists_of_forall₂ hall.flip entry hentry
        have hchild : source.2 ∈ value.children := hsame ▸ List.mem_map_of_mem hsource
        exact ih source.2 hchild (hchildren source.2 hchild) himage
    cases value with
    | list items =>
      rw [resolve] at hok
      obtain ⟨found, hfound, rfl⟩ := map_eq_ok hok
      rw [any_eq_false_iff]
      refine ⟨rfl, fun child hmem => ?_⟩
      obtain ⟨source, hsource, himage⟩ :=
        exists_of_forall₂ (resolveItems_eq_ok.mp hfound).flip child hmem
      exact ih source hsource (hchildren source hsource) himage
    | dict fields =>
      have hreserved : (Input.dict fields).isReserved = false := hself
      have hnone : (Input.dict fields).isMarker = false := by
        by_contra hmarker
        rw [isReserved_of_isMarker ((Bool.not_eq_false _).mp hmarker)] at hreserved
        cases hreserved
      rw [isMarker, Bool.or_eq_false_iff, Bool.or_eq_false_iff, Bool.or_eq_false_iff] at hnone
      have href : (Input.dict fields).refFromMarker = none := by
        rw [← Option.isNone_iff_eq_none, ← Option.isSome_eq_false_iff]
        exact hnone.1.1.1
      rw [resolve_dict href hnone.1.1.2] at hok
      exact hfields fields rfl hreserved hok
    | model fields =>
      rw [resolve] at hok
      refine hfields fields rfl ?_ hok
      rw [← isReserved_model]
      exact hself
    | transform op args =>
      rw [resolve] at hok
      obtain ⟨operands, -, hmade⟩ := bind_eq_ok hok
      obtain ⟨text, -, hmade⟩ := bind_eq_ok hmade
      split at hmade <;> cases hmade <;> rfl
    | ref _ => cases hself
    | _ =>
      cases hok
      rfl

theorem resolve_isSecretRef {value image : Input} (hsecret : value.isSecretRef = false)
    (hok : resolve rendering outputs true value = .ok image) : image.isSecretRef = false := by
  have hlookup : ∀ found : Ref, lookup outputs true found = .ok image →
      image.isSecretRef = false := by
    intro found hok
    rw [lookup] at hok
    split at hok
    next value _ =>
      cases hok
      cases value <;> rfl
    next => cases hok
  have heval : ∀ op operands, evalTransform rendering op operands = .ok image →
      image.isSecretRef = false := by
    intro op operands hmade
    obtain ⟨text, -, hmade⟩ := bind_eq_ok hmade
    split at hmade <;> cases hmade <;> rfl
  cases value with
  | list items =>
    rw [resolve] at hok
    obtain ⟨found, -, rfl⟩ := map_eq_ok hok
    rfl
  | model fields =>
    rw [resolve] at hok
    obtain ⟨found, -, rfl⟩ := map_eq_ok hok
    rfl
  | dict fields =>
    rw [resolve] at hok
    split at hok
    next found _ => exact hlookup found hok
    next =>
      split at hok
      next =>
        obtain ⟨op, operands, hmade⟩ := resolveMarker_eq_ok hok
        exact heval op operands hmade
      next =>
        obtain ⟨found, -, rfl⟩ := map_eq_ok hok
        rfl
  | ref found =>
    rw [resolve] at hok
    exact hlookup found hok
  | transform op args =>
    rw [resolve] at hok
    obtain ⟨operands, -, hmade⟩ := bind_eq_ok hok
    exact heval op operands hmade
  | secretRef _ => cases hsecret
  | _ =>
    cases hok
    rfl

end

theorem isTainted_of_holds {value : Input} (hholds : value.holdsHandle = true) :
    value.isTainted = true := by
  rw [holdsHandle] at hholds
  rw [isTainted, any_or, hholds, Bool.true_or]

theorem holdsHandle_of_any {value : Input} {p : Input → Bool}
    (hp : ∀ v, p v = true → v.isHandle = true) (hany : value.any p = true) :
    value.holdsHandle = true := by
  by_contra hnone
  have hfree := any_mono (q := p) (fun v hv => by rw [hp v hv, Bool.true_or])
    ((Bool.not_eq_true _).mp hnone)
  rw [hany] at hfree
  cases hfree

theorem resolveSecretRef_eq {secrets : SecretRef → Except Fault String} {value image : Input}
    (hsecret : value.isSecretRef = false) (hok : resolveSecretRef secrets value = .ok image) :
    image = value := by
  cases value with
  | secretRef _ => cases hsecret
  | _ =>
    cases hok
    rfl

/-- A secret below the top of a field reaches the provider, as it is or printed. -/
theorem tainted_of_secret {env : HandleEnv} {value referred image : Input}
    (hordinary : value.isOrdinary env.rendering = true) (htop : value.isSecretRef = false)
    (hsecret : value.any isSecretRef = true)
    (hreferred : resolveRef env.rendering env.outputs value = .ok referred)
    (hopened : resolveSecretRef env.secrets referred = .ok image) : image.isTainted = true := by
  rw [resolveRef] at hreferred
  split at hreferred
  next =>
    rw [resolveSecretRef_eq (resolve_isSecretRef htop hreferred) hopened]
    exact isTainted_of_holds (resolve_holdsHandle hordinary hsecret hreferred)
  next =>
    cases hreferred
    rw [resolveSecretRef_eq htop hopened]
    exact isTainted_of_holds (holdsHandle_of_any (fun v hv => by simp [isHandle, hv]) hsecret)

/-- An ordinary field that reaches the provider untainted is covered. -/
theorem isCovered_of_untainted {env : HandleEnv} (hsettled : env.Settled) {value image : Input}
    (hordinary : value.isOrdinary env.rendering = true) (hok : resolveField env value = .ok image)
    (huntainted : image.isTainted = false) : value.isCovered = true := by
  have htaints : image.isTainted ≠ true := by
    rw [huntainted]
    nofun
  obtain ⟨stacked, hstacked, hok⟩ := bind_eq_ok hok
  obtain ⟨referred, hreferred, hopened⟩ := bind_eq_ok hok
  cases htop : value.isSecretRef with
  | true => rw [isCovered, htop, Bool.true_or]
  | false =>
  have hall := hordinary
  rw [isOrdinary, Bool.not_eq_true', any_or, any_or, Bool.or_eq_false_iff,
    Bool.or_eq_false_iff] at hall
  rw [isCovered, htop, hall.1.1, hall.1.2]
  rw [resolveStackRef] at hstacked
  cases hstack : value.any isStackOutputRef with
  | false =>
    rw [hstack] at hstacked
    cases hstacked
    cases hsecret : value.any isSecretRef with
    | true => exact (htaints (tainted_of_secret hordinary htop hsecret hreferred hopened)).elim
    | false =>
      cases htransform : value.any isTransform with
      | false => rfl
      | true =>
        cases hneeds : value.needsResolution with
        | true => simp [isEvaluated, hneeds]
        | false =>
          rw [resolveRef, hneeds] at hreferred
          cases hreferred
          rw [resolveSecretRef_eq htop hopened] at htaints
          exact (htaints (isTainted_of_holds
            (holdsHandle_of_any (fun v hv => by simp [isHandle, hv]) htransform))).elim
  | true =>
    rw [isEvaluated, hstack]
    cases hsecret : value.any isSecretRef with
    | false => simp
    | true =>
      exfalso
      rw [hstack] at hstacked
      have hplaced := isOrdinary_substitute hsettled.stackOutputs hordinary
      have hheld : (substitute env.stackOutputs value).1.any isSecretRef = true :=
        (any_isSecretRef_substitute value).trans hsecret
      have hnotop : (substitute env.stackOutputs value).1.isSecretRef = false := by
        cases value with
        | secretRef _ => cases htop
        | stackOutputRef stack name =>
          rw [substitute]
          cases env.stackOutputs[stack ++ ":" ++ name]? with
          | none => rfl
          | some found => cases found <;> rfl
        | _ => rfl
      generalize substitute env.stackOutputs value = substituted at hstacked hplaced hheld hnotop
      obtain ⟨placed, missing⟩ := substituted
      cases missing with
      | cons key missing => cases hstacked
      | nil =>
        change (if placed.needsResolution || !placed.any isTransform then .ok placed
          else resolve env.rendering ∅ true placed) = _ at hstacked
        dsimp only at hplaced hheld hnotop
        split at hstacked
        next =>
          cases hstacked
          exact htaints (tainted_of_secret hplaced hnotop hheld hreferred hopened)
        next hleft =>
          rw [Bool.or_eq_true, not_or, Bool.not_eq_true] at hleft
          have hread := hplaced
          rw [isOrdinary, Bool.not_eq_true', any_or, any_or, Bool.or_eq_false_iff,
            Bool.or_eq_false_iff] at hread
          have hinert : placed.any (fun v => v.isRef || v.isReserved) = false := by
            have hboth : placed.any (fun v => (v.isRef || v.isRefMarker || v.isTransformMarker) ||
                v.isUnread) = false := by
              rw [any_or, ← needsResolution, hleft.1, hread.1.1]
              rfl
            refine any_mono (fun v hv => ?_) hboth
            cases href : v.isRef
            · rw [href, Bool.false_or] at hv
              cases hmarker : v.isRefMarker
              · cases htransform : v.isTransformMarker
                · simp [isUnread, hv, hmarker, htransform]
                · simp
              · simp
            · simp
          have hdone : stacked.needsResolution = false := by
            refine any_mono (fun v hv => ?_) (resolve_inert hinert hstacked)
            rw [Bool.or_eq_true, Bool.or_eq_true] at hv
            rcases hv with (href | hmarker) | hmarker
            · simp [href]
            · rw [isReserved_of_isMarker (by simp [isMarker, hmarker]), Bool.or_true]
            · rw [isReserved_of_isMarker (by simp [isMarker, hmarker]), Bool.or_true]
          rw [resolveRef, hdone] at hreferred
          cases hreferred
          rw [resolveSecretRef_eq (resolve_isSecretRef hnotop hstacked) hopened] at htaints
          exact htaints (isTainted_of_holds (resolve_holdsHandle hplaced hheld hstacked))

end Input

/-- Every field's own resolution. -/
theorem resolveInputs_at {env : HandleEnv} {inputs found : Dict String Input}
    (hok : resolveInputs env inputs = .ok found) {name : String} {value : Input}
    (hvalue : inputs[name]? = some value) :
    ∃ image, Input.resolveField env value = .ok image ∧ found[name]? = some image := by
  obtain ⟨stacked, referred, hstacked, hreferred, hopened⟩ := resolveInputs_eq_ok.mp hok
  obtain ⟨first, hfirst, hat⟩ := updatedInputs_at hstacked hvalue
  obtain ⟨second, hsecond, hat⟩ := updatedInputs_at hreferred hat
  obtain ⟨image, himage, hat⟩ := updatedInputs_at hopened hat
  refine ⟨image, ?_, hat⟩
  rw [Input.resolveField, hfirst]
  change (do
    let referred ← Input.resolveRef env.rendering env.outputs first
    Input.resolveSecretRef env.secrets referred) = _
  rw [hsecond]
  exact himage

/-- No field of the table holds a handle, a marker of one or a text one was printed into. -/
def Untainted (inputs : Dict String Input) : Prop :=
  ∀ (name : String) (value : Input), inputs[name]? = some value → value.isTainted = false

theorem exists_source {env : HandleEnv} {inputs found : Dict String Input}
    (hok : resolveInputs env inputs = .ok found) {name : String} {image : Input}
    (himage : found[name]? = some image) :
    ∃ value, inputs[name]? = some value ∧ Input.resolveField env value = .ok image := by
  cases hvalue : inputs[name]? with
  | some value =>
    obtain ⟨other, hother, hat⟩ := resolveInputs_at hok hvalue
    rw [himage] at hat
    cases hat
    exact ⟨value, rfl, hother⟩
  | none =>
    obtain ⟨stacked, referred, hstacked, hreferred, hopened⟩ := resolveInputs_eq_ok.mp hok
    have hnone := (Fold.traverse_eq_ok.mp hopened).2 name
      ((Fold.traverse_eq_ok.mp hreferred).2 name ((Fold.traverse_eq_ok.mp hstacked).2 name hvalue))
    rw [himage] at hnone
    cases hnone

namespace ProviderInputs

def text : Input → String
  | .str value => value
  | _ => ""

def rendering : Rendering where
  text := text
  placeholders _ := []
  reduce op operands :=
    if op = "concat" then .ok (String.join (operands.map text)) else .error .shape

def env : HandleEnv where
  rendering := rendering
  outputs := (∅ : LiveOutputs).insert "prod:aws.S3Bucket:assets" ((∅ : Dict String Value).insert
    "name" (.str "assets"))
  stackOutputs := ∅
  secrets _ := .ok "opened"

theorem env_settled : env.Settled := by
  refine ⟨fun node outputs name value hnode hvalue => ?_, fun key value hkey => ?_⟩
  · rw [env, Std.ExtTreeMap.getElem?_insert] at hnode
    split at hnode
    next =>
      cases hnode
      rw [Std.ExtTreeMap.getElem?_insert] at hvalue
      split at hvalue
      next =>
        cases hvalue
        rfl
      next =>
        rw [Std.ExtTreeMap.getElem?_empty] at hvalue
        cases hvalue
    next =>
      rw [Std.ExtTreeMap.getElem?_empty] at hnode
      cases hnode
  · rw [env, Std.ExtTreeMap.getElem?_empty] at hkey
    cases hkey

/-- A text over a bucket's name, and a secret. -/
def covered : Dict String Input :=
  (((∅ : Dict String Input).insert "url" (.transform "concat"
      [.str "https://", .ref ⟨"prod:aws.S3Bucket:assets", "name"⟩])).insert
    "token" (.secretRef ⟨"app/token", none⟩))

/-- A secret among the variables, and a text over nothing. -/
def uncovered : Dict String Input :=
  (((∅ : Dict String Input).insert "environment" (.dict
      [("TOKEN", .secretRef ⟨"app/token", none⟩)])).insert
    "function_name" (.transform "concat" [.str "web-", .str "prod"]))

end ProviderInputs

end Atlantide
